import DiagramText.Proofs.Parse
import DiagramText.Proofs.Peg.LastLine
import DiagramText.Proofs.Timeline

/-!
# Comments at the end of a document

Comment lines may stand between the statements of a document, but none may stand at its end: blanks at
the end are left out before the document is parsed, the line feed behind the comment among them, and a
comment line has to be ended.

So no kind ignores the comments at the end of its documents (`trailing_comments_ignored_iff`). Where
every statement begins with a word of its own, a comment at the end is malformed
(`parseAs_comment_malformed`). Where a statement may be any text, it is read as one: mostly it is still
malformed, because a statement has marks that some comment lacks, but every comment at the end of a
timeline is a period (`last_period_of_comment`).
-/

namespace DiagramText

open Peg

/-! ## Documents with a comment at the end -/

/-- A document with a comment line behind it. -/
def withComment (source comment : String) : String := source ++ "\n%%" ++ comment ++ "\n"

theorem trimEnd_append_newline (cs : List Char) : Chars.trimEnd (cs ++ ['\n']) = Chars.trimEnd cs := by
  rw [Chars.trimEnd, Chars.trimEndBy, List.reverse_append, List.reverse_singleton,
    List.singleton_append, List.dropWhile_cons_of_pos (by decide)]
  rfl

/-- The line feed behind the comment is not parsed. -/
theorem sourceOf_withComment (nesting : Nat) (source comment : String) :
    (sourceOf { nesting } (withComment source comment)).toList =
      source.toList ++ '\n' :: '%' :: '%' :: Chars.trimEnd comment.toList := by
  have hchars : (withComment source comment).toList =
      (source.toList ++ ['\n', '%']) ++ '%' :: (comment.toList ++ ['\n']) := by
    simp [withComment]
  rw [sourceOf, if_pos rfl, String.toList_ofList, hchars, Chars.trimEnd_append_of_not_blank _ rfl,
    trimEnd_append_newline]
  simp

/-! ## Malformed comments -/

/-- Whether a statement of the kind may be any text up to some mark. -/
def Kind.freeText : Kind → Bool
  | journey | sankey | gantt | timeline | mindmap | quadrantChart | kanban => true
  | _ => false

theorem stuck_of_not_freeText {kind : Kind} (h : kind.freeText = false) :
    kind.dialect.grammar.Stuck commentLine (commentLine.stopsWithin 0) := by
  have hall : ∀ kind ∈ Kind.all, kind.freeText = false →
      kind.dialect.grammar.Stuck commentLine (commentLine.stopsWithin 0) := by
    decide +kernel
  exact hall kind kind.mem_all h

/-- Where every statement begins with a word of its own, a comment at the end is malformed. -/
theorem parseAs_comment_malformed {nesting : Nat} {kind : Kind} (hkind : kind.freeText = false) (source : String)
    {comment : String} (h : ∀ c ∈ comment.toList, ordinary c = true) :
    ∃ d, parseAs .all { nesting } kind (withComment source comment) = .error (.malformed d) := by
  have htail : ∀ c ∈ Chars.trimEnd comment.toList, ordinary c = true := fun c hc =>
    h c ((Chars.trimEnd_isPrefix _).subset hc)
  have hp : Place.Holds commentLine (Chars.trimEnd comment.toList) .before
      (sourceOf { nesting } (withComment source comment)).toList :=
    ⟨source.toList, sourceOf_withComment nesting source comment⟩
  obtain ⟨failure, hparse⟩ := parse_error_of_stuck (stuck_of_not_freeText hkind)
    (tail_commentLine htail) hp
  exact ⟨_, parseAs_malformed hparse⟩

/-- A comment that makes every document of the kind malformed which it ends; timelines have none. -/
def Kind.offending : Kind → String
  | mindmap => "["
  | kanban => "@"
  | _ => ""

/-- The last line of a document with the offending comment of the kind. -/
def Kind.offendingLine (kind : Kind) : LastLine := ⟨'%' :: '%' :: kind.offending.toList, true⟩

theorem stuck_at_offending {kind : Kind} (h : kind.freeText = true) (hne : kind ≠ .timeline) :
    kind.dialect.grammar.Stuck kind.offendingLine
      (kind.offendingLine.stopsWithin (2 * kind.offending.length)) := by
  have hall : ∀ kind ∈ Kind.all, kind.freeText = true → kind ≠ .timeline →
      kind.dialect.grammar.Stuck kind.offendingLine
        (kind.offendingLine.stopsWithin (2 * kind.offending.length)) := by
    decide
  exact hall kind kind.mem_all h hne

theorem parseAs_offending_malformed {nesting : Nat} {kind : Kind} (hkind : kind.freeText = true)
    (hne : kind ≠ .timeline) (source : String) :
    ∃ d, parseAs .all { nesting } kind (withComment source kind.offending) = .error (.malformed d) := by
  have htrim : Chars.trimEnd kind.offending.toList = kind.offending.toList := by
    cases kind <;> rfl
  have hp : Place.Holds kind.offendingLine [] .before
      (sourceOf { nesting } (withComment source kind.offending)).toList := by
    refine ⟨source.toList, ?_⟩
    rw [sourceOf_withComment, htrim, List.append_nil]
    rfl
  obtain ⟨failure, hparse⟩ := parse_error_of_stuck (stuck_at_offending hkind hne)
    ⟨fun _ hc => absurd hc List.not_mem_nil, fun _ => rfl⟩ hp
  exact ⟨_, parseAs_malformed hparse⟩

/-! ## Comments that are read -/

/-- A comment at the end of a timeline is its last period. -/
theorem last_period_of_comment {nesting : Nat} {source comment : String}
    (h : ∀ c ∈ comment.toList, ordinary c = true) (hname : Timeline.PlainName comment.toList)
    {chronicle : Timeline.Chronicle}
    (hparse : parseAs .all { nesting } .timeline (withComment source comment) = .ok ⟨.timeline, chronicle⟩) :
    chronicle.periods.getLast?.map (·.name) =
      some (trim (String.ofList ('%' :: '%' :: Chars.trimEnd comment.toList))) := by
  obtain ⟨tree, content, hsource, hread, hchecked⟩ := parseAs_eq_ok.1 hparse
  have hcontent : chronicle = content := by
    have := eq_of_checkedModel hchecked
    injection this
  subst hcontent
  have hsubset := (Chars.trimEnd_isPrefix comment.toList).subset
  exact Timeline.last_period_of_read (fun c hc => h c (hsubset hc)) (fun c hc => hname c (hsubset hc))
    (sourceOf_withComment nesting source comment) hsource hread

/-- Two comments at the end of a timeline are not read as the same period. -/
theorem timeline_comments_differ {nesting : Nat} {source : String} {m : Model}
    (h : parseAs .all { nesting } .timeline (withComment source "") = .ok m) :
    parseAs .all { nesting } .timeline (withComment source "a") ≠ .ok m := by
  intro h'
  obtain ⟨-, chronicle, -, -, hchecked⟩ := parseAs_eq_ok.1 h
  obtain rfl := eq_of_checkedModel hchecked
  have hempty := last_period_of_comment (by simp) (by simp [Timeline.PlainName]) h
  have ha := last_period_of_comment (by simp [ordinary]) (by simp [Timeline.PlainName]) h'
  rw [hempty] at ha
  exact absurd ha (by decide)

/-- Whatever a document is read as, with some comment at its end it is not read as that. -/
theorem exists_comment_not_ignored (nesting : Nat) (kind : Kind) (source : String) (m : Model) :
    ∃ comment : String, (∀ c ∈ comment.toList, c ≠ '\n' ∧ c ≠ '\r') ∧
      parseAs .all { nesting } kind (withComment source comment) ≠ .ok m := by
  cases hkind : kind.freeText with
  | false =>
    obtain ⟨d, hd⟩ := @parseAs_comment_malformed nesting kind hkind source "" (by simp)
    exact ⟨"", by simp, by rw [hd]; nofun⟩
  | true =>
    by_cases hne : kind = .timeline
    · subst hne
      by_cases h : parseAs .all { nesting } .timeline (withComment source "") = .ok m
      · exact ⟨"a", by simp, timeline_comments_differ h⟩
      · exact ⟨"", by simp, h⟩
    · obtain ⟨d, hd⟩ := parseAs_offending_malformed hkind hne source
      exact ⟨kind.offending, by cases kind <;> simp [Kind.offending], by rw [hd]; nofun⟩

/-- No kind ignores all comments at the end of a document that it takes; where every statement begins
with a word of its own, it takes no document with a comment at the end at all. -/
theorem trailing_comments_ignored_iff (nesting : Nat) (kind : Kind) (source : String) :
    ((∀ m, parseAs .all { nesting } kind source = .ok m →
        ∀ comment : String, (∀ c ∈ comment.toList, c ≠ '\n' ∧ c ≠ '\r') →
          parseAs .all { nesting } kind (withComment source comment) = .ok m) ↔
      ¬ ∃ m, parseAs .all { nesting } kind source = .ok m) ∧
    (kind.freeText = false → ∀ comment : String, (∀ c ∈ comment.toList, ordinary c = true) →
      ∃ d, parseAs .all { nesting } kind (withComment source comment) = .error (.malformed d)) := by
  refine ⟨⟨?_, fun hnone m h => absurd ⟨m, h⟩ hnone⟩,
    fun hkind comment h => parseAs_comment_malformed hkind source h⟩
  rintro hignored ⟨m, hm⟩
  obtain ⟨comment, hcomment, hne⟩ := exists_comment_not_ignored nesting kind source m
  exact hne (hignored m hm comment hcomment)

/-- The comment behind this message is not ignored. -/
theorem trailing_comment_not_ignored :
    ¬ ∀ (kind : Kind) (source : String) (m : Model), parseAs .all { nesting := 20 } kind source = .ok m →
      ∀ comment : String, (∀ c ∈ comment.toList, c ≠ '\n' ∧ c ≠ '\r') →
        parseAs .all { nesting := 20 } kind (withComment source comment) = .ok m := by
  intro h
  have hok : (parseAs .all { nesting := 20 } .sequence "sequenceDiagram\nA->>B: hi").isOk = true := by
    decide +kernel
  have hbad : (parseAs .all { nesting := 20 } .sequence
      (withComment "sequenceDiagram\nA->>B: hi" "c")).isOk = false := by
    decide +kernel
  cases hm : parseAs .all { nesting := 20 } .sequence "sequenceDiagram\nA->>B: hi" with
  | error reason =>
    rw [hm] at hok
    cases hok
  | ok m =>
    rw [h .sequence _ m hm "c" (by simp)] at hbad
    cases hbad

end DiagramText
