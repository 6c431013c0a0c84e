import DiagramText.Proofs.Parse
import DiagramText.Proofs.Peg.LineEndReports
import DiagramText.Proofs.Peg.Spans
import DiagramText.Proofs.Recast.Charts
import DiagramText.Proofs.Recast.Graphs
import DiagramText.Proofs.Recast.Nested

/-!
# Line ends do not matter

A document whose lines end with carriage returns and line feeds is parsed to the tree that it has with line
feeds alone, with the carriage returns in the spans that go over the end of a line. Of those spans only the
ones of running text are read: descriptions in braces and notes. So the model is the same if the running text
lies within lines (`proseInLine`). A document that its grammar rejects is rejected at the same line and
column (`Diagnostic.locate_withReturns`). `line_ends_alike` says both of every kind.
-/

namespace DiagramText

open Peg

/-! ## Places in the document -/

section

variable {source : String} {before after : List Char}

theorem sourceOf_withReturns (options : ParseOptions) (input : String) :
    sourceOf options (withReturns input) = withReturns (sourceOf options input) := by
  rw [sourceOf, toList_withReturns, Chars.trimEnd_withReturns, sourceOf]
  split
  · rw [withReturns, String.toList_ofList]
  · rfl

theorem not_mem_sourceOf {input : String} (h : '\r' ∉ input.toList) (options : ParseOptions) :
    '\r' ∉ (sourceOf options input).toList := by
  rw [sourceOf]
  split
  · rw [String.toList_ofList]
    exact fun hmem => h ((Chars.trimEnd_isPrefix _).subset hmem)
  · exact h

/-- What stands before an offset stands before its image, with the carriage returns. -/
theorem charsBefore_withReturns (h : source.toList = before ++ after) :
    charsBefore (withReturns source) (offsetWithReturns source (Chars.byteSize before)) =
      Chars.withReturns before := by
  have hbefore : charsBefore source (Chars.byteSize before) = before := by
    rw [charsBefore, h, Chars.takeBytes_append]
  rw [offsetWithReturns, hbefore, ← Chars.byteSize_withReturns, charsBefore, toList_withReturns, h,
    Chars.withReturns_append, Chars.takeBytes_append]

theorem Diagnostic.lastLine_concat (cs : List Char) (c : Char) :
    lastLine (cs ++ [c]) = if c = '\n' then [] else lastLine cs ++ [c] := by
  rw [lastLine, List.reverse_append, List.reverse_singleton, List.singleton_append, List.takeWhile_cons]
  by_cases hc : c = '\n' <;> simp [hc, lastLine]

theorem Diagnostic.lastLine_withReturns (cs : List Char) : lastLine (Chars.withReturns cs) = lastLine cs := by
  induction cs using List.reverseRecOn with
  | nil => rfl
  | append_singleton cs c ih =>
    rw [Chars.withReturns_append, lastLine_concat]
    by_cases hc : c = '\n'
    · subst hc
      rw [if_pos rfl, show Chars.withReturns ['\n'] = ['\r'] ++ ['\n'] from rfl, ← List.append_assoc,
        lastLine_concat, if_pos rfl]
    · rw [Chars.withReturns_cons hc, Chars.withReturns_nil, lastLine_concat, if_neg hc, if_neg hc, ih]

/-- A carriage return that is put at the end of a line stands there alone. -/
theorem Chars.takeWhile_line_withReturns (cs : List Char) :
    (Chars.withReturns cs).takeWhile (· != '\n') =
      cs.takeWhile (· != '\n') ++ if '\n' ∈ cs then ['\r'] else [] := by
  induction cs with
  | nil => rfl
  | cons c cs ih =>
    by_cases hc : c = '\n'
    · subst hc
      simp
    · simp [Chars.withReturns_cons hc, hc, Ne.symm hc, ih]

/-- A failure has the same place for a reader, whatever ends the lines. -/
theorem Diagnostic.locate_withReturns (kind : Kind) {failure failure' : Failure}
    (h : AtBoundary source failure.offset)
    (hoffset : failure'.offset = offsetWithReturns source failure.offset) :
    let d := locate kind source failure
    let d' := locate kind (withReturns source) failure'
    d'.line = d.line ∧ d'.column = d.column ∧ d'.sourceLine = d.sourceLine ∧ d'.caret = d.caret := by
  obtain ⟨before, after, rfl, e⟩ := h
  have hsource : (before ++ after).toList = before.toList ++ after.toList := String.toList_append
  have hbefore : charsBefore (before ++ after) failure.offset = before.toList := by
    rw [charsBefore, hsource, e, ← Chars.byteSize_toList, Chars.takeBytes_append]
  have himage : charsBefore (withReturns (before ++ after)) failure'.offset =
      Chars.withReturns before.toList := by
    rw [hoffset, e, ← Chars.byteSize_toList, charsBefore_withReturns hsource]
  have hafter : (before ++ after).toList.drop before.toList.length = after.toList := by
    rw [hsource, List.drop_left]
  have himageAfter :
      (withReturns (before ++ after)).toList.drop (Chars.withReturns before.toList).length =
        Chars.withReturns after.toList := by
    rw [toList_withReturns, hsource, Chars.withReturns_append, List.drop_left]
  have hline (start : List Char) :
      Chars.trimEndBy (· == '\r')
          (start ++ (Chars.withReturns after.toList).takeWhile (· != '\n')) =
        Chars.trimEndBy (· == '\r') (start ++ after.toList.takeWhile (· != '\n')) := by
    rw [Chars.takeWhile_line_withReturns, ← List.append_assoc]
    split
    · rw [Chars.trimEndBy_concat]
      rfl
    · rw [List.append_nil]
  have hempty : (Chars.withReturns after.toList).isEmpty = after.toList.isEmpty := by
    rw [Bool.eq_iff_iff, List.isEmpty_iff, List.isEmpty_iff, Chars.withReturns_eq_nil]
  simp only [locate, hbefore, himage, hafter, himageAfter, Chars.count_withReturns, lastLine_withReturns, hline,
    hempty, and_self]

end

/-! ## Trees with carriage returns -/

/-- The fields of a kind that hold statements or lines inside them, and whose texts are never read. -/
def Kind.blocks : Kind → List String
  | flowchart => Flowchart.blocks
  | sequence => Sequence.blocks
  | classDiagram => ClassDiagram.blocks
  | state => StateDiagram.blocks
  | er => Er.blocks
  | requirement => Requirement.blocks
  | mindmap | kanban => ["lines"]
  | _ => ["statements"]

/-- Whether the running text of a tree lies within lines, the blanks around it aside. -/
def Tree.proseInLine (t : Tree) : Bool :=
  t.allFields fun field node => !proseFields.contains field || !(trim node.text).toList.contains '\n'

/-- Whether the running text of a document lies within lines. -/
def proseInLine (options : ParseOptions) (kind : Kind) (input : String) : Bool :=
  (kind.dialect.grammar.parse (options.nesting + 1) (sourceOf options input)).toOption.all Tree.proseInLine

example : proseInLine { nesting := 20 } .pie "pie\naccDescr \x7ba\n\x7d" = true ∧
    proseInLine { nesting := 20 } .pie "pie\naccDescr \x7ba\nb\x7d" = false := by
  decide +kernel

section

variable {f : Token → Token} {t : Tree}

/-- What is read of a tree does not change with its spans as long as the texts that are read are kept. -/
theorem Kind.recast_document (kind : Kind) (h : t.Kept f kind.blocks) :
    (kind.dialect.read (t.map f)).toOption = (kind.dialect.read t).toOption := by
  cases kind with
  | flowchart => exact Flowchart.recast_document h
  | sequence => exact Sequence.recast_document h
  | classDiagram => exact ClassDiagram.recast_document h
  | state => exact StateDiagram.recast_document h
  | er => exact Er.recast_document h
  | journey => exact Journey.recast_document h
  | gitGraph => exact Git.recast_document h
  | sankey => exact Sankey.recast_document h
  | pie => exact Pie.recast_document h
  | gantt => exact Gantt.recast_document h
  | timeline => exact Timeline.recast_document h
  | mindmap => exact Mindmap.recast_document h
  | quadrantChart => exact Quadrant.recast_document h
  | requirement => exact Requirement.recast_document h
  | packet => exact Packet.recast_document h
  | kanban => exact Kanban.recast_document h
  | xyChart => exact XyChart.recast_document h
  | architecture => exact Architecture.recast_document h
  | radar => exact Radar.recast_document h
  | info => exact Info.recast_document

end

theorem Node.text_withReturns (source : String) (node : Node) :
    (node.map (addReturns source).token).text = withReturns node.text := by
  rcases node with _ | ⟨_, _⟩ | _ | ⟨⟨_, _⟩, _⟩ <;> rfl

/-- The grammars match and fail alike with either line end, and all their captures but blocks and running
text lie within a line. -/
theorem even_grammar (kind : Kind) :
    kind.dialect.grammar.Even ∧ kind.dialect.grammar.allCaptures (fun field r =>
      (kind.blocks ++ proseFields).contains field || r.fillsInLine) = true := by
  have hall : ∀ kind ∈ Kind.all, kind.dialect.grammar.Even ∧
      kind.dialect.grammar.allCaptures (fun field r =>
        (kind.blocks ++ proseFields).contains field || r.fillsInLine) = true := by decide +kernel
  exact hall kind kind.mem_all

/-- Carriage returns keep the texts that are read if the running text lies within lines. -/
theorem kept_withReturns {kind : Kind} {depth : Nat} {source : String} {tree : Tree}
    (hparse : kind.dialect.grammar.parse depth source = .ok tree) (hprose : tree.proseInLine = true) :
    tree.Kept (addReturns source).token kind.blocks := by
  have hcaptures := @allFields_of_parse
    (fun field node => (kind.blocks ++ proseFields).contains field || node.isInLine) _ _
    (even_grammar kind).2 (fun field r node h fills => by
      rw [Bool.or_eq_true] at h ⊢
      exact h.imp_right fun h => isInLine_of_fills h fills) depth _ _ hparse
  refine Tree.allFields_of_both (fun field node hcapture hprose => ?_) hcaptures hprose
  rw [List.contains_append, Bool.or_assoc, Bool.or_eq_true] at hcapture
  rw [keepsText, Node.text_withReturns, Bool.or_eq_true]
  refine hcapture.imp_right fun hcapture => ?_
  cases hfield : proseFields.contains field with
  | true =>
    rw [hfield, Bool.not_true, Bool.false_or] at hprose
    have hinLine : '\n' ∉ (trim node.text).toList := by simpa using hprose
    rw [if_pos rfl, trim_withReturns, withReturns_of_not_mem hinLine, beq_self_eq_true]
  | false =>
    rw [hfield, Bool.false_or, Node.isInLine] at hcapture
    have hinLine : '\n' ∉ node.text.toList := by simpa using hcapture
    rw [if_neg Bool.false_ne_true, withReturns_of_not_mem hinLine, beq_self_eq_true]

/-! ## Documents -/

/-- What a tree is read as, it is read as with carriage returns, if its running text lies within lines. -/
theorem read_withReturns {kind : Kind} {depth : Nat} {source : String} {tree : Tree}
    (hparse : kind.dialect.grammar.parse depth source = .ok tree) (hprose : tree.proseInLine = true)
    (content : kind.dialect.Content) :
    kind.dialect.read (tree.map (addReturns source).token) = .ok content ↔
      kind.dialect.read tree = .ok content := by
  rw [← Reading.toOption_eq_some, ← Reading.toOption_eq_some,
    kind.recast_document (kept_withReturns hparse hprose)]

/-- Whether the lines of a document end with line feeds or with carriage returns and line feeds, it has the
same model, if its running text lies within lines; and if its grammar rejects it, it does so at the same
place. -/
theorem line_ends_alike (options : ParseOptions) (kind : Kind) {input : String} (h : '\r' ∉ input.toList) :
    (proseInLine options kind input = true → ∀ m,
      parseAs .all options kind (withReturns input) = .ok m ↔ parseAs .all options kind input = .ok m) ∧
    ∀ d, parseAs .all options kind input = .error (.malformed d) →
      ∃ d', parseAs .all options kind (withReturns input) = .error (.malformed d') ∧
        d'.line = d.line ∧ d'.column = d.column ∧ d'.sourceLine = d.sourceLine ∧ d'.caret = d.caret := by
  have hsource := not_mem_sourceOf h options
  constructor
  · intro hprose m
    rw [parseAs_eq_ok, parseAs_eq_ok, sourceOf_withReturns]
    cases hparse : kind.dialect.grammar.parse (options.nesting + 1) (sourceOf options input) with
    | error failure =>
      obtain ⟨failure', hparse', -⟩ := parse_withReturns_error (even_grammar kind).1 hsource hparse
      simp [hparse']
    | ok tree =>
      rw [proseInLine, hparse] at hprose
      simp [parse_withReturns (even_grammar kind).1 hsource hparse, read_withReturns hparse hprose]
  · intro d hd
    obtain ⟨failure, hparse, rfl⟩ := failure_of_parseAs_malformed hd
    obtain ⟨failure', hparse', hoffset⟩ := parse_withReturns_error (even_grammar kind).1 hsource hparse
    rw [← sourceOf_withReturns] at hparse'
    refine ⟨_, parseAs_malformed hparse', ?_⟩
    rw [sourceOf_withReturns]
    exact Diagnostic.locate_withReturns kind (parseWithin_error_reached hparse) hoffset

/-- A description that ends on its line, and a slice without a colon. -/
theorem line_ends_alike_samples :
    (∃ m, parseAs .all { nesting := 20 } .state "stateDiagram-v2\naccDescr \x7ba\n\x7d\nA --> B\n" = .ok m ∧
      parseAs .all { nesting := 20 } .state
        (withReturns "stateDiagram-v2\naccDescr \x7ba\n\x7d\nA --> B\n") = .ok m) ∧
    ∃ d d', parseAs .all { nesting := 20 } .pie "pie\n\"a\" 1\n" = .error (.malformed d) ∧
      parseAs .all { nesting := 20 } .pie (withReturns "pie\n\"a\" 1\n") = .error (.malformed d') ∧
      d'.line = d.line ∧ d'.column = d.column := by
  constructor
  · obtain ⟨m, hm, -⟩ := @exists_parseAs .all { nesting := 20 } .state
      "stateDiagram-v2\naccDescr \x7ba\n\x7d\nA --> B\n" (fun _ => true) (by decide +kernel)
    exact ⟨m, hm, ((line_ends_alike { nesting := 20 } .state (by decide)).1 (by decide +kernel) m).2 hm⟩
  · have hrejected : (Kind.pie.dialect.grammar.parse 21
        (sourceOf { nesting := 20 } "pie\n\"a\" 1\n")).isOk = false := by
      decide +kernel
    cases hparse : Kind.pie.dialect.grammar.parse 21 (sourceOf { nesting := 20 } "pie\n\"a\" 1\n") with
    | ok tree =>
      rw [hparse] at hrejected
      cases hrejected
    | error failure =>
      have hd := @parseAs_malformed { nesting := 20 } _ _ _ hparse
      obtain ⟨d', hd', hline, hcolumn, -⟩ := (line_ends_alike { nesting := 20 } .pie (by decide)).2 _ hd
      exact ⟨_, d', hd, hd', hline, hcolumn⟩

/-- Whether a model is a pie chart with this description. -/
def Model.isPieDescribed (text : String) : Model → Bool
  | ⟨.pie, (chart : Pie.Chart)⟩ => chart.captions.accDescr == some text
  | _ => false

/-- A description over several lines keeps its carriage returns. -/
theorem line_ends_differ_in_description :
    '\r' ∉ "pie\naccDescr \x7b\na\nb\n\x7d\n\"x\" : 1".toList ∧
      ∃ m m', parseAs .all { nesting := 20 } .pie "pie\naccDescr \x7b\na\nb\n\x7d\n\"x\" : 1" = .ok m ∧
        parseAs .all { nesting := 20 } .pie (withReturns "pie\naccDescr \x7b\na\nb\n\x7d\n\"x\" : 1") = .ok m' ∧
        m ≠ m' := by
  obtain ⟨m, hm, hsame⟩ := @exists_parseAs .all { nesting := 20 } .pie
    "pie\naccDescr \x7b\na\nb\n\x7d\n\"x\" : 1" (Model.isPieDescribed "a\nb") (by decide +kernel)
  obtain ⟨m', hm', hreturns⟩ := @exists_parseAs .all { nesting := 20 } .pie
    (withReturns "pie\naccDescr \x7b\na\nb\n\x7d\n\"x\" : 1") (Model.isPieDescribed "a\r\nb")
    (by decide +kernel)
  refine ⟨by decide, m, m', hm, hm', ?_⟩
  rintro rfl
  obtain ⟨kind, content⟩ := m
  cases kind with
  | pie =>
    have htexts := (eq_of_beq hsame).symm.trans (eq_of_beq hreturns)
    exact absurd htexts (by decide)
  | _ => cases hsame

end DiagramText
