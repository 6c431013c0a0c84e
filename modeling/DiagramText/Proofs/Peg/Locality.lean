import DiagramText.Pie
import DiagramText.Proofs.Peg.Loud

/-!
# The locality of failures

A sequence at the root of a grammar fails at its first member that does. The report should then lie no
further back than the members before it got, and say what was expected (`Failure.Locates`). Whether it does
can be read off two traces (`parse_error_locates_iff`): that of the member that fails, which only has to
expect something in vain, and that of the members before it. What a lookahead or a silent rule comes upon
is in no trace, and neither is that it fails: the word `piex`, which starts with a keyword but is none, is
reported at the start of the document wherever it stands.

`Traced.voices` says of derivations what `Reports` says of runs: a loud rule that fails expects something in
vain, also at the very start of an input, where how far a run stretches tells nothing.
-/

namespace DiagramText.Peg

/-! ## Reports and the traces that they sum up -/

/-- The failure is reported no further back than a position, and with what was expected. -/
def Failure.Locates (failure : Failure) (cur : Cursor) : Prop :=
  cur.offset ≤ failure.offset ∧ failure.expected ≠ []

instance (failure : Failure) (cur : Cursor) : Decidable (failure.Locates cur) :=
  inferInstanceAs (Decidable (_ ∧ _))

theorem exists_mem_furthest {trace : List Miss} (h : trace ≠ []) :
    ∃ miss ∈ trace, miss.offset = furthest trace := by
  induction trace with
  | nil => exact absurd rfl h
  | cons first trace ih =>
    rw [furthest]
    by_cases hrest : trace = []
    · exact ⟨first, List.mem_cons_self, by rw [hrest, furthest, Nat.max_zero]⟩
    · obtain ⟨miss, hmem, hoffset⟩ := ih hrest
      rcases Nat.le_total (furthest trace) first.offset with hle | hle
      · exact ⟨first, List.mem_cons_self, (Nat.max_eq_left hle).symm⟩
      · exact ⟨miss, List.mem_cons_of_mem _ hmem, by rw [hoffset, Nat.max_eq_right hle]⟩

theorem expectations_ne_nil {trace : List Miss} (h : trace ≠ []) : expectations trace ≠ [] := by
  obtain ⟨miss, hmem, hoffset⟩ := exists_mem_furthest h
  have hin : miss.description ∈ expectations trace := by
    rw [expectations, List.mem_eraseDups]
    exact List.mem_map_of_mem (List.mem_filter.2 ⟨hmem, by simpa using hoffset⟩)
  exact List.ne_nil_of_mem hin

/-- What a trace amounts to lies no further back than what one of its misses does. -/
theorem summary_locates_iff {trace : List Miss} {cur : Cursor} :
    (summary trace).Locates cur ↔ ∃ miss ∈ trace, cur.offset ≤ miss.offset := by
  constructor
  · rintro ⟨hoffset, hexpected⟩
    have hne : trace ≠ [] := by
      rintro rfl
      exact hexpected rfl
    obtain ⟨miss, hmem, hfurthest⟩ := exists_mem_furthest hne
    exact ⟨miss, hmem, hfurthest ▸ hoffset⟩
  · rintro ⟨miss, hmem, hoffset⟩
    exact ⟨Nat.le_trans hoffset (offset_le_furthest hmem), expectations_ne_nil (List.ne_nil_of_mem hmem)⟩

/-! ## Traces of loud rules -/

section

variable {table : List (String × Rule)} {r : Rule} {cur : Cursor} {outcome : Option Cursor}
  {trace : List Miss}

/-- A derivation of a rule that consumes moves on, through however many references. -/
theorem Traced.offset_lt (htable : Outspoken table) (h : Traced table r cur outcome trace)
    (hr : r.consumes = true) : ∀ next, outcome = some next → cur.offset < next.offset := by
  induction h with
  | @literal text anyCase found cur next hf hs =>
    rintro _ ⟨⟩
    have hne : text ≠ "" := by simpa [Rule.consumes] using hr
    have : text.utf8ByteSize ≠ 0 := fun e => hne (String.utf8ByteSize_eq_zero_iff.1 e)
    rw [hs.offset, hf.byteSize]
    omega
  | @chars set c cur next _ hs =>
    rintro _ ⟨⟩
    rw [hs.offset]
    exact Nat.lt_add_of_pos_right (Nat.lt_of_lt_of_le c.utf8Size_pos (Nat.le_add_right _ _))
  | literalMiss | charsMiss | sequenceFail | choiceNil | notAheadSome | labelledBeyond | labelledHere =>
    rintro _ ⟨⟩
  | sequenceNil | optionalSome | optionalNone | notAheadNone => cases hr
  | sequenceCons h hs ih ihs =>
    intro last e
    rw [Rule.consumes, Rule.anyConsumes, Bool.or_eq_true] at hr
    obtain hr | hr := hr
    · exact Nat.lt_of_lt_of_le (ih hr _ rfl) (hs.reaches last e).offset_le
    · exact Nat.lt_of_le_of_lt (h.reaches _ rfl).offset_le (ihs hr last e)
  | choiceFound _ ih =>
    rw [Rule.consumes, Rule.allConsume, Bool.and_eq_true] at hr
    exact ih hr.1
  | choiceNext _ _ _ ihs =>
    rw [Rule.consumes, Rule.allConsume, Bool.and_eq_true] at hr
    exact ihs hr.2
  | repeatedFull | repeatedStop =>
    rw [Rule.consumes, Bool.and_eq_true, bne_iff_ne] at hr
    rw [if_neg hr.1]
    rintro _ ⟨⟩
  | repeatedStay _ _ ih =>
    rw [Rule.consumes, Bool.and_eq_true] at hr
    exact absurd (ih hr.2 _ rfl) (Nat.lt_irrefl _)
  | repeatedRound _ _ _ hs ih _ =>
    intro last e
    rw [Rule.consumes, Bool.and_eq_true] at hr
    exact Nat.lt_of_lt_of_le (ih hr.2 _ rfl) (hs.reaches last e).offset_le
  | capture _ ih | labelledSome _ ih | quiet _ ih => exact ih hr
  | ref hl _ ih => exact ih (htable _ _ hl).1

theorem Traced.ne_none (h : Traced table r cur outcome trace) (hr : r.isTotal = true) :
    outcome ≠ none := by
  induction h with
  | literal | literalMiss | chars | charsMiss | sequenceNil | sequenceFail | sequenceCons | choiceNil
  | choiceFound | choiceNext | notAheadSome | notAheadNone | ref => cases hr
  | repeatedFull | repeatedStop | repeatedStay =>
    obtain rfl := by simpa [Rule.isTotal] using hr
    exact Option.some_ne_none _
  | repeatedRound _ _ _ _ _ ihs =>
    obtain rfl := by simpa [Rule.isTotal] using hr
    exact ihs rfl
  | optionalSome | optionalNone | labelledSome => exact Option.some_ne_none _
  | capture _ ih | labelledBeyond _ _ ih | labelledHere _ _ ih | quiet _ ih => exact ih hr

/-- What `Rule.isLoud` and `Rule.settles` say of a derivation. -/
structure Voices (table : List (String × Rule)) (r : Rule) (outcome : Option Cursor)
    (trace : List Miss) : Prop where
  loud : r.isLoud table = true → outcome = none → trace ≠ []
  settles : r.settles table = true → ∀ next, outcome = some next →
    ∃ miss ∈ trace, next.offset ≤ miss.offset

/-- A rule that does not settle. -/
theorem Voices.of_unsettled (hsettles : r.settles table = false)
    (h : r.isLoud table = true → outcome = none → trace ≠ []) : Voices table r outcome trace :=
  ⟨h, fun hr => absurd (hsettles ▸ hr) Bool.false_ne_true⟩

theorem Voices.of_some {next : Cursor} (hsettles : r.settles table = false) :
    Voices table r (some next) trace :=
  .of_unsettled hsettles fun _ hnone => absurd hnone (Option.some_ne_none _)

theorem Voices.of_none (h : r.isLoud table = true → trace ≠ []) : Voices table r none trace :=
  ⟨fun hloud _ => h hloud, fun _ _ e => by cases e⟩

/-- By induction on the derivation: a sequence is loud by the members that settle before one that may be mute,
so both properties go through the induction together. -/
theorem Traced.voices (htable : Outspoken table) (h : Traced table r cur outcome trace) :
    Voices table r outcome trace := by
  induction h with
  | literal | chars | sequenceNil | choiceFound | optionalSome | optionalNone | notAheadNone =>
    exact .of_some rfl
  | choiceNil | notAheadSome => exact .of_none fun hloud => absurd hloud Bool.false_ne_true
  | literalMiss | charsMiss | labelledHere => exact .of_none fun _ => List.cons_ne_nil _ _
  | sequenceFail _ ih =>
    refine .of_none fun hloud => ?_
    rw [Rule.isLoud, Rule.allLoud, Bool.and_eq_true] at hloud
    exact ih.loud hloud.1 rfl
  | sequenceCons _ _ ih ihs =>
    refine .of_unsettled rfl fun hloud hnone => ?_
    rw [Rule.isLoud, Rule.allLoud, Bool.and_eq_true, Bool.or_eq_true] at hloud
    obtain hsettles | hrest := hloud.2
    · obtain ⟨miss, hmem, -⟩ := ih.settles hsettles _ rfl
      exact List.append_ne_nil_of_left_ne_nil (List.ne_nil_of_mem hmem) _
    · exact List.append_ne_nil_of_right_ne_nil _ (ihs.loud hrest hnone)
  | choiceNext _ _ ih ihs =>
    refine .of_unsettled rfl fun hloud hnone => ?_
    rw [Rule.isLoud, Rule.anyLoud, Bool.or_eq_true] at hloud
    obtain hloud | hrest := hloud
    · exact List.append_ne_nil_of_left_ne_nil (ih.loud hloud rfl) _
    · exact List.append_ne_nil_of_right_ne_nil _ (ihs.loud hrest hnone)
  | repeatedFull =>
    refine .of_unsettled rfl fun hloud hnone => ?_
    obtain rfl := by simpa [Rule.isLoud] using hloud
    cases hnone
  | @repeatedStop r least most cur trace _ h ih =>
    refine ⟨fun hloud hnone => ?_, fun hsettles next e => ?_⟩
    · simp only [Rule.isLoud, Bool.or_eq_true, Bool.and_eq_true, beq_iff_eq] at hloud
      obtain rfl | hloud := hloud
      · cases hnone
      · exact ih.loud hloud.2 rfl
    · -- The round that ends the repetition is loud, and it fails where the repetition ends.
      simp only [Rule.settles, Bool.and_eq_true] at hsettles
      split at e <;> cases e
      obtain ⟨miss, hmem⟩ := List.exists_mem_of_ne_nil _ (ih.loud hsettles.2 rfl)
      exact ⟨miss, hmem, h.offset_le miss hmem⟩
  | @repeatedStay r least most cur trace _ h ih =>
    refine ⟨fun hloud hnone => ?_, fun hsettles next e => ?_⟩
    · simp only [Rule.isLoud, Bool.or_eq_true, Bool.and_eq_true, beq_iff_eq] at hloud
      rw [if_pos (by omega)] at hnone
      cases hnone
    · simp only [Rule.settles, Bool.and_eq_true] at hsettles
      exact absurd (h.offset_lt htable hsettles.1.2 _ rfl) (Nat.lt_irrefl _)
  | @repeatedRound r least most cur next outcome trace more _ _ _ hs _ ihs =>
    refine ⟨fun hloud hnone => ?_, fun hsettles last e => ?_⟩
    · simp only [Rule.isLoud, Bool.or_eq_true, Bool.and_eq_true, beq_iff_eq] at hloud
      exact absurd hnone (hs.ne_none (beq_iff_eq.2 (by omega)))
    · have hrest : (Rule.repeated r (least - 1) (most.map (· - 1))).settles table = true := by
        simpa [Rule.settles] using hsettles
      obtain ⟨miss, hmem, hoffset⟩ := ihs.settles hrest last e
      exact ⟨miss, List.mem_append_right _ hmem, hoffset⟩
  | capture _ ih => exact ⟨ih.loud, ih.settles⟩
  | labelledSome _ ih => exact ⟨fun _ hnone => absurd hnone (Option.some_ne_none _), ih.settles⟩
  | labelledBeyond _ hb _ =>
    obtain ⟨miss, hmem, -⟩ := hb
    exact .of_none fun _ => List.ne_nil_of_mem hmem
  | quiet h _ => exact .of_unsettled rfl fun hloud hnone => absurd hnone (h.ne_none hloud)
  | ref hl _ ih => exact .of_unsettled rfl fun _ hnone => ih.loud (htable _ _ hl).2 hnone

/-- What is expected after the last member of a sequence counts for the whole sequence. -/
theorem Traced.settles_of_getLast (htable : Outspoken table) {rules : List Rule} {next : Cursor}
    (h : Traced table (.sequence rules) cur (some next) trace)
    (hlast : rules.getLast?.any (·.settles table) = true) :
    ∃ miss ∈ trace, next.offset ≤ miss.offset := by
  induction rules generalizing cur trace with
  | nil => cases hlast
  | cons first rules ih =>
    cases h with
    | sequenceCons h hs =>
      cases rules with
      | nil =>
        cases hs
        simpa using (h.voices htable).settles hlast _ rfl
      | cons second rules =>
        rw [List.getLast?_cons_cons] at hlast
        obtain ⟨miss, hmem, hoffset⟩ := ih hs hlast
        exact ⟨miss, List.mem_append_right _ hmem, hoffset⟩

end

/-! ## Sequences that fail -/

/-- A parse whose root does not match fails with the frontier of its run. -/
theorem parse_eq_error {depth : Nat} {g : Grammar} {input : String} {failure : Failure}
    (hnone : (g.root.outcome g.rules depth (.start input)).isNone = true)
    (hfailure : (g.root.matchWithin g.rules depth false (.start input) {}).2.failure = failure) :
    g.parse depth input = .error failure := by
  have hrun := @matchWithin_fst g.rules depth g.root false (.start input) {}
  rw [Option.isNone_iff_eq_none.1 hnone] at hrun
  rw [Grammar.parse, Grammar.parseWithin]
  rcases hm : g.root.matchWithin g.rules depth false (.start input) {} with ⟨_ | _, f⟩ <;>
    rw [hm] at hrun hfailure
  · exact congrArg Except.error hfailure
  · cases hrun

theorem refsAll_append (rules more : List Rule) :
    Rule.refsAll (rules ++ more) = Rule.refsAll rules ++ Rule.refsAll more := by
  rw [refsAll_eq, refsAll_eq, refsAll_eq, List.flatMap_append]

section

variable {g : Grammar} {before after : List Rule} {r : Rule} {depth : Nat} {input : String} {cur : Cursor}
  {a : Fragment}

/-- Where a member of the root fails, the report sums up what the members before expected in vain, and then
what that member did. -/
theorem parse_eq_summary (hg : g.Closed) (hroot : g.root = .sequence (before ++ r :: after))
    (hfits : g.Fits depth g.root input)
    (hbefore : (Rule.sequence before).outcome g.rules depth (.start input) = some (cur, a))
    (hr : r.outcome g.rules depth cur = none) :
    ∃ earlier own, Traced g.rules (.sequence before) (.start input) (some cur) earlier ∧
      Traced g.rules r cur none own ∧ g.parse depth input = .error (summary (earlier ++ own)) := by
  have hdefined : (Rule.sequence before).Defined g.rules ∧ r.Defined g.rules := by
    have hroot' := hg.root
    rw [hroot] at hroot'
    refine ⟨fun name h => hroot' name ?_, fun name h => hroot' name ?_⟩
    · show name ∈ Rule.refsAll (before ++ r :: after)
      rw [refsAll_append]
      exact List.mem_append_left _ h
    · exact mem_refsAll (List.mem_append_right _ List.mem_cons_self) h
  -- The run of the root is one of the members before, and then one of the member that fails.
  obtain ⟨f₁, hrun⟩ : ∃ f₁, (Rule.sequence before).matchWithin g.rules depth false
      (.start input) {} = (some (cur, a), f₁) := ⟨_, Prod.ext ((matchWithin_fst ..).trans hbefore) rfl⟩
  obtain ⟨f₂, hrun'⟩ : ∃ f₂, r.matchWithin g.rules depth false cur f₁ = (none, f₂) :=
    ⟨_, Prod.ext ((matchWithin_fst ..).trans hr) rfl⟩
  have hall : g.root.matchWithin g.rules depth false (.start input) {} = (none, f₂) := by
    rw [Rule.matchWithin, Rule.matchWith] at hrun
    rw [Rule.matchWithin] at hrun'
    rw [hroot, Rule.matchWithin, Rule.matchWith, matchAll_rules_append, hrun]
    show Rule.matchAll _ (r :: after) false a cur f₁ = _
    rw [Rule.matchAll, hrun']
  have hf₂ : f₂.refused = false := by
    have := hfits
    rwa [Grammar.Fits, hall] at this
  obtain ⟨own, hown, e⟩ := matchWithin_follows hg.of_lookup _ r hdefined.2 false cur f₁ none f₂ hrun' hf₂
  have hf₁ : f₁.refused = false := by rw [← hf₂, e, refused_after]
  obtain ⟨earlier, hearlier, e'⟩ :=
    matchWithin_follows hg.of_lookup _ _ hdefined.1 false (.start input) {} _ f₁ hrun hf₁
  refine ⟨earlier, own, hearlier, hown, ?_⟩
  rw [Grammar.parse, Grammar.parseWithin, hall, ← failure_addAll, addAll_append]
  show Except.error f₂.failure = _
  rw [e, e']
  rfl

/-- Where a member of the root fails, this is reported no further back than the members before it got, and
with what was expected, if and only if that member expects something in vain, or one of those before it does
where they end or beyond. The member does if it is loud, and those before it do if the last of them
settles. -/
theorem parse_error_locates_iff (hg : g.Closed) (hroot : g.root = .sequence (before ++ r :: after))
    (hfits : g.Fits depth g.root input)
    (hbefore : (Rule.sequence before).outcome g.rules depth (.start input) = some (cur, a))
    (hr : r.outcome g.rules depth cur = none) :
    ∃ failure earlier own, g.parse depth input = .error failure ∧
      Traced g.rules (.sequence before) (.start input) (some cur) earlier ∧
      Traced g.rules r cur none own ∧
      (failure.Locates cur ↔ own ≠ [] ∨ ∃ miss ∈ earlier, cur.offset ≤ miss.offset) ∧
      (Outspoken g.rules → (r.isLoud g.rules || before.getLast?.any (·.settles g.rules)) = true →
        failure.Locates cur) := by
  obtain ⟨earlier, own, hearlier, hown, hparse⟩ := parse_eq_summary hg hroot hfits hbefore hr
  have hiff : (summary (earlier ++ own)).Locates cur ↔
      own ≠ [] ∨ ∃ miss ∈ earlier, cur.offset ≤ miss.offset := by
    rw [summary_locates_iff]
    constructor
    · rintro ⟨miss, hmem, hoffset⟩
      obtain hmem | hmem := List.mem_append.1 hmem
      · exact .inr ⟨miss, hmem, hoffset⟩
      · exact .inl (List.ne_nil_of_mem hmem)
    · rintro (hne | ⟨miss, hmem, hoffset⟩)
      · obtain ⟨miss, hmem⟩ := List.exists_mem_of_ne_nil _ hne
        exact ⟨miss, List.mem_append_right _ hmem, hown.offset_le miss hmem⟩
      · exact ⟨miss, List.mem_append_left _ hmem, hoffset⟩
  refine ⟨_, earlier, own, hparse, hearlier, hown, hiff, fun htable hloud => hiff.2 ?_⟩
  rw [Bool.or_eq_true] at hloud
  obtain hloud | hsettles := hloud
  · exact .inl ((hown.voices htable).loud hloud rfl)
  · exact .inr (hearlier.settles_of_getLast htable hsettles)

/-- A line that goes on behind the keyword: the end of the line is expected in vain. -/
theorem parse_error_locates_iff_pie :
    Pie.grammar.parse 20 "pie x" =
        .error ⟨4, ["one of space tab", "'showData'", "'title'", "end of line"]⟩ ∧
      ∃ failure earlier own, Pie.grammar.parse 20 "pie x" = .error failure ∧
        Traced Pie.grammar.rules (.sequence [preamble, ws, Pie.headerRule]) (.start "pie x")
          (some ⟨3, [' ', 'x']⟩) earlier ∧
        Traced Pie.grammar.rules eol ⟨3, [' ', 'x']⟩ none own ∧
        (failure.Locates ⟨3, [' ', 'x']⟩ ↔ own ≠ [] ∨ ∃ miss ∈ earlier, 3 ≤ miss.offset) ∧
        failure.Locates ⟨3, [' ', 'x']⟩ := by
  have hclosed : Pie.grammar.Closed := by decide
  have hfits : Pie.grammar.Fits 20 Pie.grammar.root "pie x" := by decide +kernel
  have hentries : ∀ entry ∈ Pie.grammar.rules,
      entry.2.consumes = true ∧ entry.2.isLoud Pie.grammar.rules = true := by
    decide
  have htable : Outspoken Pie.grammar.rules := fun name r hl => hentries _ (mem_of_lookup hl)
  have hheader : ((Rule.sequence [preamble, ws, Pie.headerRule]).outcome Pie.grammar.rules
      20 (.start "pie x")).map (·.1) = some ⟨3, [' ', 'x']⟩ := by decide +kernel
  have heol : (eol.outcome Pie.grammar.rules 20 ⟨3, [' ', 'x']⟩).isNone = true := by
    decide +kernel
  obtain ⟨after, hroot⟩ : ∃ after, Pie.grammar.root =
      .sequence ([preamble, ws, Pie.headerRule] ++ eol :: after) := ⟨_, rfl⟩
  obtain ⟨⟨_, a⟩, hbefore, rfl⟩ := Option.map_eq_some_iff.1 hheader
  obtain ⟨failure, earlier, own, hparse, hearlier, hown, hiff, hlocates⟩ :=
    parse_error_locates_iff hclosed hroot hfits hbefore (Option.isNone_iff_eq_none.1 heol)
  exact ⟨parse_eq_error (by decide +kernel) (by decide +kernel), failure, earlier, own, hparse, hearlier,
    hown, hiff, hlocates htable (by decide)⟩

/-- A longer word in the place of the keyword, after two empty lines: the members before the header match
those, the header fails at the word, and the report is empty and lies at the start of the document. -/
theorem not_locates_of_longer_word :
    (∃ after, Pie.grammar.root = .sequence ([preamble, ws] ++ Pie.headerRule :: after)) ∧
      Pie.grammar.Closed ∧ Pie.grammar.Fits 20 Pie.grammar.root "\n\npiex" ∧
      (∃ a, (Rule.sequence [preamble, ws]).outcome Pie.grammar.rules 20
        (.start "\n\npiex") = some (⟨2, ['p', 'i', 'e', 'x']⟩, a)) ∧
      Pie.headerRule.outcome Pie.grammar.rules 20 ⟨2, ['p', 'i', 'e', 'x']⟩ = none ∧
      Pie.grammar.parse 20 "\n\npiex" = .error ⟨0, []⟩ ∧
      ¬ Failure.Locates ⟨0, []⟩ ⟨2, ['p', 'i', 'e', 'x']⟩ := by
  have hlines : ((Rule.sequence [preamble, ws]).outcome Pie.grammar.rules 20
      (.start "\n\npiex")).map (·.1) = some ⟨2, ['p', 'i', 'e', 'x']⟩ := by decide +kernel
  have hheader : (Pie.headerRule.outcome Pie.grammar.rules 20
      ⟨2, ['p', 'i', 'e', 'x']⟩).isNone = true := by decide +kernel
  obtain ⟨⟨_, a⟩, hbefore, rfl⟩ := Option.map_eq_some_iff.1 hlines
  exact ⟨⟨_, rfl⟩, by decide, by decide +kernel, ⟨a, hbefore⟩, Option.isNone_iff_eq_none.1 hheader,
    parse_eq_error (by decide +kernel) (by decide +kernel), by decide⟩

end

end DiagramText.Peg
