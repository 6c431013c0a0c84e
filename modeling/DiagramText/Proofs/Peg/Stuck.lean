import DiagramText.Proofs.Peg.Builders
import DiagramText.Proofs.Peg.Copies
import DiagramText.Proofs.Peg.LineWise
import DiagramText.Proofs.Peg.Stretch

/-!
# Where a parse is stuck

A rule sticks at an offset if its runs come upon something missing there, and nowhere further on, and expect one
thing alone (`Sticks`). What was expected before, anywhere short of that offset, is then forgotten. So it is enough
to follow the path to the place at fault: with a lemma for each form of rule, from `Sticks.sequence_cons` for the
members that match on the way to `Sticks.many_round` for the rounds, up to `Sticks.parse_eq_error` for the report of
the whole parse. All that has to be known of what lies off the path is that it stretches less far.

For a line-wise rule that is the end of its line (`stretch_le_line`), so that no line behind another is reached
before a parse goes on with it.
-/

namespace DiagramText.Peg

variable {table : List (String × Rule)} {depth n : Nat} {r : Rule} {rules : List Rule} {cur next : Cursor}

/-! ## Bounds on how far a run stretches -/

theorem stretch_sequence_cons_le (h : r.stretch table depth cur ≤ n)
    (hrest : ∀ next a, r.outcome table depth cur = some (next, a) →
      (Rule.sequence rules).stretch table depth next ≤ n) :
    (Rule.sequence (r :: rules)).stretch table depth cur ≤ n := by
  rw [stretch_sequence_cons]
  refine Nat.max_le.2 ⟨h, ?_⟩
  cases ho : r.outcome table depth cur with
  | none => exact Nat.zero_le n
  | some found => exact hrest found.1 found.2 ho

theorem stretch_choice_cons_le (h : r.stretch table depth cur ≤ n)
    (hrest : (Rule.choice rules).stretch table depth cur ≤ n) :
    (Rule.choice (r :: rules)).stretch table depth cur ≤ n := by
  rw [stretch_choice_cons]
  refine Nat.max_le.2 ⟨h, ?_⟩
  split
  · exact Nat.zero_le n
  · exact hrest

theorem stretch_choice_nil_le (cur : Cursor) (n : Nat) : (Rule.choice []).stretch table depth cur ≤ n := by
  rw [stretch_choice_nil]
  exact Nat.zero_le n

/-- The rest of a sequence goes on behind what its first rule takes. -/
theorem Rule.Takes.stretch_le {text rest : List Char} {leaves : Nat → Fragment}
    (h : r.Takes table depth text rest leaves) {offset : Nat}
    (hs : r.stretch table depth ⟨offset, text ++ rest⟩ ≤ n)
    (hrest : (Rule.sequence rules).stretch table depth ⟨offset + Chars.byteSize text, rest⟩ ≤ n) :
    (Rule.sequence (r :: rules)).stretch table depth ⟨offset, text ++ rest⟩ ≤ n := by
  refine stretch_sequence_cons_le hs fun next a ho => ?_
  rw [h offset] at ho
  obtain ⟨rfl, -⟩ := Prod.mk.inj (Option.some.inj ho)
  exact hrest

theorem stretch_labelled_le (h : r.stretch table depth cur ≤ n) (hcur : cur.offset ≤ n) (label : String) :
    (Rule.labelled label r).stretch table depth cur ≤ n := by
  rw [stretch_labelled]
  split
  · exact h
  · exact Nat.max_le.2 ⟨h, hcur⟩

/-- A text that is missed is missed where it should start. -/
theorem stretch_lit_le (text : String) (cur : Cursor) : (lit text).stretch table depth cur ≤ cur.offset := by
  rw [lit, stretch_literal]
  split
  · exact Nat.zero_le _
  · exact Nat.le_refl _

/-- A text that is found is not missed. -/
theorem stretch_lit_found (text : String) (offset : Nat) (rest : List Char) :
    (lit text).stretch table depth ⟨offset, text.toList ++ rest⟩ = 0 := by
  have found := @outcome_lit table depth text offset rest
  rw [lit, outcome_literal] at found
  obtain ⟨next, hnext, -⟩ := Option.map_eq_some_iff.1 found
  rw [lit, stretch_literal, hnext]
  rfl

theorem stretch_keyword_le (text : String) (cur : Cursor) :
    (keyword text).stretch table depth cur ≤ cur.offset := by
  refine stretch_sequence_cons_le (stretch_lit_le text cur) fun next _ _ => ?_
  refine stretch_sequence_cons_le ?_ fun last _ _ => ?_
  · rw [stretch_notAhead]
    exact Nat.zero_le _
  · rw [stretch_sequence_nil]
    exact Nat.zero_le _

/-- A rule with a keyword in front stretches no further than where it stands if another word stands there. -/
theorem stretch_headed_le {word : String} {offset : Nat} {text : List Char} (h : (keyword word).Misses table depth text)
    (rules : List Rule) :
    (Rule.sequence (keyword word :: rules)).stretch table depth ⟨offset, text⟩ ≤ offset := by
  refine stretch_sequence_cons_le (stretch_keyword_le word _) fun next a ho => ?_
  rw [h offset] at ho
  cases ho

/-- The cursor stands in a line that ends at the byte `n`. -/
def Cursor.LineEndsAt (cur : Cursor) (n : Nat) : Prop :=
  ∃ line later, cur.rest = line ++ '\n' :: later ∧ cur.offset + Chars.byteSize line = n

theorem Cursor.LineEndsAt.offset_le (h : cur.LineEndsAt n) : cur.offset ≤ n := by
  obtain ⟨line, later, -, rfl⟩ := h
  exact Nat.le_add_right _ _

/-- The line of what follows a text is that of the text, if it is taken along from its start. -/
theorem Cursor.LineEndsAt.append {offset : Nat} {text rest : List Char}
    (h : (⟨offset + Chars.byteSize text, rest⟩ : Cursor).LineEndsAt n) :
    (⟨offset, text ++ rest⟩ : Cursor).LineEndsAt n := by
  obtain ⟨line, later, rfl, rfl⟩ := h
  exact ⟨text ++ line, later, (List.append_assoc ..).symm, by rw [Chars.byteSize_append, Nat.add_assoc]⟩

/-- A line goes on to the same end behind what stands in it. -/
theorem Cursor.LineEndsAt.of_inLine (h : cur.LineEndsAt n) (hs : cur.InLine next) : next.LineEndsAt n := by
  obtain ⟨line, later, hrest, rfl⟩ := h
  obtain ⟨text, hs, hfeed⟩ := hs
  have e := hs.rest.symm.trans hrest
  obtain ⟨more, rfl, h⟩ | ⟨more, rfl, h⟩ := List.append_eq_append_iff.1 e
  · refine ⟨more, later, h, ?_⟩
    rw [hs.offset, Chars.byteSize_append, Nat.add_assoc]
  · cases more with
    | nil =>
      rw [List.append_nil] at hs
      exact ⟨[], later, h.symm, by rw [hs.offset]; rfl⟩
    | cons c more =>
      obtain rfl : '\n' = c := (List.cons.inj h).1
      exact absurd (List.mem_append_right _ List.mem_cons_self) hfeed

/-- A line-wise rule expects nothing behind the end of its line. -/
theorem stretch_le_line (hr : r.isLineWise = true) (h : cur.LineEndsAt n) : r.stretch table depth cur ≤ n := by
  induction r using Rule.ind generalizing cur with
  | literal text anyCase =>
    rw [stretch_literal]
    split
    · exact Nat.zero_le n
    · exact h.offset_le
  | chars set =>
    rw [stretch_chars]
    split
    · exact Nat.zero_le n
    · exact h.offset_le
  | sequence rules ih =>
    rw [Rule.isLineWise] at hr
    induction rules generalizing cur with
    | nil =>
      rw [stretch_sequence_nil]
      exact Nat.zero_le n
    | cons r rules ihs =>
      rw [Rule.isLineWiseInTurn, Bool.and_eq_true, Bool.or_eq_true, Bool.and_eq_true] at hr
      refine stretch_sequence_cons_le (ih r List.mem_cons_self hr.1 h) fun next a ho => ?_
      obtain hnil | ⟨hstays, hrules⟩ := hr.2
      · rw [List.isEmpty_iff.1 hnil, stretch_sequence_nil]
        exact Nat.zero_le n
      · exact ihs (fun r' h' => ih r' (List.mem_cons_of_mem _ h')) hrules
          (h.of_inLine (inLine_of_staysInLine hstays _ _ _ ho))
  | choice rules ih =>
    rw [Rule.isLineWise] at hr
    induction rules with
    | nil =>
      rw [stretch_choice_nil]
      exact Nat.zero_le n
    | cons r rules ihs =>
      rw [Rule.allLineWise, Bool.and_eq_true] at hr
      exact stretch_choice_cons_le (ih r List.mem_cons_self hr.1 h)
        (ihs (fun r' h' => ih r' (List.mem_cons_of_mem _ h')) hr.2)
  | repeated r least most ih =>
    rw [Rule.isLineWise, Bool.and_eq_true] at hr
    -- the rounds after one that moves on stand in the same line and have fewer characters left
    induction hn : cur.rest.length using Nat.strongRecOn generalizing cur least most with
    | ind _ rounds =>
      rw [stretch_repeated, stretchRounds]
      split
      · exact Nat.zero_le n
      · refine Nat.max_le.2 ⟨ih hr.2 h, ?_⟩
        cases ho : r.outcome table depth cur with
        | none => exact Nat.zero_le n
        | some found =>
          rw [Option.elim_some]
          split
          · exact Nat.zero_le n
          · rename_i hne
            have shorter := (outcome_reaches ho).length_lt hne
            exact rounds _ (hn ▸ shorter) (least - 1) _
              (h.of_inLine (inLine_of_staysInLine hr.1 _ _ _ ho)) rfl
  | optional r ih =>
    rw [stretch_optional]
    exact ih hr h
  | notAhead r ih =>
    rw [stretch_notAhead]
    exact Nat.zero_le n
  | capture field r ih =>
    rw [stretch_capture]
    exact ih hr h
  | labelled label r ih => exact stretch_labelled_le (ih hr h) h.offset_le label
  | quiet r ih =>
    rw [stretch_quiet]
    exact Nat.zero_le n
  | ref name => cases hr

/-- Lines without a statement are not reported. -/
theorem stretch_preamble (h : blankLine.outcome table depth cur = none) :
    preamble.stretch table depth cur = 0 := by
  rw [preamble, many, stretch_repeated, h, blankLine, stretch_quiet]
  rfl

/-! ## Runs that are stuck -/

theorem outcome_endOfInput (h : cur.rest ≠ []) : endOfInput.outcome table depth cur = none := by
  rw [Option.eq_none_iff_forall_ne_some]
  rintro ⟨last, a⟩ hm
  exact h (endOfInput_rest hm).2.2

/-- In front of more text the end of the input is missed, which says nothing if something was missed further on. -/
theorem endOfInput_run (h : cur.rest ≠ []) {f : Frontier} (hf : cur.offset < f.offset) :
    endOfInput.matchWith (Rule.callWithin table depth) false cur f = (none, f) := by
  obtain ⟨offset, rest⟩ := cur
  obtain ⟨c, cs, rfl⟩ := List.exists_cons_of_ne_nil h
  have more : anyChar.matchWith (Rule.callWithin table depth) true ⟨offset, c :: cs⟩ f =
      (some (⟨offset + c.utf8Size, cs⟩, .empty), f) := by
    rw [anyChar, Rule.matchWith]
    rfl
  rw [endOfInput, Rule.matchWith, Rule.matchWith, more]
  exact if_pos (by simpa using hf)

/-- The rule ends at `ending` from `cur` on, and its runs come upon something missing at `offset`: there they expect
`description` alone, wherever they were stuck before that. -/
structure Sticks (table : List (String × Rule)) (depth : Nat) (r : Rule) (cur : Cursor) (ending : Option Cursor)
    (offset : Nat) (description : String) : Prop where
  ends : r.ending? table depth cur = ending
  stuck : ∀ f : Frontier, f.offset < offset →
    (r.matchWithin table depth false cur f).2.failure = ⟨offset, [description]⟩

namespace Sticks

variable {ending : Option Cursor} {offset : Nat} {description : String} {f : Frontier}

theorem run (h : Sticks table depth r cur ending offset description) (hf : f.offset < offset) :
    ∃ f', r.matchWith (Rule.callWithin table depth) false cur f = (r.outcome table depth cur, f') ∧
      f'.failure = ⟨offset, [description]⟩ :=
  ⟨(r.matchWithin table depth false cur f).2, Prod.ext (matchWith_fst r false cur f) rfl, h.stuck f hf⟩

/-- A run that does not stretch so far leaves the frontier short of the offset. -/
theorem before (hs : r.stretch table depth cur < offset) (hf : f.offset < offset) :
    ∃ f', r.matchWith (Rule.callWithin table depth) false cur f = (r.outcome table depth cur, f') ∧
      f'.offset < offset := by
  obtain ⟨f', hrun, hf'⟩ := (stretches r cur).run false f
  exact ⟨f', hrun, hf'.trans_lt (Nat.max_lt.2 ⟨hf, hs⟩)⟩

/-- Alike rules stick at the same place. -/
theorem of_alike {r' : Rule} (h : Sticks table depth r cur ending offset description) (e : Alike r r') :
    Sticks table depth r' cur ending offset description := by
  have same : r'.matchWithin table depth = r.matchWithin table depth := (e _).symm
  exact ⟨by rw [Rule.ending?, Rule.outcome, same]; exact h.ends, fun f hf => by rw [same]; exact h.stuck f hf⟩

theorem outcome_eq_none (h : Sticks table depth r cur none offset description) :
    r.outcome table depth cur = none :=
  Option.map_eq_none_iff.1 h.ends

/-- A label is expected where its rule is, if that gets no further. -/
theorem labelled_here (hnone : r.outcome table depth cur = none) (hs : r.stretch table depth cur ≤ cur.offset)
    (label : String) : Sticks table depth (.labelled label r) cur none cur.offset label where
  ends := by rw [Rule.ending?, outcome_labelled, hnone, Option.map_none]
  stuck f hf := by
    obtain ⟨f', hrun, hf'⟩ := (stretches r cur).run false f
    have stays : ¬ cur.offset < f'.offset := by
      rw [hf']
      exact Nat.not_lt.2 (Nat.max_le.2 ⟨Nat.le_of_lt hf, hs⟩)
    rw [Rule.matchWithin, Rule.matchWith, hrun, hnone]
    simp only [Bool.false_or, decide_eq_true_eq, if_neg stays, Frontier.add_of_gt hf]
    rfl

/-- A label says nothing of what is missing further on. -/
theorem labelled (h : Sticks table depth r cur ending offset description) (hcur : cur.offset < offset)
    (label : String) : Sticks table depth (.labelled label r) cur ending offset description where
  ends := by rw [Rule.ending?, outcome_labelled]; exact h.ends
  stuck f hf := by
    obtain ⟨f', hrun, hf'⟩ := h.run hf
    have there : f'.offset = offset := congrArg Failure.offset hf'
    have beyond : cur.offset < f'.offset := there ▸ hcur
    rw [Rule.matchWithin, Rule.matchWith, hrun]
    cases r.outcome table depth cur with
    | some found => exact hf'
    | none =>
      simp only [Bool.false_or, decide_eq_true_eq, if_pos beyond]
      exact hf'

theorem capture (h : Sticks table depth r cur ending offset description) (field : String) :
    Sticks table depth (.capture field r) cur ending offset description where
  ends := by
    rw [Rule.ending?, outcome_capture, Option.map_map]
    exact h.ends
  stuck f hf := by
    obtain ⟨f', hrun, hf'⟩ := h.run hf
    rw [Rule.matchWithin, Rule.matchWith, hrun]
    cases r.outcome table depth cur <;> exact hf'

theorem ref {name : String} (hl : table.lookup name = some r)
    (h : Sticks table depth r cur ending offset description) :
    Sticks table (depth + 1) (.ref name) cur ending offset description where
  ends := by
    rw [Rule.ending?, outcome_ref, hl, Option.bind_some]
    exact h.ends
  stuck f hf := by
    rw [Rule.matchWithin, Rule.matchWith, Rule.callWithin, hl]
    exact h.stuck f hf

/-! ### Sequences -/

theorem sequence_cons (h : r.ending? table depth cur = some next) (hs : r.stretch table depth cur < offset)
    (hrest : Sticks table depth (.sequence rules) next ending offset description) :
    Sticks table depth (.sequence (r :: rules)) cur ending offset description := by
  obtain ⟨⟨_, a⟩, ho, rfl⟩ := Option.map_eq_some_iff.1 h
  refine ⟨?_, fun f hf => ?_⟩
  · rw [Rule.ending?, outcome_sequence_cons, ho, Option.bind_some, Option.map_map]
    exact hrest.ends
  · obtain ⟨f', hrun, hf'⟩ := before hs hf
    have hstuck := hrest.stuck f' hf'
    rw [Rule.matchWithin, Rule.matchWith, matchAll_snd _ _ _ (Fragment.empty.append a)] at hstuck
    rw [Rule.matchWithin, Rule.matchWith, Rule.matchAll, hrun, ho]
    exact hstuck

/-- The first rule of a sequence takes what stands in front of the place. -/
theorem sequence_takes {text rest : List Char} {start : Nat} {leaves : Nat → Fragment}
    (h : r.Takes table depth text rest leaves) (hs : r.stretch table depth ⟨start, text ++ rest⟩ < offset)
    (hrest : Sticks table depth (.sequence rules) ⟨start + Chars.byteSize text, rest⟩ ending offset description) :
    Sticks table depth (.sequence (r :: rules)) ⟨start, text ++ rest⟩ ending offset description := by
  refine sequence_cons ?_ hs hrest
  rw [Rule.ending?, h start, Option.map_some]

/-- A sequence is stuck where a member fails. -/
theorem sequence_fail (h : Sticks table depth r cur none offset description) (rules : List Rule) :
    Sticks table depth (.sequence (r :: rules)) cur none offset description where
  ends := by rw [Rule.ending?, outcome_sequence_cons, h.outcome_eq_none, Option.bind_none, Option.map_none]
  stuck f hf := by
    obtain ⟨f', hrun, hf'⟩ := h.run hf
    rw [Rule.matchWithin, Rule.matchWith, Rule.matchAll, hrun, h.outcome_eq_none]
    exact hf'

/-- The end of the input is missed in vain where a rule ends that was stuck further on. -/
theorem sequence_end (h : Sticks table depth r cur (some next) offset description) (hnext : next.offset < offset)
    (hrest : next.rest ≠ []) :
    Sticks table depth (.sequence [r, endOfInput]) cur none offset description := by
  obtain ⟨⟨mid, a⟩, ho, rfl⟩ := Option.map_eq_some_iff.1 h.ends
  refine ⟨?_, fun f hf => ?_⟩
  · rw [Rule.ending?, outcome_sequence_cons, ho, Option.bind_some, Option.map_map, outcome_sequence_cons,
      outcome_endOfInput hrest]
    rfl
  · obtain ⟨f', hrun, hf'⟩ := h.run hf
    have there : f'.offset = offset := congrArg Failure.offset hf'
    rw [Rule.matchWithin, Rule.matchWith, Rule.matchAll, hrun, ho]
    show (Rule.matchAll _ [endOfInput] false _ mid f').2.failure = _
    rw [Rule.matchAll, endOfInput_run hrest (there ▸ hnext)]
    exact hf'

/-! ### Choices and rounds -/

theorem choice_cons (hnone : r.outcome table depth cur = none) (hs : r.stretch table depth cur < offset)
    (hrest : Sticks table depth (.choice rules) cur ending offset description) :
    Sticks table depth (.choice (r :: rules)) cur ending offset description where
  ends := by
    rw [Rule.ending?, outcome_choice_cons, hnone, Option.none_or]
    exact hrest.ends
  stuck f hf := by
    obtain ⟨f', hrun, hf'⟩ := before hs hf
    rw [Rule.matchWithin, Rule.matchWith, Rule.matchAny, hrun, hnone]
    have hstuck := hrest.stuck f' hf'
    rwa [Rule.matchWithin, Rule.matchWith] at hstuck

theorem choice_last (h : Sticks table depth r cur none offset description) :
    Sticks table depth (.choice [r]) cur none offset description where
  ends := by
    rw [Rule.ending?, outcome_choice_cons, h.outcome_eq_none, Option.none_or, outcome_choice_nil, Option.map_none]
  stuck f hf := by
    obtain ⟨f', hrun, hf'⟩ := h.run hf
    rw [Rule.matchWithin, Rule.matchWith, Rule.matchAny, hrun, h.outcome_eq_none]
    exact hf'

/-- A repetition ends with a round that fails, and has the report of that. -/
theorem many_stop (h : Sticks table depth r cur none offset description) :
    Sticks table depth (many r) cur (some cur) offset description where
  ends := by rw [Rule.ending?, outcome_many_of_none h.outcome_eq_none, Option.map_some]
  stuck f hf := by
    obtain ⟨f', hrun, hf'⟩ := h.run hf
    rw [many, Rule.matchWithin, matchWith_repeated (matchWithin_reaches table depth r), hrun, h.outcome_eq_none]
    exact hf'

theorem many_round (h : r.ending? table depth cur = some next) (hs : r.stretch table depth cur < offset)
    (hne : next ≠ cur) (hrest : Sticks table depth (many r) next ending offset description) :
    Sticks table depth (many r) cur ending offset description := by
  obtain ⟨⟨_, a⟩, ho, rfl⟩ := Option.map_eq_some_iff.1 h
  refine ⟨?_, fun f hf => ?_⟩
  · rw [Rule.ending?, many, outcome_repeated, if_neg (by simp), ho]
    simp only [if_neg hne, Option.map_map]
    exact hrest.ends
  · obtain ⟨f', hrun, hf'⟩ := before hs hf
    rw [many, Rule.matchWithin, matchWith_repeated (matchWithin_reaches table depth r), hrun, ho]
    simp only [reduceCtorEq, ↓reduceIte, if_neg hne]
    exact hrest.stuck f' hf'

/-! ### Parses -/

/-- A parse whose root is stuck fails, with what is missing there. -/
theorem parse_eq_error {g : Grammar} {input : String}
    (h : Sticks g.rules depth g.root (.start input) none offset description) (hpos : 0 < offset) :
    g.parse depth input = .error ⟨offset, [description]⟩ := by
  obtain ⟨f', hrun, hf'⟩ := h.run (f := {}) hpos
  rw [Grammar.parse, Grammar.parseWithin, Rule.matchWithin, hrun, h.outcome_eq_none]
  exact congrArg Except.error hf'

end Sticks

end DiagramText.Peg
