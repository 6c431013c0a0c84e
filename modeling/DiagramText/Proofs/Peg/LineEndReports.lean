import DiagramText.Proofs.Peg.LineEnds
import DiagramText.Proofs.Peg.Loud

/-!
# Reports with either line end

A line end is looked for with a carriage return first. So a run over a text without carriage returns
expects them in vain at every line end, and with a carriage return before every line feed it does not: the
two runs need not stretch to the same place. They do where they fail (`Echoes.failed`), because what expects
a line end in vain is followed by a rule that is loud, or has expected something behind it. As long as they
match, both stop short of where they match to, or stretch to the same place (`Echoes.matched`).

`Rule.failsAlike` decides that a rule is one of these; `parse_withReturns_error` says of a grammar of such rules
that a parse fails at the same place with either line end.
-/

namespace DiagramText.Peg

/-! ## Places that are nearly the same -/

/-- With carriage returns a run stretches to the image of where it stretches without, or both stop short of
a bound. -/
def Near (source : String) (bound s s' : Nat) : Prop :=
  s' = offsetWithReturns source s ∨ s < bound ∧ s' < offsetWithReturns source bound

namespace Near

variable {source : String} {bound s s' t t' : Nat}

theorem mono {other : Nat} (h : Near source bound s s') (hle : bound ≤ other) : Near source other s s' :=
  h.imp_right fun ⟨hs, hs'⟩ =>
    ⟨Nat.lt_of_lt_of_le hs hle, Nat.lt_of_lt_of_le hs' (offsetWithReturns_le_iff.2 hle)⟩

theorem max_max (h : Near source bound s s') (h' : Near source bound t t') :
    Near source bound (max s t) (max s' t') := by
  have mixed {s t t' : Nat} (ht : t < bound) (ht' : t' < offsetWithReturns source bound) :
      Near source bound (max s t) (max (offsetWithReturns source s) t') := by
    by_cases hs : s < bound
    · exact .inr ⟨Nat.max_lt.2 ⟨hs, ht⟩, Nat.max_lt.2 ⟨offsetWithReturns_lt hs, ht'⟩⟩
    · have hle : offsetWithReturns source bound ≤ offsetWithReturns source s :=
        offsetWithReturns_le_iff.2 (Nat.not_lt.1 hs)
      have hst : max s t = s := Nat.max_eq_left (by omega)
      have hst' : max (offsetWithReturns source s) t' = offsetWithReturns source s :=
        Nat.max_eq_left (by omega)
      exact .inl (by rw [hst, hst'])
  rcases h with rfl | ⟨hs, hs'⟩ <;> rcases h' with rfl | ⟨ht, ht'⟩
  · exact .inl (offsetWithReturns_max s t).symm
  · exact mixed ht ht'
  · rw [Nat.max_comm s, Nat.max_comm s']
    exact mixed hs hs'
  · exact .inr ⟨Nat.max_lt.2 ⟨hs, ht⟩, Nat.max_lt.2 ⟨hs', ht'⟩⟩

/-- Where a run stops short of makes no difference to the bound. -/
theorem max_eq (h : Near source bound s s') :
    max s' (offsetWithReturns source bound) =
      max (offsetWithReturns source s) (offsetWithReturns source bound) := by
  rcases h with rfl | ⟨hs, hs'⟩
  · rfl
  · rw [Nat.max_eq_right (Nat.le_of_lt hs'), Nat.max_eq_right (Nat.le_of_lt (offsetWithReturns_lt hs))]

end Near

/-! ## Rules that fail alike -/

namespace Rule

mutual

/-- Whether the rule always stretches to the same place with a carriage return before every line feed. -/
def stretchesAlike : Rule → Bool
  | literal _ _ | chars _ | notAhead _ | quiet _ => true
  | sequence rules | choice rules => allStretchAlike rules
  | repeated r _ _ => r.matchesAlike && r.stretchesAlike
  | optional r | capture _ r => r.stretchesAlike
  | labelled _ r => r.matchesAlike && r.stretchesAlike
  | ref _ => false

/-- Whether each of the rules always stretches to the same place. -/
def allStretchAlike : List Rule → Bool
  | [] => true
  | r :: rules => r.stretchesAlike && allStretchAlike rules

end

mutual

/-- Whether the rule stretches to the same place with a carriage return before every line feed, where it
fails. -/
def failsAlike (table : List (String × Rule)) : Rule → Bool
  | literal _ _ | chars _ | notAhead _ | quiet _ | ref _ => true
  | sequence rules => sequenceFailsAlike table rules
  | choice rules => choiceFailsAlike table rules
  | repeated r least _ => decide (least ≤ 1) && r.matchesAlike && r.failsAlike table
  | optional r | capture _ r => r.failsAlike table
  | labelled _ r => r.isLineEnd || (r.matchesAlike && r.failsAlike table)

/-- Whether the sequence of the rules stretches to the same place where it fails. -/
def sequenceFailsAlike (table : List (String × Rule)) : List Rule → Bool
  | [] => true
  | r :: rules =>
    r.failsAlike table && sequenceFailsAlike table rules &&
      (r.stretchesAlike || r.settles table || allLoud table rules)

/-- Whether the choice of the rules stretches to the same place where it fails. -/
def choiceFailsAlike (table : List (String × Rule)) : List Rule → Bool
  | [] => true
  | r :: rules => r.failsAlike table && choiceFailsAlike table rules

end

end Rule

variable {source : String} {table : List (String × Rule)} {depth : Nat} {r : Rule} {rules : List Rule}
  {cur next : Cursor} {a : Fragment}

/-- How runs of a rule with a carriage return before every line feed stretch. -/
structure Echoes (source : String) (table : List (String × Rule)) (depth : Nat) (r : Rule) : Prop where
  always : r.stretchesAlike = true → ∀ cur, (Cursor.start source).Reaches cur →
    r.stretch table depth (cur.withReturns source) = offsetWithReturns source (r.stretch table depth cur)
  failed : r.failsAlike table = true → ∀ cur, (Cursor.start source).Reaches cur →
    r.outcome table depth cur = none →
      r.stretch table depth (cur.withReturns source) = offsetWithReturns source (r.stretch table depth cur)
  matched : r.failsAlike table = true → ∀ cur next a, (Cursor.start source).Reaches cur →
    r.outcome table depth cur = some (next, a) →
      Near source next.offset (r.stretch table depth cur) (r.stretch table depth (cur.withReturns source))

namespace Echoes

/-- What always stretches to the same place does so where it matches and where it fails. -/
theorem of_always (h : ∀ cur, (Cursor.start source).Reaches cur →
    r.stretch table depth (cur.withReturns source) = offsetWithReturns source (r.stretch table depth cur)) :
    Echoes source table depth r :=
  ⟨fun _ => h, fun _ cur hcur _ => h cur hcur, fun _ cur _ _ hcur _ => .inl (h cur hcur)⟩

theorem literal {text : String} {anyCase : Bool} (h : (Rule.literal text anyCase).matchesAlike = true) :
    Echoes source table depth (.literal text anyCase) := by
  refine of_always fun cur hcur => ?_
  have htext : ∀ c ∈ text.toList, c ≠ '\r' ∧ c ≠ '\n' := by simpa [Rule.matchesAlike, isInLine] using h
  rw [stretch_literal, stretch_literal, skip?_withReturns htext anyCase hcur, Option.isSome_map]
  split
  · exact (offsetWithReturns_zero source).symm
  · rfl

theorem chars {set : CharClass} (h : (Rule.chars set).matchesAlike = true) :
    Echoes source table depth (.chars set) := by
  refine of_always fun cur hcur => ?_
  obtain ⟨hreturn, hfeed⟩ : set.contains '\r' = false ∧ set.contains '\n' = false := by
    simpa [Rule.matchesAlike] using h
  rw [stretch_chars, stretch_chars, next?_withReturns hreturn hfeed hcur, Option.isSome_map]
  split
  · exact (offsetWithReturns_zero source).symm
  · rfl

/-! ### Sequences and choices -/

theorem stretch_sequence_withReturns (hc : (addReturns source).Carries table depth r)
    (hcur : (Cursor.start source).Reaches cur) :
    (Rule.sequence (r :: rules)).stretch table depth (cur.withReturns source) =
      max (r.stretch table depth (cur.withReturns source))
        ((r.outcome table depth cur).elim 0 fun found =>
          (Rule.sequence rules).stretch table depth (found.1.withReturns source)) := by
  rw [stretch_sequence_cons, hc.outcome_withReturns hcur]
  cases r.outcome table depth cur <;> rfl

theorem stretch_choice_withReturns (hc : (addReturns source).Carries table depth r)
    (hcur : (Cursor.start source).Reaches cur) :
    (Rule.choice (r :: rules)).stretch table depth (cur.withReturns source) =
      max (r.stretch table depth (cur.withReturns source))
        (if (r.outcome table depth cur).isSome then 0
          else (Rule.choice rules).stretch table depth (cur.withReturns source)) := by
  rw [stretch_choice_cons, hc.outcome_withReturns hcur,
    Option.isSome_map]

section

variable (hc : ∀ r ∈ rules, (addReturns source).Carries table depth r)
  (h : ∀ r ∈ rules, Echoes source table depth r)

include hc h

theorem sequence_always (hall : Rule.allStretchAlike rules = true)
    (hcur : (Cursor.start source).Reaches cur) :
    (Rule.sequence rules).stretch table depth (cur.withReturns source) =
      offsetWithReturns source ((Rule.sequence rules).stretch table depth cur) := by
  induction rules generalizing cur with
  | nil => rw [stretch_sequence_nil, stretch_sequence_nil, offsetWithReturns_zero]
  | cons r rules ih =>
    rw [Rule.allStretchAlike, Bool.and_eq_true] at hall
    rw [stretch_sequence_withReturns (hc r List.mem_cons_self) hcur, stretch_sequence_cons,
      (h r List.mem_cons_self).always hall.1 cur hcur, offsetWithReturns_max]
    cases hr : r.outcome table depth cur with
    | none => rw [Option.elim_none, Option.elim_none, offsetWithReturns_zero]
    | some found =>
      rw [Option.elim_some, Option.elim_some, ih (fun r' h' => hc r' (List.mem_cons_of_mem _ h'))
        (fun r' h' => h r' (List.mem_cons_of_mem _ h')) hall.2 (hcur.trans (outcome_reaches hr))]

/-- What the first rule expects in vain before the others fail counts for nothing, or it is expected at the
same place. -/
theorem sequence_failed (hreports : ∀ r, Reports table depth r)
    (hfails : Rule.sequenceFailsAlike table rules = true) (hcur : (Cursor.start source).Reaches cur)
    (hm : (Rule.sequence rules).outcome table depth cur = none) :
    (Rule.sequence rules).stretch table depth (cur.withReturns source) =
      offsetWithReturns source ((Rule.sequence rules).stretch table depth cur) := by
  induction rules generalizing cur with
  | nil =>
    rw [outcome_sequence_nil] at hm
    cases hm
  | cons r rules ih =>
    simp only [Rule.sequenceFailsAlike, Bool.and_eq_true, Bool.or_eq_true] at hfails
    obtain ⟨⟨hfirst, hrest⟩, hcover⟩ := hfails
    have hr := h r List.mem_cons_self
    rw [stretch_sequence_withReturns (hc r List.mem_cons_self) hcur, stretch_sequence_cons,
      offsetWithReturns_max]
    cases hs : r.outcome table depth cur with
    | none => rw [hr.failed hfirst cur hcur hs, Option.elim_none, Option.elim_none, offsetWithReturns_zero]
    | some found =>
      obtain ⟨mid, a⟩ := found
      have hnone : (Rule.sequence rules).outcome table depth mid = none := by
        rw [outcome_sequence_cons, hs, Option.bind_some, Option.map_eq_none_iff] at hm
        exact hm
      have hih := ih (fun r' h' => hc r' (List.mem_cons_of_mem _ h'))
        (fun r' h' => h r' (List.mem_cons_of_mem _ h')) hrest (hcur.trans (outcome_reaches hs)) hnone
      simp only [Option.elim_some, hih]
      rcases hr.matched hfirst cur mid a hcur hs with hsame | ⟨hshort, hshort'⟩
      · rw [hsame]
      · rcases hcover with (halways | hsettles) | hloud
        · rw [hr.always halways cur hcur]
        · exact absurd ((hreports r).settles hsettles cur mid a hs) (Nat.not_le.2 hshort)
        · -- both runs of the first rule stop short of where the others fail
          have hle := Reports.sequence_loud (fun r' _ => hreports r') hloud hnone
          have hle' := (@offsetWithReturns_le_iff source _ _).2 hle
          have hlt := @offsetWithReturns_lt source _ _ hshort
          rw [Nat.max_eq_right (by omega), Nat.max_eq_right (by omega)]

theorem sequence_matched (hfails : Rule.sequenceFailsAlike table rules = true)
    (hcur : (Cursor.start source).Reaches cur)
    (hm : (Rule.sequence rules).outcome table depth cur = some (next, a)) :
    Near source next.offset ((Rule.sequence rules).stretch table depth cur)
      ((Rule.sequence rules).stretch table depth (cur.withReturns source)) := by
  induction rules generalizing cur a with
  | nil =>
    rw [stretch_sequence_nil, stretch_sequence_nil]
    exact .inl (offsetWithReturns_zero source).symm
  | cons r rules ih =>
    simp only [Rule.sequenceFailsAlike, Bool.and_eq_true] at hfails
    obtain ⟨mid, b, c, hb, hrest, -⟩ := sequence_cons_eq_some.1 hm
    have hfirst := (h r List.mem_cons_self).matched hfails.1.1 cur mid b hcur hb
    have hih := ih (fun r' h' => hc r' (List.mem_cons_of_mem _ h'))
      (fun r' h' => h r' (List.mem_cons_of_mem _ h')) hfails.1.2 (hcur.trans (outcome_reaches hb)) hrest
    rw [stretch_sequence_withReturns (hc r List.mem_cons_self) hcur, stretch_sequence_cons, hb,
      Option.elim_some, Option.elim_some]
    exact (hfirst.mono (outcome_reaches hrest).offset_le).max_max hih

theorem choice_always (hall : Rule.allStretchAlike rules = true) (hcur : (Cursor.start source).Reaches cur) :
    (Rule.choice rules).stretch table depth (cur.withReturns source) =
      offsetWithReturns source ((Rule.choice rules).stretch table depth cur) := by
  induction rules with
  | nil => rw [stretch_choice_nil, stretch_choice_nil, offsetWithReturns_zero]
  | cons r rules ih =>
    rw [Rule.allStretchAlike, Bool.and_eq_true] at hall
    rw [stretch_choice_withReturns (hc r List.mem_cons_self) hcur, stretch_choice_cons,
      (h r List.mem_cons_self).always hall.1 cur hcur, offsetWithReturns_max]
    split
    · rw [offsetWithReturns_zero]
    · rw [ih (fun r' h' => hc r' (List.mem_cons_of_mem _ h'))
        (fun r' h' => h r' (List.mem_cons_of_mem _ h')) hall.2]

theorem choice_failed (hfails : Rule.choiceFailsAlike table rules = true)
    (hcur : (Cursor.start source).Reaches cur)
    (hm : (Rule.choice rules).outcome table depth cur = none) :
    (Rule.choice rules).stretch table depth (cur.withReturns source) =
      offsetWithReturns source ((Rule.choice rules).stretch table depth cur) := by
  induction rules with
  | nil => rw [stretch_choice_nil, stretch_choice_nil, offsetWithReturns_zero]
  | cons r rules ih =>
    rw [Rule.choiceFailsAlike, Bool.and_eq_true] at hfails
    rw [outcome_choice_cons, Option.or_eq_none_iff] at hm
    rw [stretch_choice_withReturns (hc r List.mem_cons_self) hcur, stretch_choice_cons, hm.1,
      (h r List.mem_cons_self).failed hfails.1 cur hcur hm.1, offsetWithReturns_max,
      ih (fun r' h' => hc r' (List.mem_cons_of_mem _ h'))
        (fun r' h' => h r' (List.mem_cons_of_mem _ h')) hfails.2 hm.2]
    rfl

theorem choice_matched (hfails : Rule.choiceFailsAlike table rules = true)
    (hcur : (Cursor.start source).Reaches cur)
    (hm : (Rule.choice rules).outcome table depth cur = some (next, a)) :
    Near source next.offset ((Rule.choice rules).stretch table depth cur)
      ((Rule.choice rules).stretch table depth (cur.withReturns source)) := by
  induction rules with
  | nil =>
    rw [outcome_choice_nil] at hm
    cases hm
  | cons r rules ih =>
    rw [Rule.choiceFailsAlike, Bool.and_eq_true] at hfails
    rw [outcome_choice_cons, Option.or_eq_some_iff] at hm
    have hr := h r List.mem_cons_self
    rw [stretch_choice_withReturns (hc r List.mem_cons_self) hcur, stretch_choice_cons]
    rcases hm with hm | ⟨hnone, hm⟩
    · rw [hm, Option.isSome_some, if_pos rfl, if_pos rfl, Nat.max_zero, Nat.max_zero]
      exact hr.matched hfails.1 cur next a hcur hm
    · rw [hnone]
      have hfirst : Near source next.offset _ _ := .inl (hr.failed hfails.1 cur hcur hnone)
      exact hfirst.max_max (ih (fun r' h' => hc r' (List.mem_cons_of_mem _ h'))
        (fun r' h' => h r' (List.mem_cons_of_mem _ h')) hfails.2 hm)

end

/-! ### Repetitions -/

theorem stretch_repeated_withReturns (hc : (addReturns source).Carries table depth r)
    (hcur : (Cursor.start source).Reaches cur) (least : Nat) (most : Option Nat) :
    (Rule.repeated r least most).stretch table depth (cur.withReturns source) =
      stretchRounds most (r.outcome table depth cur) cur (r.stretch table depth (cur.withReturns source))
        fun next =>
          (Rule.repeated r (least - 1) (most.map (· - 1))).stretch table depth (next.withReturns source) := by
  rw [stretch_repeated, hc.outcome_withReturns hcur]
  unfold stretchRounds
  cases hs : r.outcome table depth cur with
  | none => rfl
  | some found =>
    obtain ⟨next, a⟩ := found
    have hinj : next.withReturns source = cur.withReturns source ↔ next = cur :=
      ⟨(addReturns source).cursor_inj hcur (outcome_reaches hs), fun e => e ▸ rfl⟩
    simp only [Option.map_some, Option.elim_some, Transport.result, addReturns, hinj]

section

variable (hc : (addReturns source).Carries table depth r) (h : Echoes source table depth r)

include hc h

theorem repeated_always (halways : r.stretchesAlike = true) (least : Nat) (most : Option Nat)
    (hcur : (Cursor.start source).Reaches cur) :
    (Rule.repeated r least most).stretch table depth (cur.withReturns source) =
      offsetWithReturns source ((Rule.repeated r least most).stretch table depth cur) := by
  induction hn : cur.rest.length using Nat.strongRecOn generalizing cur least most with
  | ind n ih =>
    rw [stretch_repeated_withReturns hc hcur, stretch_repeated, stretchRounds, stretchRounds,
      h.always halways cur hcur]
    by_cases hmost : most = some 0
    · rw [if_pos hmost, if_pos hmost, offsetWithReturns_zero]
    · rw [if_neg hmost, if_neg hmost, offsetWithReturns_max]
      cases hs : r.outcome table depth cur with
      | none => rw [Option.elim_none, Option.elim_none, offsetWithReturns_zero]
      | some found =>
        obtain ⟨next, a⟩ := found
        simp only [Option.elim_some]
        by_cases hne : next = cur
        · rw [if_pos hne, if_pos hne, offsetWithReturns_zero]
        · have hreach := outcome_reaches hs
          rw [if_neg hne, if_neg hne,
            ih next.rest.length (hn ▸ hreach.length_lt hne) (least - 1) (most.map (· - 1))
              (hcur.trans hreach) rfl]

/-- A repetition fails in its first round. -/
theorem repeated_failed (hfails : r.failsAlike table = true) {least : Nat} (hleast : least ≤ 1)
    {most : Option Nat} (hcur : (Cursor.start source).Reaches cur)
    (hm : (Rule.repeated r least most).outcome table depth cur = none) :
    (Rule.repeated r least most).stretch table depth (cur.withReturns source) =
      offsetWithReturns source ((Rule.repeated r least most).stretch table depth cur) := by
  rw [stretch_repeated_withReturns hc hcur, stretch_repeated, stretchRounds, stretchRounds]
  rw [outcome_repeated] at hm
  by_cases hmost : most = some 0
  · rw [if_pos hmost, if_pos hmost, offsetWithReturns_zero]
  · rw [if_neg hmost] at hm
    rw [if_neg hmost, if_neg hmost, offsetWithReturns_max]
    cases hs : r.outcome table depth cur with
    | none => rw [h.failed hfails cur hcur hs, Option.elim_none, Option.elim_none, offsetWithReturns_zero]
    | some found =>
      obtain ⟨next, a⟩ := found
      have hzero : least - 1 = 0 := by omega
      by_cases hne : next = cur
      · simp [hs, hne, hleast] at hm
      · simp [hs, hne, hzero, repeated_zero_ne_none] at hm

theorem repeated_matched (hfails : r.failsAlike table = true) {least : Nat} {most : Option Nat}
    (hcur : (Cursor.start source).Reaches cur)
    (hm : (Rule.repeated r least most).outcome table depth cur = some (next, a)) :
    Near source next.offset ((Rule.repeated r least most).stretch table depth cur)
      ((Rule.repeated r least most).stretch table depth (cur.withReturns source)) := by
  induction hn : cur.rest.length using Nat.strongRecOn generalizing cur least most a with
  | ind n ih =>
    rw [stretch_repeated_withReturns hc hcur, stretch_repeated, stretchRounds, stretchRounds]
    rw [outcome_repeated] at hm
    by_cases hmost : most = some 0
    · rw [if_pos hmost, if_pos hmost]
      exact .inl (offsetWithReturns_zero source).symm
    · rw [if_neg hmost] at hm
      rw [if_neg hmost, if_neg hmost]
      cases hs : r.outcome table depth cur with
      | none =>
        rw [Option.elim_none, Option.elim_none, Nat.max_zero, Nat.max_zero]
        exact .inl (h.failed hfails cur hcur hs)
      | some found =>
        obtain ⟨mid, b⟩ := found
        have hfirst := h.matched hfails cur mid b hcur hs
        have hreach := outcome_reaches hs
        simp only [Option.elim_some]
        by_cases hne : mid = cur
        · obtain ⟨-, rfl, -⟩ : least ≤ 1 ∧ mid = next ∧ _ = a := by simpa [hs, hne] using hm
          rw [if_pos hne, if_pos hne, Nat.max_zero, Nat.max_zero]
          exact hfirst
        · simp only [hs, hne, ↓reduceIte, Option.map_eq_some_iff] at hm
          obtain ⟨⟨last, rest⟩, hrest, e⟩ := hm
          obtain ⟨rfl, -⟩ := Prod.mk.inj e
          rw [if_neg hne, if_neg hne]
          exact (hfirst.mono (outcome_reaches hrest).offset_le).max_max
            (ih mid.rest.length (hn ▸ hreach.length_lt hne) (hcur.trans hreach) hrest rfl)

end

/-! ### Other forms -/

theorem optional (h : Echoes source table depth r) : Echoes source table depth (.optional r) where
  always halways cur hcur := by
    rw [stretch_optional, stretch_optional]
    exact h.always halways cur hcur
  failed _ cur _ hm := absurd hm (by simp [outcome_optional])
  matched hfails cur next a hcur hm := by
    rw [stretch_optional, stretch_optional]
    rw [outcome_optional, Option.some.injEq] at hm
    cases hs : r.outcome table depth cur with
    | none => exact .inl (h.failed hfails cur hcur hs)
    | some found =>
      rw [hs, Option.getD_some] at hm
      exact h.matched hfails cur next a hcur (hs.trans (congrArg some hm))

theorem notAhead (r : Rule) : Echoes source table depth (.notAhead r) :=
  of_always fun cur _ => by rw [stretch_notAhead, stretch_notAhead, offsetWithReturns_zero]

theorem quiet (r : Rule) : Echoes source table depth (.quiet r) :=
  of_always fun cur _ => by rw [stretch_quiet, stretch_quiet, offsetWithReturns_zero]

theorem capture (h : Echoes source table depth r) (field : String) :
    Echoes source table depth (.capture field r) where
  always halways cur hcur := by
    rw [stretch_capture, stretch_capture]
    exact h.always halways cur hcur
  failed hfails cur hcur hm := by
    rw [stretch_capture, stretch_capture]
    rw [outcome_capture, Option.map_eq_none_iff] at hm
    exact h.failed hfails cur hcur hm
  matched hfails cur next a hcur hm := by
    rw [stretch_capture, stretch_capture]
    rw [outcome_capture, Option.map_eq_some_iff] at hm
    obtain ⟨⟨next', b⟩, hs, e⟩ := hm
    obtain ⟨rfl, -⟩ := Prod.mk.inj e
    exact h.matched hfails cur next' b hcur hs

theorem stretch_labelled_withReturns (hc : (addReturns source).Carries table depth r)
    (hcur : (Cursor.start source).Reaches cur) (label : String) :
    (Rule.labelled label r).stretch table depth (cur.withReturns source) =
      if (r.outcome table depth cur).isSome then r.stretch table depth (cur.withReturns source)
      else max (r.stretch table depth (cur.withReturns source)) (offsetWithReturns source cur.offset) := by
  rw [stretch_labelled, hc.outcome_withReturns hcur,
    Option.isSome_map]
  rfl

theorem labelled (hc : (addReturns source).Carries table depth r) (h : Echoes source table depth r)
    (label : String) (hline : r.isLineEnd = false) :
    Echoes source table depth (.labelled label r) where
  always halways cur hcur := by
    rw [Rule.stretchesAlike, Bool.and_eq_true] at halways
    rw [stretch_labelled_withReturns hc hcur, stretch_labelled, h.always halways.2 cur hcur]
    split
    · rfl
    · rw [offsetWithReturns_max]
  failed hfails cur hcur hm := by
    rw [Rule.failsAlike, hline, Bool.false_or, Bool.and_eq_true] at hfails
    rw [outcome_labelled] at hm
    rw [stretch_labelled_withReturns hc hcur, stretch_labelled, h.failed hfails.2 cur hcur hm, hm,
      Option.isSome_none, if_neg Bool.false_ne_true, if_neg Bool.false_ne_true, offsetWithReturns_max]
  matched hfails cur next a hcur hm := by
    rw [Rule.failsAlike, hline, Bool.false_or, Bool.and_eq_true] at hfails
    rw [outcome_labelled] at hm
    rw [stretch_labelled_withReturns hc hcur, stretch_labelled, hm, Option.isSome_some, if_pos rfl, if_pos rfl]
    exact h.matched hfails.2 cur next a hcur hm

theorem stretch_lineEnd_le (hline : r.isLineEnd = true) (cur : Cursor) :
    r.stretch table depth cur ≤ cur.offset := by
  rw [eq_of_isLineEnd hline, stretch_choice_cons, stretch_choice_cons, stretch_choice_nil, lit,
    stretch_literal, lit, stretch_literal]
  grind

/-- A line end is expected at the same place where there is none, and short of its end where there is one. -/
theorem lineEnd (hsource : '\r' ∉ source.toList) (hline : r.isLineEnd = true) (label : String) :
    Echoes source table depth (.labelled label r) := by
  have hc : (addReturns source).Carries table depth r := by
    intro cur hcur
    have hnewline := @carries_newline source table depth hsource cur hcur
    rw [newline, outcome_labelled, outcome_labelled] at hnewline
    rwa [eq_of_isLineEnd hline]
  refine ⟨fun halways => ?_, fun _ cur hcur hm => ?_, fun _ cur next a hcur hm => ?_⟩
  · rw [eq_of_isLineEnd hline] at halways
    cases halways
  · rw [outcome_labelled] at hm
    rw [stretch_labelled_withReturns hc hcur, stretch_labelled, hm, Option.isSome_none,
      if_neg Bool.false_ne_true, if_neg Bool.false_ne_true,
      Nat.max_eq_right (stretch_lineEnd_le hline cur)]
    exact Nat.max_eq_right (stretch_lineEnd_le hline (cur.withReturns source))
  · rw [outcome_labelled] at hm
    rw [stretch_labelled_withReturns hc hcur, stretch_labelled, hm, Option.isSome_some, if_pos rfl,
      if_pos rfl]
    have hlt : cur.offset < next.offset := by
      have hnewline : newline.outcome table depth cur = some (next, a) := by
        rw [newline, outcome_labelled]
        exact eq_of_isLineEnd hline ▸ hm
      obtain ⟨ending, hending, hspans⟩ := newline_spans hnewline
      rw [hspans.offset]
      rcases hending with rfl | rfl <;> exact Nat.lt_add_of_pos_right (by decide)
    exact .inr ⟨Nat.lt_of_le_of_lt (stretch_lineEnd_le hline cur) hlt,
      Nat.lt_of_le_of_lt (stretch_lineEnd_le hline _) (offsetWithReturns_lt hlt)⟩

theorem of_refs (hsource : '\r' ∉ source.toList) (hreports : ∀ r, Reports table depth r)
    (hcarries : ∀ r, r.matchesAlike = true → (addReturns source).Carries table depth r)
    (hrefs : ∀ name, Echoes source table depth (.ref name)) (r : Rule) (h : r.matchesAlike = true) :
    Echoes source table depth r := by
  induction r using Rule.ind with
  | literal text anyCase => exact literal h
  | chars set => exact chars h
  | sequence rules ih =>
    have hc := fun r hr => hcarries r (matchesAlike_of_mem h hr)
    have ih := fun r hr => ih r hr (matchesAlike_of_mem h hr)
    exact ⟨fun hall _ hcur => sequence_always hc ih hall hcur,
      fun hfails _ hcur hm => sequence_failed hc ih hreports hfails hcur hm,
      fun hfails _ _ _ hcur hm => sequence_matched hc ih hfails hcur hm⟩
  | choice rules ih =>
    have hc := fun r hr => hcarries r (matchesAlike_of_mem h hr)
    have ih := fun r hr => ih r hr (matchesAlike_of_mem h hr)
    exact ⟨fun hall _ hcur => choice_always hc ih hall hcur,
      fun hfails _ hcur hm => choice_failed hc ih hfails hcur hm,
      fun hfails _ _ _ hcur hm => choice_matched hc ih hfails hcur hm⟩
  | repeated r least most ih =>
    refine ⟨fun halways cur hcur => ?_, fun hfails cur hcur hm => ?_, fun hfails cur next a hcur hm => ?_⟩
    · rw [Rule.stretchesAlike, Bool.and_eq_true] at halways
      exact repeated_always (hcarries r halways.1) (ih halways.1) halways.2 least most hcur
    · rw [Rule.failsAlike, Bool.and_eq_true, Bool.and_eq_true, decide_eq_true_eq] at hfails
      exact repeated_failed (hcarries r hfails.1.2) (ih hfails.1.2) hfails.2 hfails.1.1 hcur hm
    · rw [Rule.failsAlike, Bool.and_eq_true, Bool.and_eq_true] at hfails
      exact repeated_matched (hcarries r hfails.1.2) (ih hfails.1.2) hfails.2 hcur hm
  | optional r ih => exact optional (ih h)
  | notAhead r ih => exact notAhead r
  | capture field r ih => exact capture (ih h) field
  | labelled label r ih =>
    cases hline : r.isLineEnd with
    | true => exact lineEnd hsource hline label
    | false =>
      rw [Rule.matchesAlike, hline, Bool.false_or] at h
      exact labelled (hcarries r h) (ih h) label hline
  | quiet r ih => exact quiet r
  | ref name => exact hrefs name

theorem ref_zero (name : String) : Echoes source table 0 (.ref name) :=
  of_always fun cur _ => by
    rw [stretch_ref_zero, stretch_ref_zero]
    rfl

theorem ref {name : String} (hknown : ∀ r, table.lookup name = some r →
      r.failsAlike table = true ∧ Echoes source table depth r) :
    Echoes source table (depth + 1) (.ref name) where
  always h := nomatch h
  failed _ cur hcur hm := by
    rw [outcome_ref] at hm
    rw [stretch_ref, stretch_ref]
    cases hl : table.lookup name with
    | none => exact (offsetWithReturns_zero source).symm
    | some r =>
      rw [hl, Option.bind_some] at hm
      exact (hknown r hl).2.failed (hknown r hl).1 cur hcur hm
  matched _ cur next a hcur hm := by
    rw [outcome_ref] at hm
    rw [stretch_ref, stretch_ref]
    obtain ⟨r, hl, hm⟩ := Option.bind_eq_some_iff.1 hm
    rw [hl]
    exact (hknown r hl).2.matched (hknown r hl).1 cur next a hcur hm

end Echoes

/-! ## Grammars -/

namespace Grammar

/-- The rules of the grammar match and fail alike with either line end. -/
structure Even (g : Grammar) : Prop where
  root : g.root.matchesAlike = true ∧ g.root.failsAlike g.rules = true
  rules : ∀ entry ∈ g.rules, entry.2.matchesAlike = true ∧ entry.2.failsAlike g.rules = true ∧
    entry.2.consumes = true ∧ entry.2.isLoud g.rules = true

instance (g : Grammar) : Decidable g.Even :=
  decidable_of_iff ((g.root.matchesAlike = true ∧ g.root.failsAlike g.rules = true) ∧
      ∀ entry ∈ g.rules, entry.2.matchesAlike = true ∧ entry.2.failsAlike g.rules = true ∧
        entry.2.consumes = true ∧ entry.2.isLoud g.rules = true)
    ⟨fun h => ⟨h.1, h.2⟩, fun h => ⟨h.root, h.rules⟩⟩

namespace Even

variable {g : Grammar} (h : g.Even) (hsource : '\r' ∉ source.toList)

include h hsource

theorem carries (depth : Nat) (r : Rule) (hr : r.matchesAlike = true) :
    (addReturns source).Carries g.rules depth r :=
  carries_of_matchesAlike hsource (fun _ _ hl => (h.rules _ (mem_of_lookup hl)).1) depth r hr

theorem echoes (depth : Nat) (r : Rule) (hr : r.matchesAlike = true) : Echoes source g.rules depth r := by
  have htable : Outspoken g.rules := fun _ _ hl => (h.rules _ (mem_of_lookup hl)).2.2
  induction depth generalizing r with
  | zero =>
    exact .of_refs hsource (reports htable 0) (h.carries hsource 0) (fun name => .ref_zero name) r hr
  | succ depth below =>
    refine .of_refs hsource (reports htable _) (h.carries hsource _) (fun name => .ref fun r hl => ?_) r hr
    have hr := h.rules _ (mem_of_lookup hl)
    exact ⟨hr.2.1, below r hr.1⟩

end Even

end Grammar

section

variable {g : Grammar} (h : g.Even) (hsource : '\r' ∉ source.toList)

include h hsource

theorem outcome_root_withReturns (depth : Nat) :
    g.root.outcome g.rules depth (.start (withReturns source)) =
      (g.root.outcome g.rules depth (.start source)).map (addReturns source).result := by
  have hc := h.carries hsource depth g.root h.root.1
  rw [← start_withReturns, hc.outcome_withReturns (.refl _)]

/-- With a carriage return before every line feed a text is parsed to the same tree, with the carriage
returns in its spans. -/
theorem parse_withReturns {tree : Tree} (hparse : g.parse depth source = .ok tree) :
    g.parse depth (withReturns source) = .ok (tree.map (addReturns source).token) := by
  obtain ⟨next, fragment, hm, hrest, rfl⟩ := parse_eq_ok.1 hparse
  have himage := outcome_root_withReturns h hsource depth
  rw [hm, Option.map_some] at himage
  refine parse_eq_ok.2 ⟨_, _, himage, ?_, ?_⟩
  · show Chars.withReturns next.rest = []
    rw [hrest, Chars.withReturns_nil]
  · have hspan : (addReturns source).token ⟨source, 0⟩ = ⟨withReturns source, 0⟩ :=
      congrArg (Token.mk _) (offsetWithReturns_zero source)
    rw [Fragment.map_toTree, hspan]

/-- With a carriage return before every line feed a text is rejected at the same place. -/
theorem parse_withReturns_error {failure : Failure} (hparse : g.parse depth source = .error failure) :
    ∃ failure', g.parse depth (withReturns source) = .error failure' ∧
      failure'.offset = offsetWithReturns source failure.offset := by
  have himage := outcome_root_withReturns h hsource depth
  cases hparse' : g.parse depth (withReturns source) with
  | ok tree =>
    obtain ⟨next', fragment', hm', hrest', -⟩ := parse_eq_ok.1 hparse'
    rw [himage] at hm'
    obtain ⟨⟨next, fragment⟩, hm, e⟩ := Option.map_eq_some_iff.1 hm'
    obtain ⟨rfl, -⟩ := Prod.mk.inj e
    have hok := parse_eq_ok.2 ⟨next, fragment, hm, Chars.withReturns_eq_nil.1 hrest', rfl⟩
    rw [hparse] at hok
    cases hok
  | error failure' =>
    have hechoes := h.echoes hsource depth g.root h.root.1
    refine ⟨failure', rfl, ?_⟩
    rw [offset_of_parse_error hparse, offset_of_parse_error hparse', himage, ← start_withReturns,
      offsetWithReturns_max]
    cases hm : g.root.outcome g.rules depth (.start source) with
    | none =>
      rw [hechoes.failed h.root.2 _ (.refl _) hm, Option.elim_none, offsetWithReturns_zero]
      rfl
    | some found =>
      obtain ⟨next, fragment⟩ := found
      exact (hechoes.matched h.root.2 _ next fragment (.refl _) hm).max_eq

end

end DiagramText.Peg
