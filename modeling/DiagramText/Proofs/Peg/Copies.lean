import DiagramText.Proofs.Peg.Outcome

/-!
# Repetitions of a fixed number of rounds

A repetition of exactly `n` rounds should match as `n` copies of its rule do, one after the other. The two are compared
round by round: both go on with what the rule leaves (`ending?_copies_succ`, `ending?_exactly_succ`), but the repetition
ends with a round that consumes nothing, even if it is short of its number then, while copies may stand where they are
as often as they like. So a repetition stalls at a round in front of the last that consumes nothing (`Stalls`). It agrees
with the copies exactly if it does not stall, and where it stalls it fails although the copies match
(`copiesAlike_iff`).
-/

namespace DiagramText.Peg

namespace Rule

/-- Exactly `n` rounds of a rule. -/
def exactly (r : Rule) (n : Nat) : Rule := repeated r n (some n)

/-- A rule `n` times in a row. -/
def copies (r : Rule) (n : Nat) : Rule := sequence (List.replicate n r)

/-- Where the match of a rule ends. -/
def ending? (table : List (String × Rule)) (depth : Nat) (r : Rule) (cur : Cursor) : Option Cursor :=
  (r.outcome table depth cur).map (·.1)

end Rule

variable {table : List (String × Rule)} {depth n : Nat} {r : Rule} {cur next : Cursor}

/-! ## Round by round -/

theorem ending?_copies_zero (r : Rule) (cur : Cursor) : (r.copies 0).ending? table depth cur = some cur := by
  rw [Rule.copies, Rule.ending?, List.replicate_zero, outcome_sequence_nil, Option.map_some]

theorem ending?_copies_succ (r : Rule) (n : Nat) (cur : Cursor) :
    (r.copies (n + 1)).ending? table depth cur =
      (r.ending? table depth cur).bind ((r.copies n).ending? table depth) := by
  rw [Rule.copies, Rule.ending?, List.replicate_succ, outcome_sequence_cons, Rule.ending?]
  rcases r.outcome table depth cur with _ | ⟨next, fragment⟩
  · rfl
  · rw [Option.bind_some, Option.map_map, Option.map_some, Option.bind_some]
    rfl

theorem ending?_exactly_zero (r : Rule) (cur : Cursor) : (r.exactly 0).ending? table depth cur = some cur := by
  rw [Rule.exactly, Rule.ending?, outcome_repeated, if_pos rfl, if_pos rfl, Option.map_some]

/-- After a round that consumes nothing there is no other one. -/
theorem ending?_exactly_succ (r : Rule) (n : Nat) (cur : Cursor) :
    (r.exactly (n + 1)).ending? table depth cur =
      (r.ending? table depth cur).bind fun next =>
        if next = cur then if n = 0 then some cur else none else (r.exactly n).ending? table depth next := by
  rw [Rule.exactly, Rule.ending?, outcome_repeated, if_neg (by simp), Rule.ending?]
  rcases r.outcome table depth cur with _ | ⟨next, fragment⟩
  · rfl
  · by_cases still : next = cur
    · subst still
      by_cases last : n = 0 <;> simp [last]
    · simp only [still, ↓reduceIte, Nat.add_sub_cancel, Option.map_some, Option.bind_some, Option.map_map]
      rfl

/-- Copies of a rule that consumes nothing stand where they are. -/
theorem ending?_copies_of_still (still : r.ending? table depth cur = some cur) (n : Nat) :
    (r.copies n).ending? table depth cur = some cur := by
  induction n with
  | zero => exact ending?_copies_zero r cur
  | succ n ih => rw [ending?_copies_succ, still, Option.bind_some, ih]

/-! ## Stalling -/

/-- Whether some round in front of the last of `n` consumes nothing. -/
def Stalls (table : List (String × Rule)) (depth : Nat) (r : Rule) (n : Nat) (cur : Cursor) : Prop :=
  ∃ k mid, k + 1 < n ∧ (r.copies k).ending? table depth cur = some mid ∧ r.ending? table depth mid = some mid

theorem not_stalls_zero : ¬ Stalls table depth r 0 cur := fun ⟨_, _, less, _⟩ => absurd less (Nat.not_lt_zero _)

theorem stalls_succ :
    Stalls table depth r (n + 1) cur ↔
      0 < n ∧ r.ending? table depth cur = some cur ∨
        ∃ next, r.ending? table depth cur = some next ∧ Stalls table depth r n next := by
  constructor
  · rintro ⟨k, mid, less, before, still⟩
    cases k with
    | zero =>
      rw [ending?_copies_zero] at before
      obtain rfl := Option.some.inj before
      exact .inl ⟨Nat.lt_of_succ_lt_succ less, still⟩
    | succ k =>
      rw [ending?_copies_succ, Option.bind_eq_some_iff] at before
      obtain ⟨next, first, later⟩ := before
      exact .inr ⟨next, first, k, mid, Nat.lt_of_succ_lt_succ less, later, still⟩
  · rintro (⟨pos, still⟩ | ⟨next, first, k, mid, less, later, still⟩)
    · exact ⟨0, cur, Nat.succ_lt_succ pos, ending?_copies_zero r cur, still⟩
    · refine ⟨k + 1, mid, Nat.succ_lt_succ less, ?_, still⟩
      rw [ending?_copies_succ, first, Option.bind_some, later]

/-- A repetition that does not stall ends where the copies do. -/
theorem ending?_exactly (h : ¬ Stalls table depth r n cur) :
    (r.exactly n).ending? table depth cur = (r.copies n).ending? table depth cur := by
  induction n generalizing cur with
  | zero => rw [ending?_exactly_zero, ending?_copies_zero]
  | succ n ih =>
    rw [stalls_succ, not_or] at h
    obtain ⟨first, later⟩ := h
    rw [ending?_exactly_succ, ending?_copies_succ]
    cases ends : r.ending? table depth cur with
    | none => rfl
    | some next =>
      rw [Option.bind_some, Option.bind_some]
      split
      · rename_i still
        subst still
        obtain rfl : n = 0 := Nat.eq_zero_of_not_pos fun pos => first ⟨pos, ends⟩
        rw [if_pos rfl, ending?_copies_zero]
      · exact ih fun stalls => later ⟨next, ends, stalls⟩

/-- A repetition that stalls fails, though the copies match. -/
theorem ending?_of_stalls (h : Stalls table depth r n cur) :
    (r.exactly n).ending? table depth cur = none ∧ ∃ last, (r.copies n).ending? table depth cur = some last := by
  induction n generalizing cur with
  | zero => exact absurd h not_stalls_zero
  | succ n ih =>
    rw [ending?_exactly_succ, ending?_copies_succ]
    obtain ⟨pos, still⟩ | ⟨next, first, later⟩ := stalls_succ.1 h
    · rw [still, Option.bind_some, Option.bind_some, if_pos rfl, if_neg (Nat.pos_iff_ne_zero.1 pos)]
      exact ⟨rfl, cur, ending?_copies_of_still still n⟩
    · obtain ⟨fails, found⟩ := ih later
      rw [first, Option.bind_some, Option.bind_some]
      refine ⟨?_, found⟩
      split
      · refine if_neg ?_
        rintro rfl
        exact not_stalls_zero later
      · exact fails

/-! ## The law of repetition -/

/-- Whether exactly `n` rounds of a rule match if and only if `n` copies of it do, and then up to the same position,
whatever is reported. -/
def CopiesAlike (table : List (String × Rule)) (depth : Nat) (r : Rule) (n : Nat) (cur : Cursor) : Prop :=
  ∀ silent silent' f f', ((r.exactly n).matchWithin table depth silent cur f).1.map (·.1) =
    ((r.copies n).matchWithin table depth silent' cur f').1.map (·.1)

theorem copiesAlike_iff_ending? :
    CopiesAlike table depth r n cur ↔
      (r.exactly n).ending? table depth cur = (r.copies n).ending? table depth cur := by
  simp only [CopiesAlike, matchWithin_fst, Rule.ending?, forall_const]

/-- A repetition of a fixed number of rounds matches as the copies of its rule do if and only if no round in front of
the last consumes nothing. Where one does, the copies match and the repetition fails. -/
theorem copiesAlike_iff (table : List (String × Rule)) (depth : Nat) (r : Rule) (n : Nat) (cur : Cursor) :
    (CopiesAlike table depth r n cur ↔ ¬ Stalls table depth r n cur) ∧
      (Stalls table depth r n cur → ∃ last, (r.copies n).ending? table depth cur = some last ∧
        (r.exactly n).ending? table depth cur = none) := by
  constructor
  · refine ⟨fun alike stalls => ?_, fun goes => copiesAlike_iff_ending?.2 (ending?_exactly goes)⟩
    obtain ⟨fails, last, found⟩ := ending?_of_stalls stalls
    rw [copiesAlike_iff_ending?, fails, found] at alike
    cases alike
  · intro stalls
    obtain ⟨fails, last, found⟩ := ending?_of_stalls stalls
    exact ⟨last, found, fails⟩

/-- The last round may consume nothing. -/
example : ((Rule.optional (lit "x")).exactly 2).ending? [] 0 (.start "x") = some ⟨1, []⟩ := by decide

/-- At the end of the input an optional rule matches twice in a row, but not in a repetition of two rounds, and no
reference is nested too deeply there. -/
theorem not_copiesAlike_optional :
    (((Rule.optional (lit "x")).exactly 2).matchWithin [] 20 false (.start "") {}).2.refused = false ∧
      (((Rule.optional (lit "x")).copies 2).matchWithin [] 20 false (.start "") {}).2.refused = false ∧
      ¬ CopiesAlike [] 20 (.optional (lit "x")) 2 (.start "") := by
  refine ⟨by decide, by decide, fun alike => ?_⟩
  exact absurd (alike false false {} {}) (by decide)

end DiagramText.Peg
