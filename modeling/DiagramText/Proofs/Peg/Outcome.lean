import DiagramText.Peg.Grammar
import DiagramText.Proofs.Peg.Match

/-!
# Outcomes

What a rule gives at a position does not depend on what is reported (`matchWithin_steady`). So it has
an outcome there, `Rule.outcome`, and the outcome of a rule is made of those of its parts: there is an
equation for every form of rule, from `outcome_literal` to `outcome_ref`, that speaks neither of
silence nor of the frontier. `parse_eq_ok` says the same of a whole parse.
-/

namespace DiagramText.Peg

/-! ## Matches do not depend on reports -/

/-- What a matcher gives at a position is the same whatever is reported. -/
def Steady (m : Matcher) : Prop :=
  ∀ silent silent' cur f f', (m silent cur f).1 = (m silent' cur f').1

section

variable {call : String → Matcher}

theorem steady_miss {describe : Unit → String} (silent : Bool) (cur : Cursor) (f : Frontier) :
    (miss describe silent cur f).1 = none := by
  unfold miss
  split <;> rfl

theorem rounds_steady {step step' : Cursor → Frontier → Outcome × Frontier}
    (h : ∀ cur f f', (step cur f).1 = (step' cur f').1) (most : Option Nat) (clock : List Char)
    (count : Nat) (cur : Cursor) (trees : List Tree) (f f' : Frontier) :
    (rounds step most clock count cur trees f).1 = (rounds step' most clock count cur trees f').1 := by
  induction clock generalizing count cur trees f f' with
  | nil =>
    rw [rounds_eq, rounds_eq step']
    have hs := h cur f f'
    revert hs
    rcases step cur f with ⟨_ | ⟨next, fragment⟩, f₁⟩ <;> rcases step' cur f' with ⟨o, f₂⟩ <;> rintro (rfl : _ = o)
    · simp only [apply_ite Prod.fst]
    · simp only [or_true, ↓reduceIte, apply_ite Prod.fst]
  | cons c clock ih =>
    rw [rounds_eq, rounds_eq step']
    have hs := h cur f f'
    revert hs
    rcases step cur f with ⟨_ | ⟨next, fragment⟩, f₁⟩ <;> rcases step' cur f' with ⟨o, f₂⟩ <;> rintro (rfl : _ = o)
    · simp only [apply_ite Prod.fst]
    · simp only [apply_ite Prod.fst, List.tail_cons, ih _ _ _ f₁ f₂]

theorem matchAll_steady {rules : List Rule} (h : ∀ r ∈ rules, Steady (r.matchWith call))
    (silent silent' : Bool) (fragment : Fragment) (cur : Cursor) (f f' : Frontier) :
    (Rule.matchAll call rules silent fragment cur f).1 =
      (Rule.matchAll call rules silent' fragment cur f').1 := by
  induction rules generalizing fragment cur f f' with
  | nil => rfl
  | cons r rules ih =>
    rw [Rule.matchAll, Rule.matchAll]
    have hs := h r List.mem_cons_self silent silent' cur f f'
    revert hs
    rcases r.matchWith call silent cur f with ⟨_ | ⟨next, captured⟩, f₁⟩ <;>
      rcases r.matchWith call silent' cur f' with ⟨o, f₂⟩ <;> rintro (rfl : _ = o)
    · rfl
    · exact ih (fun r' h' => h r' (List.mem_cons_of_mem _ h')) _ next f₁ f₂

theorem matchAny_steady {rules : List Rule} (h : ∀ r ∈ rules, Steady (r.matchWith call)) :
    Steady (Rule.matchAny call rules) := by
  intro silent silent' cur f f'
  induction rules generalizing f f' with
  | nil => rfl
  | cons r rules ih =>
    rw [Rule.matchAny, Rule.matchAny]
    have hs := h r List.mem_cons_self silent silent' cur f f'
    revert hs
    rcases r.matchWith call silent cur f with ⟨_ | found, f₁⟩ <;>
      rcases r.matchWith call silent' cur f' with ⟨o, f₂⟩ <;> rintro (rfl : _ = o)
    · exact ih (fun r' h' => h r' (List.mem_cons_of_mem _ h')) f₁ f₂
    · rfl

theorem matchWith_steady (hcall : ∀ name, Steady (call name)) (r : Rule) :
    Steady (r.matchWith call) := by
  induction r using Rule.ind with
  | literal text anyCase =>
    intro silent silent' cur f f'
    rw [Rule.matchWith, Rule.matchWith]
    split
    · rfl
    · rw [steady_miss, steady_miss]
  | chars set =>
    intro silent silent' cur f f'
    rw [Rule.matchWith, Rule.matchWith]
    split
    · rfl
    · rw [steady_miss, steady_miss]
  | sequence rules ih =>
    intro silent silent' cur f f'
    rw [Rule.matchWith, Rule.matchWith]
    exact matchAll_steady ih silent silent' .empty cur f f'
  | choice rules ih =>
    intro silent silent' cur f f'
    rw [Rule.matchWith, Rule.matchWith]
    exact matchAny_steady ih silent silent' cur f f'
  | repeated r least most ih =>
    intro silent silent' cur f f'
    have h := rounds_steady (fun cur f f' => ih silent silent' cur f f') most cur.rest 0 cur [] f f'
    rw [Rule.matchWith, Rule.matchWith]
    revert h
    rcases rounds _ most cur.rest 0 cur [] f with ⟨found, f₁⟩
    rcases rounds _ most cur.rest 0 cur [] f' with ⟨found', f₂⟩
    rintro (rfl : found = found')
    rfl
  | optional r ih =>
    intro silent silent' cur f f'
    rw [Rule.matchWith, Rule.matchWith]
    have hs := ih silent silent' cur f f'
    revert hs
    rcases r.matchWith call silent cur f with ⟨_ | found, f₁⟩ <;>
      rcases r.matchWith call silent' cur f' with ⟨o, f₂⟩ <;> rintro (rfl : _ = o) <;> rfl
  | notAhead r ih =>
    intro silent silent' cur f f'
    rw [Rule.matchWith, Rule.matchWith]
    have hs := ih true true cur f f'
    revert hs
    rcases r.matchWith call true cur f with ⟨_ | found, f₁⟩ <;>
      rcases r.matchWith call true cur f' with ⟨o, f₂⟩ <;> rintro (rfl : _ = o) <;> rfl
  | capture field r ih =>
    intro silent silent' cur f f'
    rw [Rule.matchWith, Rule.matchWith]
    have hs := ih silent silent' cur f f'
    revert hs
    rcases r.matchWith call silent cur f with ⟨_ | found, f₁⟩ <;>
      rcases r.matchWith call silent' cur f' with ⟨o, f₂⟩ <;> rintro (rfl : _ = o) <;> rfl
  | labelled label r ih =>
    intro silent silent' cur f f'
    rw [Rule.matchWith, Rule.matchWith]
    have hs := ih silent silent' cur f f'
    revert hs
    rcases r.matchWith call silent cur f with ⟨_ | found, f₁⟩ <;>
      rcases r.matchWith call silent' cur f' with ⟨o, f₂⟩ <;> rintro (rfl : _ = o)
    · simp only [apply_ite Prod.fst, ite_self]
    · rfl
  | quiet r ih =>
    intro silent silent' cur f f'
    rw [Rule.matchWith, Rule.matchWith]
    exact ih true true cur f f'
  | ref name =>
    intro silent silent' cur f f'
    rw [Rule.matchWith, Rule.matchWith]
    exact hcall name silent silent' cur f f'

theorem callWithin_steady (table : List (String × Rule)) (depth : Nat) (name : String) :
    Steady (Rule.callWithin table depth name) := by
  induction depth generalizing name with
  | zero =>
    intro silent silent' cur f f'
    simp only [Rule.callWithin, Rule.refuse, steady_miss]
  | succ depth ih =>
    intro silent silent' cur f f'
    cases hl : table.lookup name with
    | some r =>
      simp only [Rule.callWithin, hl]
      exact matchWith_steady ih r silent silent' cur f f'
    | none => simp only [Rule.callWithin, hl]

theorem matchWithin_steady (table : List (String × Rule)) (depth : Nat) (r : Rule) :
    Steady (r.matchWithin table depth) :=
  matchWith_steady (callWithin_steady table depth) r

end

/-! ## The outcomes of rules -/

/-- What a rule gives at a position. -/
def Rule.outcome (table : List (String × Rule)) (depth : Nat) (r : Rule) (cur : Cursor) : Outcome :=
  (r.matchWithin table depth true cur {}).1

section

variable {table : List (String × Rule)} {depth : Nat}

theorem matchWithin_fst (r : Rule) (silent : Bool) (cur : Cursor) (f : Frontier) :
    (r.matchWithin table depth silent cur f).1 = r.outcome table depth cur :=
  matchWithin_steady table depth r silent true cur f {}

theorem matchWith_fst (r : Rule) (silent : Bool) (cur : Cursor) (f : Frontier) :
    (r.matchWith (Rule.callWithin table depth) silent cur f).1 = r.outcome table depth cur :=
  matchWithin_fst r silent cur f

theorem outcome_reaches {r : Rule} {cur next : Cursor} {fragment : Fragment}
    (h : r.outcome table depth cur = some (next, fragment)) : cur.Reaches next :=
  matchWithin_reaches table depth r true cur {} next fragment h

theorem outcome_literal (text : String) (anyCase : Bool) (cur : Cursor) :
    (Rule.literal text anyCase).outcome table depth cur =
      (cur.skip? text anyCase).map (·, .empty) := by
  rw [Rule.outcome, Rule.matchWithin, Rule.matchWith]
  split
  · rename_i h
    rw [h]
    rfl
  · rename_i h
    rw [h, steady_miss]
    rfl

theorem outcome_chars (set : CharClass) (cur : Cursor) :
    (Rule.chars set).outcome table depth cur = (cur.next? set).map (·, .empty) := by
  rw [Rule.outcome, Rule.matchWithin, Rule.matchWith]
  split
  · rename_i h
    rw [h]
    rfl
  · rename_i h
    rw [h, steady_miss]
    rfl

theorem outcome_sequence_nil (cur : Cursor) :
    (Rule.sequence []).outcome table depth cur = some (cur, .empty) := by
  rw [Rule.outcome, Rule.matchWithin, Rule.matchWith, Rule.matchAll]

theorem sequence_nil_eq_some {cur last : Cursor} {fragment : Fragment} :
    (Rule.sequence []).outcome table depth cur = some (last, fragment) ↔ cur = last ∧ .empty = fragment := by
  rw [outcome_sequence_nil, Option.some.injEq, Prod.mk.injEq]

/-- Captures that were made before a sequence stay in front of its own. -/
theorem matchAll_append {call : String → Matcher} (rules : List Rule) (silent : Bool)
    (a b : Fragment) (cur : Cursor) (f : Frontier) :
    (Rule.matchAll call rules silent (a.append b) cur f).1 =
      (Rule.matchAll call rules silent (.fields b.toFields) cur f).1.map
        fun (last, fragment) => (last, a.append fragment) := by
  induction rules generalizing a b cur f with
  | nil => rfl
  | cons r rules ih =>
    rw [Rule.matchAll, Rule.matchAll]
    rcases r.matchWith call silent cur f with ⟨_ | ⟨next, captured⟩, f₁⟩
    · rfl
    · have hassoc : (a.append b).append captured = a.append (b.append captured) := by
        simp only [Fragment.append, Fragment.toFields, List.append_assoc]
      have hsame : (Fragment.fields b.toFields).append captured = b.append captured := rfl
      show (Rule.matchAll call rules silent ((a.append b).append captured) next f₁).1 =
        (Rule.matchAll call rules silent ((Fragment.fields b.toFields).append captured) next f₁).1.map _
      rw [hassoc, hsame, ih]
      rfl

/-- Captures that were made before a sequence have no part in what it reports. -/
theorem matchAll_snd {call : String → Matcher} (rules : List Rule) (silent : Bool) (a b : Fragment)
    (cur : Cursor) (f : Frontier) :
    (Rule.matchAll call rules silent a cur f).2 = (Rule.matchAll call rules silent b cur f).2 := by
  induction rules generalizing a b cur f with
  | nil => rfl
  | cons r rules ih =>
    rw [Rule.matchAll, Rule.matchAll]
    rcases r.matchWith call silent cur f with ⟨_ | ⟨next, captured⟩, f'⟩
    · rfl
    · exact ih _ _ next f'

/-- A sequence goes on with what its first members left. -/
theorem matchAll_rules_append {call : String → Matcher} (rules more : List Rule) (silent : Bool) (a : Fragment)
    (cur : Cursor) (f : Frontier) :
    Rule.matchAll call (rules ++ more) silent a cur f =
      match Rule.matchAll call rules silent a cur f with
      | (some (next, b), f') => Rule.matchAll call more silent b next f'
      | (none, f') => (none, f') := by
  induction rules generalizing a cur f with
  | nil => rfl
  | cons r rules ih =>
    rw [List.cons_append, Rule.matchAll, Rule.matchAll]
    rcases r.matchWith call silent cur f with ⟨_ | ⟨next, captured⟩, f'⟩
    · rfl
    · exact ih _ _ _

theorem outcome_sequence_cons (r : Rule) (rules : List Rule) (cur : Cursor) :
    (Rule.sequence (r :: rules)).outcome table depth cur =
      (r.outcome table depth cur).bind fun (next, a) =>
        ((Rule.sequence rules).outcome table depth next).map fun (last, b) => (last, a.append b) := by
  have hs := @matchWith_fst table depth r true cur {}
  rw [Rule.outcome, Rule.matchWithin, Rule.matchWith, Rule.matchAll, ← hs]
  rcases r.matchWith (Rule.callWithin table depth) true cur {} with ⟨_ | ⟨next, a⟩, f₁⟩
  · rfl
  · have hempty : Fragment.empty.append a = a.append .empty := by
      simp [Fragment.append, Fragment.empty, Fragment.toFields]
    simp only [hempty, matchAll_append, Option.bind_some]
    congr 1
    rw [← matchWith_fst (Rule.sequence rules) true next f₁, Rule.matchWith]
    rfl

theorem sequence_cons_eq_some {r : Rule} {rules : List Rule} {cur last : Cursor}
    {fragment : Fragment} :
    (Rule.sequence (r :: rules)).outcome table depth cur = some (last, fragment) ↔
      ∃ next a b, r.outcome table depth cur = some (next, a) ∧
        (Rule.sequence rules).outcome table depth next = some (last, b) ∧ fragment = a.append b := by
  rw [outcome_sequence_cons, Option.bind_eq_some_iff]
  constructor
  · rintro ⟨⟨next, a⟩, ha, h⟩
    obtain ⟨⟨last', b⟩, hb, e⟩ := Option.map_eq_some_iff.1 h
    obtain ⟨rfl, rfl⟩ := Prod.mk.inj e
    exact ⟨next, a, b, ha, hb, rfl⟩
  · rintro ⟨next, a, b, ha, hb, rfl⟩
    exact ⟨(next, a), ha, Option.map_eq_some_iff.2 ⟨(last, b), hb, rfl⟩⟩

theorem sequence_singleton_eq_some {r : Rule} {cur last : Cursor} {fragment : Fragment} :
    (Rule.sequence [r]).outcome table depth cur = some (last, fragment) ↔
      ∃ a, r.outcome table depth cur = some (last, a) ∧ fragment = a.append .empty := by
  simp only [sequence_cons_eq_some, sequence_nil_eq_some]
  constructor
  · rintro ⟨next, a, b, ha, ⟨rfl, rfl⟩, e⟩
    exact ⟨a, ha, e⟩
  · rintro ⟨a, ha, e⟩
    exact ⟨last, a, .empty, ha, ⟨rfl, rfl⟩, e⟩

theorem outcome_choice_nil (cur : Cursor) : (Rule.choice []).outcome table depth cur = none := by
  rw [Rule.outcome, Rule.matchWithin, Rule.matchWith, Rule.matchAny]

theorem outcome_choice_cons (r : Rule) (rules : List Rule) (cur : Cursor) :
    (Rule.choice (r :: rules)).outcome table depth cur =
      (r.outcome table depth cur).or ((Rule.choice rules).outcome table depth cur) := by
  have hs := @matchWith_fst table depth r true cur {}
  rw [Rule.outcome, Rule.matchWithin, Rule.matchWith, Rule.matchAny, ← hs]
  rcases r.matchWith (Rule.callWithin table depth) true cur {} with ⟨_ | found, f₁⟩
  · show (Rule.matchAny _ rules true cur f₁).1 = _
    rw [Option.none_or, ← matchWith_fst (Rule.choice rules) true cur f₁, Rule.matchWith]
  · rfl

/-- A choice matches as one of its members does. -/
theorem choice_eq_some {rules : List Rule} {cur next : Cursor} {fragment : Fragment}
    (h : (Rule.choice rules).outcome table depth cur = some (next, fragment)) :
    ∃ r ∈ rules, r.outcome table depth cur = some (next, fragment) := by
  induction rules with
  | nil =>
    rw [outcome_choice_nil] at h
    cases h
  | cons r rules ih =>
    rw [outcome_choice_cons, Option.or_eq_some_iff] at h
    rcases h with h | ⟨-, h⟩
    · exact ⟨r, List.mem_cons_self, h⟩
    · obtain ⟨r', hmem, h'⟩ := ih h
      exact ⟨r', List.mem_cons_of_mem _ hmem, h'⟩

theorem outcome_repeated (r : Rule) (least : Nat) (most : Option Nat) (cur : Cursor) :
    (Rule.repeated r least most).outcome table depth cur =
      if most = some 0 then if least = 0 then some (cur, .items []) else none
      else match r.outcome table depth cur with
        | none => if least = 0 then some (cur, .items []) else none
        | some (next, fragment) =>
          let trees := fragment.round (cur.spanTo next)
          if next = cur then if least ≤ 1 then some (next, .items trees) else none
          else ((Rule.repeated r (least - 1) (most.map (· - 1))).outcome table depth next).map
            fun (last, rest) => (last, rest.behind trees) := by
  have hs := @matchWith_fst table depth r true cur {}
  rw [Rule.outcome, Rule.matchWithin, matchWith_repeated (matchWithin_reaches table depth r), ← hs]
  rcases r.matchWith (Rule.callWithin table depth) true cur {} with ⟨_ | ⟨next, fragment⟩, f₁⟩
  · simp only [apply_ite Prod.fst]
  · simp only [apply_ite Prod.fst]
    rw [← matchWith_fst (Rule.repeated r (least - 1) (most.map (· - 1))) true next f₁]

/-- What holds of no round, of a last round that stays where it is, and of a round that moves on with
the rounds behind it, holds of a repetition. -/
theorem repeated_ind {r : Rule} {motive : Cursor → Cursor → List Tree → Prop}
    (stop : ∀ cur, motive cur cur [])
    (stay : ∀ cur fragment, r.outcome table depth cur = some (cur, fragment) →
      motive cur cur (fragment.round (cur.spanTo cur)))
    (move : ∀ cur mid next fragment trees, r.outcome table depth cur = some (mid, fragment) →
      mid ≠ cur → motive mid next trees →
      motive cur next (fragment.round (cur.spanTo mid) ++ trees))
    {least : Nat} {most : Option Nat} {cur next : Cursor} {fragment : Fragment}
    (hm : (Rule.repeated r least most).outcome table depth cur = some (next, fragment)) :
    ∃ trees, fragment = .items trees ∧ motive cur next trees := by
  induction hn : cur.rest.length using Nat.strongRecOn generalizing cur least most fragment with
  | ind n ih =>
    rw [outcome_repeated] at hm
    split at hm
    · obtain ⟨-, rfl, rfl⟩ : _ ∧ cur = next ∧ _ = fragment := by simpa using hm
      exact ⟨[], rfl, stop cur⟩
    · split at hm
      · obtain ⟨-, rfl, rfl⟩ : _ ∧ cur = next ∧ _ = fragment := by simpa using hm
        exact ⟨[], rfl, stop cur⟩
      · rename_i mid captured hs
        by_cases hne : mid = cur
        · subst hne
          simp only [↓reduceIte] at hm
          obtain ⟨-, rfl, rfl⟩ : _ ∧ mid = next ∧ _ = fragment := by simpa using hm
          exact ⟨_, rfl, stay mid captured hs⟩
        · simp only [hne, ↓reduceIte, Option.map_eq_some_iff, Prod.mk.injEq] at hm
          obtain ⟨⟨last, rest⟩, hrest, rfl, rfl⟩ := hm
          have hlt := (outcome_reaches hs).length_lt hne
          obtain ⟨trees, rfl, hmotive⟩ := ih mid.rest.length (hn ▸ hlt) hrest rfl
          exact ⟨_, rfl, move cur mid last captured trees hs hne hmotive⟩

/-- What a round of a repetition keeps true of a position, the whole repetition does. -/
theorem repeated_invariant {r : Rule} {holds : Cursor → Prop}
    (hround : ∀ cur next fragment, holds cur → r.outcome table depth cur = some (next, fragment) →
      holds next)
    {least : Nat} {most : Option Nat} {cur next : Cursor} {fragment : Fragment} (h : holds cur)
    (hm : (Rule.repeated r least most).outcome table depth cur = some (next, fragment)) :
    holds next := by
  obtain ⟨-, -, keeps⟩ := repeated_ind (motive := fun cur next _ => holds cur → holds next)
    (fun _ h => h) (fun _ _ _ h => h)
    (fun cur mid _ captured _ hs _ rest h => rest (hround cur mid captured h hs)) hm
  exact keeps h

/-- A repetition leaves trees. -/
theorem repeated_items {r : Rule} {least : Nat} {most : Option Nat} {cur next : Cursor}
    {fragment : Fragment}
    (hm : (Rule.repeated r least most).outcome table depth cur = some (next, fragment)) :
    ∃ trees, fragment = .items trees := by
  obtain ⟨trees, e, -⟩ := repeated_ind (motive := fun _ _ _ => True) (fun _ => trivial)
    (fun _ _ _ => trivial) (fun _ _ _ _ _ _ _ _ => trivial) hm
  exact ⟨trees, e⟩

theorem outcome_optional (r : Rule) (cur : Cursor) :
    (Rule.optional r).outcome table depth cur =
      some ((r.outcome table depth cur).getD (cur, .empty)) := by
  have hs := @matchWith_fst table depth r true cur {}
  rw [Rule.outcome, Rule.matchWithin, Rule.matchWith, ← hs]
  rcases r.matchWith (Rule.callWithin table depth) true cur {} with ⟨_ | found, f₁⟩ <;> rfl

theorem outcome_notAhead (r : Rule) (cur : Cursor) :
    (Rule.notAhead r).outcome table depth cur =
      if r.outcome table depth cur = none then some (cur, .empty) else none := by
  have hs := @matchWith_fst table depth r true cur {}
  rw [Rule.outcome, Rule.matchWithin, Rule.matchWith, ← hs]
  rcases r.matchWith (Rule.callWithin table depth) true cur {} with ⟨_ | found, f₁⟩ <;> simp

theorem outcome_capture (field : String) (r : Rule) (cur : Cursor) :
    (Rule.capture field r).outcome table depth cur =
      (r.outcome table depth cur).map fun (next, fragment) =>
        (next, .fields [(field, fragment.toNode (cur.spanTo next))]) := by
  have hs := @matchWith_fst table depth r true cur {}
  rw [Rule.outcome, Rule.matchWithin, Rule.matchWith, ← hs]
  rcases r.matchWith (Rule.callWithin table depth) true cur {} with ⟨_ | found, f₁⟩ <;> rfl

theorem outcome_labelled (label : String) (r : Rule) (cur : Cursor) :
    (Rule.labelled label r).outcome table depth cur = r.outcome table depth cur := by
  have hs := @matchWith_fst table depth r true cur {}
  rw [Rule.outcome, Rule.matchWithin, Rule.matchWith, ← hs]
  rcases r.matchWith (Rule.callWithin table depth) true cur {} with ⟨_ | found, f₁⟩ <;> rfl

theorem outcome_quiet (r : Rule) (cur : Cursor) :
    (Rule.quiet r).outcome table depth cur = r.outcome table depth cur := by
  rw [Rule.outcome, Rule.matchWithin, Rule.matchWith]
  rfl

theorem outcome_ref (name : String) (cur : Cursor) :
    (Rule.ref name).outcome table (depth + 1) cur =
      (table.lookup name).bind fun r => r.outcome table depth cur := by
  rw [Rule.outcome, Rule.matchWithin, Rule.matchWith, Rule.callWithin]
  cases table.lookup name with
  | some r => exact matchWith_fst r true cur {}
  | none => rfl

theorem outcome_ref_zero (name : String) (cur : Cursor) :
    (Rule.ref name).outcome table 0 cur = none := by
  rw [Rule.outcome, Rule.matchWithin, Rule.matchWith, Rule.callWithin, Rule.refuse, steady_miss]

/-- A sequence matches in two parts. -/
theorem sequence_append_eq_some {rules more : List Rule} {cur last : Cursor} {fragment : Fragment}
    (h : (Rule.sequence (rules ++ more)).outcome table depth cur = some (last, fragment)) :
    ∃ next a b, (Rule.sequence rules).outcome table depth cur = some (next, a) ∧
      (Rule.sequence more).outcome table depth next = some (last, b) ∧
      fragment.toFields = a.toFields ++ b.toFields := by
  induction rules generalizing cur fragment with
  | nil => exact ⟨cur, .empty, fragment, outcome_sequence_nil cur, h, rfl⟩
  | cons r rules ih =>
    obtain ⟨mid, a, b, ha, hb, rfl⟩ := sequence_cons_eq_some.1 h
    obtain ⟨next, c, d, hc, hd, e⟩ := ih hb
    refine ⟨next, a.append c, d, sequence_cons_eq_some.2 ⟨mid, a, c, ha, hc, rfl⟩, hd, ?_⟩
    show a.toFields ++ b.toFields = (a.toFields ++ c.toFields) ++ d.toFields
    rw [e, List.append_assoc]

/-! ## Rules without captures -/

mutual

/-- Whether a rule captures nothing, wherever it matches. -/
def Rule.capturesNone : Rule → Bool
  | .literal _ _ | .chars _ => true
  | .sequence rules | .choice rules => capturesNoneAll rules
  | .repeated r _ _ | .optional r | .notAhead r | .labelled _ r | .quiet r => r.capturesNone
  | .capture _ _ | .ref _ => false

/-- Whether none of the rules captures anything. -/
def Rule.capturesNoneAll : List Rule → Bool
  | [] => true
  | r :: rules => r.capturesNone && capturesNoneAll rules

end

theorem capturesNone_of_mem {rules : List Rule} (h : Rule.capturesNoneAll rules = true) {r : Rule}
    (hr : r ∈ rules) : r.capturesNone = true := by
  induction rules with
  | nil => cases hr
  | cons first rules ih =>
    rw [Rule.capturesNoneAll, Bool.and_eq_true] at h
    rcases List.mem_cons.1 hr with rfl | hr
    · exact h.1
    · exact ih h.2 hr

/-- The rounds of a repetition leave no trees if they capture nothing. -/
theorem repeated_items_nil {r : Rule}
    (h : ∀ cur next fragment, r.outcome table depth cur = some (next, fragment) →
      fragment.toFields = [])
    {least : Nat} {most : Option Nat} {cur next : Cursor} {fragment : Fragment}
    (hm : (Rule.repeated r least most).outcome table depth cur = some (next, fragment)) :
    fragment = .items [] := by
  have hround (cur next : Cursor) (fragment : Fragment)
      (hs : r.outcome table depth cur = some (next, fragment)) :
      fragment.round (cur.spanTo next) = [] := if_pos (h cur next fragment hs)
  obtain ⟨trees, rfl, rfl⟩ := repeated_ind (motive := fun _ _ trees => trees = []) (fun _ => rfl)
    (fun cur fragment hs => hround cur cur fragment hs)
    (fun cur mid _ fragment trees hs _ rest => by rw [hround cur mid fragment hs, rest]; rfl) hm
  rfl

/-- A rule without captures leaves no fields and no trees. -/
theorem eq_empty_of_capturesNone {r : Rule} (hr : r.capturesNone = true) :
    ∀ cur next fragment, r.outcome table depth cur = some (next, fragment) →
      fragment = .empty ∨ fragment = .items [] := by
  induction r using Rule.ind with
  | literal text anyCase =>
    intro cur next fragment hm
    rw [outcome_literal] at hm
    obtain ⟨_, _, e⟩ := Option.map_eq_some_iff.1 hm
    obtain ⟨-, rfl⟩ := Prod.mk.inj e
    exact .inl rfl
  | chars set =>
    intro cur next fragment hm
    rw [outcome_chars] at hm
    obtain ⟨_, _, e⟩ := Option.map_eq_some_iff.1 hm
    obtain ⟨-, rfl⟩ := Prod.mk.inj e
    exact .inl rfl
  | sequence rules ih =>
    rw [Rule.capturesNone] at hr
    induction rules with
    | nil =>
      intro cur next fragment hm
      obtain ⟨-, rfl⟩ := sequence_nil_eq_some.1 hm
      exact .inl rfl
    | cons r rules ihs =>
      intro cur next fragment hm
      obtain ⟨mid, a, b, ha, hb, rfl⟩ := sequence_cons_eq_some.1 hm
      have hfirst := ih r List.mem_cons_self (capturesNone_of_mem hr List.mem_cons_self) cur mid a ha
      rw [Rule.capturesNoneAll, Bool.and_eq_true] at hr
      have hrest := ihs (fun r' h' => ih r' (List.mem_cons_of_mem _ h')) hr.2 mid next b hb
      rcases hfirst with rfl | rfl <;> rcases hrest with rfl | rfl <;> exact .inl rfl
  | choice rules ih =>
    intro cur next fragment hm
    obtain ⟨r, hmem, hm⟩ := choice_eq_some hm
    rw [Rule.capturesNone] at hr
    exact ih r hmem (capturesNone_of_mem hr hmem) cur next fragment hm
  | repeated r least most ih =>
    intro cur next fragment hm
    refine .inr (repeated_items_nil (fun cur next fragment hs => ?_) hm)
    rcases ih hr cur next fragment hs with rfl | rfl <;> rfl
  | optional r ih =>
    intro cur next fragment hm
    rw [outcome_optional] at hm
    cases hs : r.outcome table depth cur with
    | none =>
      rw [hs] at hm
      obtain ⟨-, rfl⟩ := Prod.mk.inj (Option.some.inj hm)
      exact .inl rfl
    | some found =>
      rw [hs] at hm
      exact ih hr cur next fragment (hs.trans hm)
  | notAhead r ih =>
    intro cur next fragment hm
    rw [outcome_notAhead, Option.ite_none_right_eq_some] at hm
    obtain ⟨-, rfl⟩ := Prod.mk.inj (Option.some.inj hm.2)
    exact .inl rfl
  | capture field r ih => cases hr
  | labelled label r ih =>
    intro cur next fragment hm
    rw [outcome_labelled] at hm
    exact ih hr cur next fragment hm
  | quiet r ih =>
    intro cur next fragment hm
    rw [outcome_quiet] at hm
    exact ih hr cur next fragment hm
  | ref name => cases hr

theorem toFields_of_capturesNone {r : Rule} (hr : r.capturesNone = true) (cur next : Cursor)
    (fragment : Fragment) (hm : r.outcome table depth cur = some (next, fragment)) :
    fragment.toFields = [] := by
  rcases eq_empty_of_capturesNone hr cur next fragment hm with rfl | rfl <;> rfl

end

/-- An input is parsed with a rule when the rule matches all of it. -/
theorem parseWithin_eq_ok {g : Grammar} {depth : Nat} {rule : Rule} {input : String} {tree : Tree} :
    g.parseWithin depth rule input = .ok tree ↔
      ∃ next fragment, rule.outcome g.rules depth (.start input) = some (next, fragment) ∧
        next.rest = [] ∧ tree = fragment.toTree ⟨input, 0⟩ := by
  have hs := @matchWithin_fst g.rules depth rule false (.start input) {}
  rw [← hs, Grammar.parseWithin]
  rcases rule.matchWithin g.rules depth false (.start input) {} with
    ⟨_ | ⟨⟨consumed, rest⟩, fragment⟩, f⟩
  · simp
  · constructor
    · cases rest with
      | nil => exact fun h => ⟨_, _, rfl, rfl, (Except.ok.inj h).symm⟩
      | cons c rest => nofun
    · rintro ⟨next, fragment', e, hrest, rfl⟩
      obtain ⟨rfl, rfl⟩ := Prod.mk.inj (Option.some.inj e)
      obtain rfl : rest = [] := hrest
      rfl

/-- An input is parsed when the root matches all of it. -/
theorem parse_eq_ok {depth : Nat} {g : Grammar} {input : String} {tree : Tree} :
    g.parse depth input = .ok tree ↔
      ∃ next fragment,
        g.root.outcome g.rules depth (.start input) = some (next, fragment) ∧
          next.rest = [] ∧ tree = fragment.toTree ⟨input, 0⟩ :=
  parseWithin_eq_ok

end DiagramText.Peg
