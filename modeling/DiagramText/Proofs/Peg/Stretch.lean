import DiagramText.Proofs.Peg.Outcome
import DiagramText.Proofs.Peg.Trace

/-!
# How far a run stretches

Where a parse fails, the frontier tells how far it got. What a rule adds to that at a position depends on
the rule and the position only: the run moves the frontier to `Rule.stretch`, unless the frontier is there
already, and a silent run leaves it (`Stretches`). As with outcomes there is an equation for every form of
rule, from `stretch_literal` to `stretch_ref`, without any state. `offset_of_parse_error` says where a failed
parse is reported.
-/

namespace DiagramText.Peg

variable {table : List (String × Rule)} {depth : Nat} {r : Rule} {rules : List Rule} {cur : Cursor}
  {s : Nat}

/-- The greatest offset at which a run of the rule from a position on expects something in vain; zero if
it finds all that it expects. -/
def Rule.stretch (table : List (String × Rule)) (depth : Nat) (r : Rule) (cur : Cursor) : Nat :=
  (r.matchWithin table depth false cur {}).2.offset

/-- The offset of a frontier after a run that stretches to `s`. -/
def Frontier.offsetAfter (f : Frontier) (silent : Bool) (s : Nat) : Nat :=
  if silent then f.offset else max f.offset s

theorem offsetAfter_zero (f : Frontier) (silent : Bool) : f.offsetAfter silent 0 = f.offset := by
  rw [Frontier.offsetAfter, Nat.max_zero, ite_self]

theorem offsetAfter_max {f f' : Frontier} {silent : Bool} {s s' : Nat}
    (h : f'.offset = f.offsetAfter silent s) : f'.offsetAfter silent s' = f.offsetAfter silent (max s s') := by
  unfold Frontier.offsetAfter at *
  split at h
  · simp [*]
  · simp [*, Nat.max_assoc]

/-- Runs of the rule from a position on move the frontier to `s`. -/
def Stretches (table : List (String × Rule)) (depth : Nat) (r : Rule) (cur : Cursor) (s : Nat) : Prop :=
  ∀ silent f, (r.matchWithin table depth silent cur f).2.offset = f.offsetAfter silent s

theorem Stretches.eq (h : Stretches table depth r cur s) : r.stretch table depth cur = s := by
  rw [Rule.stretch, h false {}]
  exact Nat.zero_max s

theorem offset_miss (describe : Unit → String) (silent : Bool) (cur : Cursor) (f : Frontier) :
    (miss describe silent cur f).2.offset = f.offsetAfter silent cur.offset := by
  unfold miss Frontier.offsetAfter
  cases silent
  · by_cases h : cur.offset < f.offset
    · simp [h, Nat.max_eq_left (Nat.le_of_lt h)]
    · simp [h, offset_add]
  · rfl

/-- A run splits into its outcome and the frontier that it leaves. -/
theorem Stretches.run (h : Stretches table depth r cur s) (silent : Bool) (f : Frontier) :
    ∃ f', r.matchWith (Rule.callWithin table depth) silent cur f = (r.outcome table depth cur, f') ∧
      f'.offset = f.offsetAfter silent s :=
  ⟨(r.matchWithin table depth silent cur f).2, Prod.ext (matchWith_fst r silent cur f) rfl, h silent f⟩

/-! ## The forms of rules -/

theorem stretches_literal (text : String) (anyCase : Bool) (cur : Cursor) :
    Stretches table depth (.literal text anyCase) cur
      (if (cur.skip? text anyCase).isSome then 0 else cur.offset) := by
  intro silent f
  rw [Rule.matchWithin, Rule.matchWith]
  cases h : cur.skip? text anyCase with
  | none => exact offset_miss _ silent cur f
  | some next => exact (offsetAfter_zero f silent).symm

theorem stretches_chars (set : CharClass) (cur : Cursor) :
    Stretches table depth (.chars set) cur (if (cur.next? set).isSome then 0 else cur.offset) := by
  intro silent f
  rw [Rule.matchWithin, Rule.matchWith]
  cases h : cur.next? set with
  | none => exact offset_miss _ silent cur f
  | some next => exact (offsetAfter_zero f silent).symm

theorem stretches_sequence_nil (cur : Cursor) : Stretches table depth (.sequence []) cur 0 := by
  intro silent f
  rw [Rule.matchWithin, Rule.matchWith, Rule.matchAll, offsetAfter_zero]

theorem stretches_sequence_cons {rest : Cursor → Nat} (h : Stretches table depth r cur s)
    (hrest : ∀ next a, r.outcome table depth cur = some (next, a) →
      Stretches table depth (.sequence rules) next (rest next)) :
    Stretches table depth (.sequence (r :: rules)) cur
      (max s ((r.outcome table depth cur).elim 0 fun found => rest found.1)) := by
  intro silent f
  obtain ⟨f', hrun, hf'⟩ := h.run silent f
  rw [Rule.matchWithin, Rule.matchWith, Rule.matchAll, hrun]
  cases ho : r.outcome table depth cur with
  | none => exact hf'.trans (by rw [Option.elim_none, Nat.max_zero])
  | some found =>
    obtain ⟨next, a⟩ := found
    have := hrest next a ho silent f'
    rw [Rule.matchWithin, Rule.matchWith, matchAll_snd _ _ _ (Fragment.empty.append a)] at this
    exact this.trans (offsetAfter_max hf')

theorem stretches_choice_nil (cur : Cursor) : Stretches table depth (.choice []) cur 0 := by
  intro silent f
  rw [Rule.matchWithin, Rule.matchWith, Rule.matchAny, offsetAfter_zero]

theorem stretches_choice_cons {s' : Nat} (h : Stretches table depth r cur s)
    (hrest : Stretches table depth (.choice rules) cur s') :
    Stretches table depth (.choice (r :: rules)) cur
      (max s (if (r.outcome table depth cur).isSome then 0 else s')) := by
  intro silent f
  obtain ⟨f', hrun, hf'⟩ := h.run silent f
  rw [Rule.matchWithin, Rule.matchWith, Rule.matchAny, hrun]
  cases ho : r.outcome table depth cur with
  | none =>
    have := hrest silent f'
    rw [Rule.matchWithin, Rule.matchWith] at this
    exact this.trans (offsetAfter_max hf')
  | some found => exact hf'.trans (by rw [Option.isSome_some, if_pos rfl, Nat.max_zero])

/-- How far a repetition stretches, where its round stretches to `s` and the rounds after it to `rest`. -/
def stretchRounds (most : Option Nat) (outcome : Outcome) (cur : Cursor) (s : Nat) (rest : Cursor → Nat) :
    Nat :=
  if most = some 0 then 0
  else max s (outcome.elim 0 fun found => if found.1 = cur then 0 else rest found.1)

theorem stretches_repeated {least : Nat} {most : Option Nat} {rest : Cursor → Nat}
    (h : Stretches table depth r cur s)
    (hrest : ∀ next a, r.outcome table depth cur = some (next, a) → next ≠ cur →
      Stretches table depth (.repeated r (least - 1) (most.map (· - 1))) next (rest next)) :
    Stretches table depth (.repeated r least most) cur
      (stretchRounds most (r.outcome table depth cur) cur s rest) := by
  intro silent f
  obtain ⟨f', hrun, hf'⟩ := h.run silent f
  rw [Rule.matchWithin, matchWith_repeated (matchWithin_reaches table depth r), hrun, stretchRounds]
  by_cases hmost : most = some 0
  · simp only [hmost, ↓reduceIte, offsetAfter_zero]
  · simp only [hmost, ↓reduceIte]
    cases ho : r.outcome table depth cur with
    | none => exact hf'.trans (by rw [Option.elim_none, Nat.max_zero])
    | some found =>
      obtain ⟨next, a⟩ := found
      by_cases hne : next = cur
      · simp only [hne, ↓reduceIte, Option.elim_some, Nat.max_zero]
        exact hf'
      · simp only [hne, ↓reduceIte, Option.elim_some]
        exact (hrest next a ho hne silent f').trans (offsetAfter_max hf')

theorem stretches_optional (h : Stretches table depth r cur s) :
    Stretches table depth (.optional r) cur s := by
  intro silent f
  obtain ⟨f', hrun, hf'⟩ := h.run silent f
  rw [Rule.matchWithin, Rule.matchWith, hrun]
  cases r.outcome table depth cur <;> exact hf'

theorem stretches_notAhead (h : Stretches table depth r cur s) :
    Stretches table depth (.notAhead r) cur 0 := by
  intro silent f
  obtain ⟨f', hrun, hf'⟩ := h.run true f
  rw [Rule.matchWithin, Rule.matchWith, hrun, offsetAfter_zero]
  cases r.outcome table depth cur <;> exact hf'

theorem stretches_capture (field : String) (h : Stretches table depth r cur s) :
    Stretches table depth (.capture field r) cur s := by
  intro silent f
  obtain ⟨f', hrun, hf'⟩ := h.run silent f
  rw [Rule.matchWithin, Rule.matchWith, hrun]
  cases r.outcome table depth cur <;> exact hf'

/-- A label that fails counts where it starts, if its rule got no further. -/
theorem stretches_labelled (label : String) (h : Stretches table depth r cur s) :
    Stretches table depth (.labelled label r) cur
      (if (r.outcome table depth cur).isSome then s else max s cur.offset) := by
  intro silent f
  obtain ⟨f', hrun, hf'⟩ := h.run silent f
  rw [Rule.matchWithin, Rule.matchWith, hrun]
  cases r.outcome table depth cur with
  | some found => exact hf'
  | none =>
    cases silent with
    | true => exact hf'
    | false =>
      simp only [Frontier.offsetAfter, Bool.false_eq_true, ↓reduceIte] at hf'
      simp only [Frontier.offsetAfter, Bool.false_eq_true, ↓reduceIte, Bool.false_or, decide_eq_true_eq,
        Option.isSome_none]
      by_cases hlt : cur.offset < f'.offset
      · simp only [hlt, ↓reduceIte]
        omega
      · simp only [hlt, ↓reduceIte, offset_add]
        omega

theorem stretches_quiet (h : Stretches table depth r cur s) :
    Stretches table depth (.quiet r) cur 0 := by
  intro silent f
  rw [offsetAfter_zero, Rule.matchWithin, Rule.matchWith]
  exact h true f

theorem stretches_ref {name : String} (h : ∀ r, table.lookup name = some r →
      Stretches table depth r cur (r.stretch table depth cur)) :
    Stretches table (depth + 1) (.ref name) cur
      ((table.lookup name).elim 0 fun r => r.stretch table depth cur) := by
  intro silent f
  rw [Rule.matchWithin, Rule.matchWith, Rule.callWithin]
  cases hl : table.lookup name with
  | none => exact (offsetAfter_zero f silent).symm
  | some r => exact h r hl silent f

theorem stretches_ref_zero (name : String) (cur : Cursor) :
    Stretches table 0 (.ref name) cur cur.offset := by
  intro silent f
  rw [Rule.matchWithin, Rule.matchWith, Rule.callWithin, Rule.refuse]
  exact offset_miss _ silent cur f

/-! ## All rules -/

theorem exists_stretches_of_refs
    (hrefs : ∀ name cur, ∃ s, Stretches table depth (.ref name) cur s) (r : Rule) (cur : Cursor) :
    ∃ s, Stretches table depth r cur s := by
  induction r using Rule.ind generalizing cur with
  | literal text anyCase => exact ⟨_, stretches_literal text anyCase cur⟩
  | chars set => exact ⟨_, stretches_chars set cur⟩
  | sequence rules ih =>
    induction rules generalizing cur with
    | nil => exact ⟨_, stretches_sequence_nil cur⟩
    | cons r rules ihs =>
      obtain ⟨s, hs⟩ := ih r List.mem_cons_self cur
      obtain ⟨rest, hrest⟩ := Classical.skolem.1 (ihs fun r' h' => ih r' (List.mem_cons_of_mem _ h'))
      exact ⟨_, stretches_sequence_cons hs fun next _ _ => hrest next⟩
  | choice rules ih =>
    induction rules with
    | nil => exact ⟨_, stretches_choice_nil cur⟩
    | cons r rules ihs =>
      obtain ⟨s, hs⟩ := ih r List.mem_cons_self cur
      obtain ⟨s', hs'⟩ := ihs fun r' h' => ih r' (List.mem_cons_of_mem _ h')
      exact ⟨_, stretches_choice_cons hs hs'⟩
  | repeated r least most ih =>
    -- the rounds after one that moves on have fewer characters left
    induction hn : cur.rest.length using Nat.strongRecOn generalizing cur least most with
    | ind n rounds =>
      obtain ⟨s, hs⟩ := ih cur
      have (next : Cursor) : ∃ s', next.rest.length < n →
          Stretches table depth (.repeated r (least - 1) (most.map (· - 1))) next s' := by
        by_cases hlt : next.rest.length < n
        · obtain ⟨s', hs'⟩ := rounds next.rest.length hlt (least - 1) (most.map (· - 1)) next rfl
          exact ⟨s', fun _ => hs'⟩
        · exact ⟨0, fun h => absurd h hlt⟩
      obtain ⟨rest, hrest⟩ := Classical.skolem.1 this
      exact ⟨_, stretches_repeated hs fun next a ho hne =>
        hrest next (hn ▸ (outcome_reaches ho).length_lt hne)⟩
  | optional r ih => exact (ih cur).imp fun _ => stretches_optional
  | notAhead r ih => exact ⟨0, (ih cur).elim fun _ => stretches_notAhead⟩
  | capture field r ih => exact (ih cur).imp fun _ => stretches_capture field
  | labelled label r ih => exact (ih cur).elim fun _ h => ⟨_, stretches_labelled label h⟩
  | quiet r ih => exact ⟨0, (ih cur).elim fun _ => stretches_quiet⟩
  | ref name => exact hrefs name cur

/-- Runs of a rule from a position on stretch to where one of them does. -/
theorem stretches (r : Rule) (cur : Cursor) : Stretches table depth r cur (r.stretch table depth cur) := by
  have all (r : Rule) (cur : Cursor) : ∃ s, Stretches table depth r cur s := by
    induction depth generalizing r cur with
    | zero => exact exists_stretches_of_refs (fun name cur => ⟨_, stretches_ref_zero name cur⟩) r cur
    | succ depth below =>
      refine exists_stretches_of_refs (fun name cur => ⟨_, stretches_ref fun r _ => ?_⟩) r cur
      obtain ⟨s, hs⟩ := below r cur
      exact hs.eq ▸ hs
  obtain ⟨s, hs⟩ := all r cur
  exact hs.eq ▸ hs

theorem stretch_literal (text : String) (anyCase : Bool) (cur : Cursor) :
    (Rule.literal text anyCase).stretch table depth cur =
      if (cur.skip? text anyCase).isSome then 0 else cur.offset :=
  (stretches_literal text anyCase cur).eq

theorem stretch_chars (set : CharClass) (cur : Cursor) :
    (Rule.chars set).stretch table depth cur = if (cur.next? set).isSome then 0 else cur.offset :=
  (stretches_chars set cur).eq

theorem stretch_sequence_nil (cur : Cursor) : (Rule.sequence []).stretch table depth cur = 0 :=
  (stretches_sequence_nil cur).eq

theorem stretch_sequence_cons (r : Rule) (rules : List Rule) (cur : Cursor) :
    (Rule.sequence (r :: rules)).stretch table depth cur =
      max (r.stretch table depth cur)
        ((r.outcome table depth cur).elim 0 fun found =>
          (Rule.sequence rules).stretch table depth found.1) :=
  (stretches_sequence_cons (stretches r cur) fun next _ _ => stretches (.sequence rules) next).eq

theorem stretch_choice_nil (cur : Cursor) : (Rule.choice []).stretch table depth cur = 0 :=
  (stretches_choice_nil cur).eq

theorem stretch_choice_cons (r : Rule) (rules : List Rule) (cur : Cursor) :
    (Rule.choice (r :: rules)).stretch table depth cur =
      max (r.stretch table depth cur)
        (if (r.outcome table depth cur).isSome then 0 else (Rule.choice rules).stretch table depth cur) :=
  (stretches_choice_cons (stretches r cur) (stretches (.choice rules) cur)).eq

theorem stretch_repeated (r : Rule) (least : Nat) (most : Option Nat) (cur : Cursor) :
    (Rule.repeated r least most).stretch table depth cur =
      stretchRounds most (r.outcome table depth cur) cur (r.stretch table depth cur)
        ((Rule.repeated r (least - 1) (most.map (· - 1))).stretch table depth) :=
  (stretches_repeated (stretches r cur) fun next _ _ _ => stretches _ next).eq

theorem stretch_optional (r : Rule) (cur : Cursor) :
    (Rule.optional r).stretch table depth cur = r.stretch table depth cur :=
  (stretches_optional (stretches r cur)).eq

theorem stretch_notAhead (r : Rule) (cur : Cursor) : (Rule.notAhead r).stretch table depth cur = 0 :=
  (stretches_notAhead (stretches r cur)).eq

theorem stretch_capture (field : String) (r : Rule) (cur : Cursor) :
    (Rule.capture field r).stretch table depth cur = r.stretch table depth cur :=
  (stretches_capture field (stretches r cur)).eq

theorem stretch_labelled (label : String) (r : Rule) (cur : Cursor) :
    (Rule.labelled label r).stretch table depth cur =
      if (r.outcome table depth cur).isSome then r.stretch table depth cur
      else max (r.stretch table depth cur) cur.offset :=
  (stretches_labelled label (stretches r cur)).eq

theorem stretch_quiet (r : Rule) (cur : Cursor) : (Rule.quiet r).stretch table depth cur = 0 :=
  (stretches_quiet (stretches r cur)).eq

theorem stretch_ref (name : String) (cur : Cursor) :
    (Rule.ref name).stretch table (depth + 1) cur =
      (table.lookup name).elim 0 fun r => r.stretch table depth cur :=
  (stretches_ref fun r _ => stretches r cur).eq

theorem stretch_ref_zero (name : String) (cur : Cursor) :
    (Rule.ref name).stretch table 0 cur = cur.offset :=
  (stretches_ref_zero name cur).eq

/-! ## Parses -/

/-- A parse fails where its root stretches to, or behind the match of the root if that is further. -/
theorem offset_of_parse_error {g : Grammar} {input : String} {failure : Failure}
    (h : g.parse depth input = .error failure) :
    failure.offset = max (g.root.stretch g.rules depth (.start input))
      ((g.root.outcome g.rules depth (.start input)).elim 0 fun found => found.1.offset) := by
  obtain ⟨f', hrun, hf'⟩ := (stretches g.root (.start input)).run false {}
  have hf' : f'.offset = g.root.stretch g.rules depth (.start input) :=
    hf'.trans (Nat.zero_max _)
  rw [Grammar.parse, Grammar.parseWithin, Rule.matchWithin, hrun] at h
  rcases ho : g.root.outcome g.rules depth (.start input) with
    _ | ⟨⟨consumed, _ | ⟨c, rest⟩⟩, fragment⟩ <;> rw [ho] at h
  · obtain rfl := Except.error.inj h
    exact hf'.trans (Nat.max_zero _).symm
  · cases h
  · obtain rfl := Except.error.inj h
    exact (offset_add f' consumed "end of input").trans (by rw [hf', Option.elim_some])

end DiagramText.Peg
