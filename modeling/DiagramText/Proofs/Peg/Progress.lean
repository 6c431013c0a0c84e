import DiagramText.Proofs.Peg.Loud
import Mathlib.Data.List.Chain

/-!
# Runs that make progress

`Runs table` leads from a run of a rule to the runs that it is made of. A grammar advances (`Grammar.Advancing`)
if each of its named rules moves on where it matches, and can refer to another before it has moved on only if
that stands earlier in the grammar; `Rule.leading` reads these references off a rule.

In an advancing grammar a reference that is entered inside itself is entered at a later position
(`offset_lt_of_calls`). So references are nested at most so often as there are pairs of a position and a name
(`length_le_of_nested`), a run that may nest them so often refuses none (`Grammar.Advancing.clear`), and
therefore every run has an outcome (`exists_leaves`) and ends (`acc`), also where nothing limits how deeply
references are nested.
-/

namespace DiagramText.Peg

open Relation

/-! ## Runs inside runs -/

/-- A rule that is run at a position, with the number of references that may still be nested there unless
nothing limits it. -/
structure Run where
  limit : Option Nat
  rule : Rule
  cur : Cursor

/-- The run ends with this outcome: the position behind the match if there is one. -/
def Run.Leaves (table : List (String × Rule)) (run : Run) (outcome : Option Cursor) : Prop :=
  match run.limit with
  | some depth => (run.rule.outcome table depth run.cur).map Prod.fst = outcome
  | none => ∃ trace, Traced table run.rule run.cur outcome trace

/-- The runs that a run is made of: those of the parts of its rule, and the rest of a sequence, of a choice or
of a repetition. -/
inductive Runs (table : List (String × Rule)) : Run → Run → Prop
  | member {limit r rules cur} : Runs table ⟨limit, .sequence (r :: rules), cur⟩ ⟨limit, r, cur⟩
  | members {limit r rules cur next} (h : Run.Leaves table ⟨limit, r, cur⟩ (some next)) :
    Runs table ⟨limit, .sequence (r :: rules), cur⟩ ⟨limit, .sequence rules, next⟩
  | alternative {limit r rules cur} : Runs table ⟨limit, .choice (r :: rules), cur⟩ ⟨limit, r, cur⟩
  | alternatives {limit r rules cur} (h : Run.Leaves table ⟨limit, r, cur⟩ none) :
    Runs table ⟨limit, .choice (r :: rules), cur⟩ ⟨limit, .choice rules, cur⟩
  | round {limit r least most cur} (hm : most ≠ some 0) :
    Runs table ⟨limit, .repeated r least most, cur⟩ ⟨limit, r, cur⟩
  | rounds {limit r least most cur next} (hm : most ≠ some 0)
    (h : Run.Leaves table ⟨limit, r, cur⟩ (some next)) (hne : next ≠ cur) :
    Runs table ⟨limit, .repeated r least most, cur⟩
      ⟨limit, .repeated r (least - 1) (most.map (· - 1)), next⟩
  | optional {limit r cur} : Runs table ⟨limit, .optional r, cur⟩ ⟨limit, r, cur⟩
  | notAhead {limit r cur} : Runs table ⟨limit, .notAhead r, cur⟩ ⟨limit, r, cur⟩
  | capture {limit field r cur} : Runs table ⟨limit, .capture field r, cur⟩ ⟨limit, r, cur⟩
  | labelled {limit label r cur} : Runs table ⟨limit, .labelled label r, cur⟩ ⟨limit, r, cur⟩
  | quiet {limit r cur} : Runs table ⟨limit, .quiet r, cur⟩ ⟨limit, r, cur⟩
  | ref {name r cur} (hl : table.lookup name = some r) :
    Runs table ⟨none, .ref name, cur⟩ ⟨none, r, cur⟩
  | refWithin {depth name r cur} (hl : table.lookup name = some r) :
    Runs table ⟨some (depth + 1), .ref name, cur⟩ ⟨some depth, r, cur⟩

/-- A reference that is entered at a position. -/
structure Entry where
  limit : Option Nat
  name : String
  cur : Cursor

/-- The run of the reference. -/
def Entry.run (e : Entry) : Run := ⟨e.limit, .ref e.name, e.cur⟩

/-- Entering a reference leads to entering another one inside it. -/
def Calls (table : List (String × Rule)) (outer inner : Entry) : Prop :=
  TransGen (Runs table) outer.run inner.run

/-- References that the parse of an input enters, each inside the one before it. -/
structure Grammar.Nested (g : Grammar) (limit : Option Nat) (input : String) (calls : List Entry) : Prop where
  entered : ∀ call ∈ calls.head?, ReflTransGen (Runs g.rules) ⟨limit, g.root, .start input⟩ call.run
  chain : calls.IsChain (Calls g.rules)

variable {table : List (String × Rule)} {limit : Option Nat} {depth : Nat} {r : Rule}
  {rules : List Rule} {cur next : Cursor} {a : Fragment}

theorem Run.Leaves.reaches (h : Run.Leaves table ⟨limit, r, cur⟩ (some next)) : cur.Reaches next := by
  cases limit with
  | some depth =>
    obtain ⟨⟨_, a⟩, ho, rfl⟩ := Option.map_eq_some_iff.1 h
    exact outcome_reaches ho
  | none =>
    obtain ⟨trace, ht⟩ := h
    exact ht.reaches next rfl

theorem Runs.reaches {outer inner : Run} (h : Runs table outer inner) : outer.cur.Reaches inner.cur := by
  cases h with
  | members h | rounds _ h => exact h.reaches
  | _ => exact .refl _

/-! ## Leading references -/

namespace Rule

mutual

/-- The names that a run of the rule may refer to before it has moved on. -/
def leading : Rule → List String
  | literal _ _ | chars _ => []
  | sequence rules => leadingAll rules
  | choice rules => leadingAny rules
  | repeated r _ _ | optional r | notAhead r | capture _ r | labelled _ r | quiet r => r.leading
  | ref name => [name]

/-- The names that a sequence of the rules may refer to before it has moved on. -/
def leadingAll : List Rule → List String
  | [] => []
  | r :: rules => r.leading ++ if r.consumes then [] else leadingAll rules

/-- The names that a choice of the rules may refer to before it has moved on. -/
def leadingAny : List Rule → List String
  | [] => []
  | r :: rules => r.leading ++ leadingAny rules

end

end Rule

/-- The place of a name in the grammar. -/
def Grammar.rank (g : Grammar) (name : String) : Nat := g.rules.findIdx (·.1 == name)

/-- The names that the rule may refer to before it has moved on stand among the first `n`. -/
def Grammar.LeadsBelow (g : Grammar) (n : Nat) (r : Rule) : Prop := ∀ name ∈ r.leading, g.rank name < n

/-- Named rules move on where they match, and before that they refer to earlier ones only. -/
structure Grammar.Advancing (g : Grammar) : Prop where
  closed : g.Closed
  consumes : ∀ entry ∈ g.rules, entry.2.consumes = true
  leading : ∀ entry ∈ g.rules, ∀ name ∈ entry.2.leading, g.rank name < g.rank entry.1

instance (g : Grammar) : Decidable g.Advancing :=
  decidable_of_iff (g.Closed ∧ (∀ entry ∈ g.rules, entry.2.consumes = true) ∧
      ∀ entry ∈ g.rules, ∀ name ∈ entry.2.leading, g.rank name < g.rank entry.1)
    ⟨fun h => ⟨h.1, h.2.1, h.2.2⟩, fun h => ⟨h.closed, h.consumes, h.leading⟩⟩

theorem leading_subset_any (hr : r ∈ rules) : r.leading ⊆ Rule.leadingAny rules := by
  induction rules with
  | nil => cases hr
  | cons first rules ih =>
    rw [Rule.leadingAny]
    obtain rfl | hr := List.mem_cons.1 hr
    · exact List.subset_append_left _ _
    · exact List.Subset.trans (ih hr) (List.subset_append_right _ _)

theorem leading_subset_refs (r : Rule) : r.leading ⊆ r.refs := by
  induction r using Rule.ind with
  | literal | chars => exact List.nil_subset _
  | sequence rules ih =>
    rw [Rule.leading, Rule.refs]
    induction rules with
    | nil => exact List.nil_subset _
    | cons r rules ihs =>
      rw [Rule.leadingAll, Rule.refsAll]
      have later := ihs fun r' h' => ih r' (List.mem_cons_of_mem _ h')
      have later' : (if r.consumes then [] else Rule.leadingAll rules) ⊆ Rule.leadingAll rules := by
        split
        · exact List.nil_subset _
        · exact List.Subset.refl _
      exact List.append_subset.2 ⟨List.Subset.trans (ih r List.mem_cons_self) (List.subset_append_left _ _),
        List.Subset.trans (List.Subset.trans later' later) (List.subset_append_right _ _)⟩
  | choice rules ih =>
    rw [Rule.leading, Rule.refs]
    induction rules with
    | nil => exact List.nil_subset _
    | cons r rules ihs =>
      rw [Rule.leadingAny, Rule.refsAll]
      have later := ihs fun r' h' => ih r' (List.mem_cons_of_mem _ h')
      exact List.append_subset.2 ⟨List.Subset.trans (ih r List.mem_cons_self) (List.subset_append_left _ _),
        List.Subset.trans later (List.subset_append_right _ _)⟩
  | repeated r least most ih => exact ih
  | optional r ih | notAhead r ih | capture field r ih | labelled label r ih | quiet r ih => exact ih
  | ref name => exact List.Subset.refl _

section

variable {g : Grammar} {n : Nat} {name : String}

theorem rank_lt (h : (g.rules.lookup name).isSome) : g.rank name < g.rules.length := by
  obtain ⟨rule, h⟩ := Option.isSome_iff_exists.1 h
  exact List.findIdx_lt_length_of_exists ⟨_, mem_of_lookup h, beq_self_eq_true name⟩

/-- All names have a place. -/
theorem leadsBelow_length (hr : r.Defined g.rules) : g.LeadsBelow g.rules.length r :=
  fun name hname => rank_lt (hr name (leading_subset_refs r hname))

theorem defined_of_mem (h : (Rule.sequence rules).Defined table) (hr : r ∈ rules) : r.Defined table :=
  fun name hname => h name (mem_refsAll hr hname)

namespace Grammar.Closed

/-- A run in a closed grammar is made of runs of rules that refer to named rules only. -/
theorem defined_of_runs (h : g.Closed) {outer inner : Run} (hrun : Runs g.rules outer inner)
    (hr : outer.rule.Defined g.rules) : inner.rule.Defined g.rules := by
  cases hrun with
  | member => exact defined_of_mem hr List.mem_cons_self
  | alternative => exact fun name hname => hr name (List.mem_append_left _ hname)
  | members | alternatives => exact fun name hname => hr name (List.mem_append_right _ hname)
  | ref hl | refWithin hl => exact h.of_lookup _ _ hl
  | _ => exact hr

theorem defined_of_entered (h : g.Closed) {outer inner : Run}
    (hrun : ReflTransGen (Runs g.rules) outer inner) (hr : outer.rule.Defined g.rules) :
    inner.rule.Defined g.rules := by
  induction hrun with
  | refl => exact hr
  | tail _ hrun ih => exact h.defined_of_runs hrun ih

end Grammar.Closed

/-! ## Runs that refuse nothing -/

/-- Runs of the rule from a position on refuse no reference. -/
def Clear (table : List (String × Rule)) (depth : Nat) (r : Rule) (cur : Cursor) : Prop :=
  ∀ silent f, (r.matchWithin table depth silent cur f).2.refused = f.refused

theorem Clear.run (h : Clear table depth r cur) (silent : Bool) (f : Frontier) :
    ∃ f', r.matchWith (Rule.callWithin table depth) silent cur f = (r.outcome table depth cur, f') ∧
      f'.refused = f.refused :=
  ⟨(r.matchWithin table depth silent cur f).2, Prod.ext (matchWith_fst r silent cur f) rfl, h silent f⟩

theorem refused_miss (describe : Unit → String) (silent : Bool) (cur : Cursor) (f : Frontier) :
    (miss describe silent cur f).2.refused = f.refused := by
  unfold miss
  split
  · rfl
  · exact refused_add ..

theorem clear_literal (text : String) (anyCase : Bool) (cur : Cursor) :
    Clear table depth (.literal text anyCase) cur := by
  intro silent f
  rw [Rule.matchWithin, Rule.matchWith]
  split
  · rfl
  · exact refused_miss ..

theorem clear_chars (set : CharClass) (cur : Cursor) : Clear table depth (.chars set) cur := by
  intro silent f
  rw [Rule.matchWithin, Rule.matchWith]
  split
  · rfl
  · exact refused_miss ..

theorem clear_sequence_nil (cur : Cursor) : Clear table depth (.sequence []) cur := by
  intro silent f
  rw [Rule.matchWithin, Rule.matchWith, Rule.matchAll]

theorem clear_sequence_cons (h : Clear table depth r cur)
    (hs : ∀ next a, r.outcome table depth cur = some (next, a) → Clear table depth (.sequence rules) next) :
    Clear table depth (.sequence (r :: rules)) cur := by
  intro silent f
  obtain ⟨f', hrun, hf'⟩ := h.run silent f
  rw [Rule.matchWithin, Rule.matchWith, Rule.matchAll, hrun]
  cases ho : r.outcome table depth cur with
  | none => exact hf'
  | some found =>
    have := hs found.1 found.2 ho silent f'
    rw [Rule.matchWithin, Rule.matchWith, matchAll_snd _ _ _ (Fragment.empty.append found.2)] at this
    exact this.trans hf'

theorem clear_choice (h : ∀ r ∈ rules, Clear table depth r cur) :
    Clear table depth (.choice rules) cur := by
  induction rules with
  | nil =>
    intro silent f
    rw [Rule.matchWithin, Rule.matchWith, Rule.matchAny]
  | cons r rules ih =>
    intro silent f
    obtain ⟨f', hrun, hf'⟩ := (h r List.mem_cons_self).run silent f
    rw [Rule.matchWithin, Rule.matchWith, Rule.matchAny, hrun]
    cases r.outcome table depth cur with
    | none =>
      have := ih (fun r' h' => h r' (List.mem_cons_of_mem _ h')) silent f'
      rw [Rule.matchWithin, Rule.matchWith] at this
      exact this.trans hf'
    | some found => exact hf'

theorem clear_repeated {least : Nat} {most : Option Nat} (h : Clear table depth r cur)
    (hs : ∀ next a, r.outcome table depth cur = some (next, a) → next ≠ cur →
      Clear table depth (.repeated r (least - 1) (most.map (· - 1))) next) :
    Clear table depth (.repeated r least most) cur := by
  intro silent f
  obtain ⟨f', hrun, hf'⟩ := h.run silent f
  rw [Rule.matchWithin, matchWith_repeated (matchWithin_reaches table depth r), hrun]
  by_cases hmost : most = some 0
  · simp only [hmost, ↓reduceIte]
  · simp only [hmost, ↓reduceIte]
    cases ho : r.outcome table depth cur with
    | none => exact hf'
    | some found =>
      by_cases hne : found.1 = cur
      · simp only [hne, ↓reduceIte]
        exact hf'
      · simp only [hne, ↓reduceIte]
        exact (hs found.1 found.2 ho hne silent f').trans hf'

theorem clear_optional (h : Clear table depth r cur) : Clear table depth (.optional r) cur := by
  intro silent f
  obtain ⟨f', hrun, hf'⟩ := h.run silent f
  rw [Rule.matchWithin, Rule.matchWith, hrun]
  cases r.outcome table depth cur <;> exact hf'

theorem clear_notAhead (h : Clear table depth r cur) : Clear table depth (.notAhead r) cur := by
  intro silent f
  obtain ⟨f', hrun, hf'⟩ := h.run true f
  rw [Rule.matchWithin, Rule.matchWith, hrun]
  cases r.outcome table depth cur <;> exact hf'

theorem clear_capture (field : String) (h : Clear table depth r cur) :
    Clear table depth (.capture field r) cur := by
  intro silent f
  obtain ⟨f', hrun, hf'⟩ := h.run silent f
  rw [Rule.matchWithin, Rule.matchWith, hrun]
  cases r.outcome table depth cur <;> exact hf'

theorem clear_labelled (label : String) (h : Clear table depth r cur) :
    Clear table depth (.labelled label r) cur := by
  intro silent f
  obtain ⟨f', hrun, hf'⟩ := h.run silent f
  rw [Rule.matchWithin, Rule.matchWith, hrun]
  cases r.outcome table depth cur with
  | none =>
    simp only
    split <;> exact hf'
  | some found => exact hf'

theorem clear_quiet (h : Clear table depth r cur) : Clear table depth (.quiet r) cur := by
  intro silent f
  rw [Rule.matchWithin, Rule.matchWith]
  exact h true f

theorem clear_ref (hl : table.lookup name = some r) (h : Clear table depth r cur) :
    Clear table (depth + 1) (.ref name) cur := by
  intro silent f
  simp only [Rule.matchWithin, Rule.matchWith, Rule.callWithin, hl]
  exact h silent f

/-- Whether references may be nested so often as there are pairs of a later position and a name, and `n` more
of them at this position. -/
def Grammar.Room (g : Grammar) (depth : Nat) (cur : Cursor) (n : Nat) : Prop :=
  cur.rest.length * g.rules.length + n ≤ depth

/-- There is room for all names at a later position. -/
theorem Grammar.Room.later (h : g.Room depth cur n) (hreach : cur.Reaches next) (hne : next ≠ cur) :
    g.Room depth next g.rules.length := by
  have shorter := Nat.mul_le_mul_right g.rules.length (hreach.length_lt hne)
  rw [Nat.succ_mul] at shorter
  rw [Room] at h ⊢
  omega

namespace Grammar.Advancing

theorem consumes_of_lookup (h : g.Advancing) (name : String) (r : Rule)
    (hl : g.rules.lookup name = some r) : r.consumes = true :=
  h.consumes _ (mem_of_lookup hl)

theorem clear_of_refs (h : g.Advancing)
    (hrefs : ∀ name cur n, (g.rules.lookup name).isSome → g.rank name < n → g.Room depth cur n →
      Clear g.rules depth (.ref name) cur)
    (hr : r.Defined g.rules) (hlead : g.LeadsBelow n r) (hroom : g.Room depth cur n) :
    Clear g.rules depth r cur := by
  induction r using Rule.ind generalizing cur n with
  | literal text anyCase => exact clear_literal text anyCase cur
  | chars set => exact clear_chars set cur
  | sequence rules ih =>
    induction rules generalizing cur n with
    | nil => exact clear_sequence_nil cur
    | cons r rules ihs =>
      rw [LeadsBelow, Rule.leading, Rule.leadingAll] at hlead
      have hfirst := defined_of_mem hr List.mem_cons_self
      have hrest : (Rule.sequence rules).Defined g.rules := fun name hname =>
        hr name (List.mem_append_right _ hname)
      have later := @ihs fun r' h' => @ih r' (List.mem_cons_of_mem _ h')
      refine clear_sequence_cons
        (ih r List.mem_cons_self hfirst (fun name hname => hlead name (List.mem_append_left _ hname)) hroom)
        fun next a ho => ?_
      by_cases hne : next = cur
      · -- only a rule that stays where it is leaves the position to the rest of the sequence
        subst hne
        have stays : ¬ r.consumes = true := fun hc =>
          Nat.lt_irrefl _ (lt_of_consumes h.consumes_of_lookup hc ho)
        rw [if_neg stays] at hlead
        exact later hrest (fun name hname => hlead name (List.mem_append_right _ hname)) hroom
      · exact later hrest (leadsBelow_length hrest) (hroom.later (outcome_reaches ho) hne)
  | choice rules ih =>
    refine clear_choice fun r hr' => ?_
    exact ih r hr' (defined_of_mem hr hr') (fun name hname => hlead name (leading_subset_any hr' hname)) hroom
  | repeated r least most ih =>
    induction hn : cur.rest.length using Nat.strongRecOn generalizing cur n least most with
    | ind _ rounds =>
      refine clear_repeated (ih hr hlead hroom) fun next a ho hne => ?_
      have hreach := outcome_reaches ho
      exact rounds _ (hn ▸ hreach.length_lt hne) _ _ hr (leadsBelow_length hr) (hroom.later hreach hne) rfl
  | optional r ih => exact clear_optional (ih hr hlead hroom)
  | notAhead r ih => exact clear_notAhead (ih hr hlead hroom)
  | capture field r ih => exact clear_capture field (ih hr hlead hroom)
  | labelled label r ih => exact clear_labelled label (ih hr hlead hroom)
  | quiet r ih => exact clear_quiet (ih hr hlead hroom)
  | ref name =>
    exact hrefs name cur n (hr name (List.mem_singleton.2 rfl)) (hlead name (List.mem_singleton.2 rfl)) hroom

/-- A run refuses nothing where there is room for what its rule leads to. -/
theorem clear (h : g.Advancing) (hr : r.Defined g.rules) (hlead : g.LeadsBelow n r)
    (hroom : g.Room depth cur n) : Clear g.rules depth r cur := by
  induction depth generalizing r cur n with
  | zero =>
    refine h.clear_of_refs (fun name cur n _ hrank hroom => ?_) hr hlead hroom
    rw [Room] at hroom
    omega
  | succ depth below =>
    refine h.clear_of_refs (fun name cur n hname hrank hroom => ?_) hr hlead hroom
    obtain ⟨rule, hl⟩ := Option.isSome_iff_exists.1 hname
    refine clear_ref hl (below (h.closed.of_lookup name rule hl) (h.leading _ (mem_of_lookup hl)) ?_)
    rw [Room] at hroom ⊢
    exact Nat.le_of_lt_succ (Nat.lt_of_lt_of_le (Nat.add_lt_add_left hrank _) hroom)

/-- What a run does that has room for all names. -/
theorem traced_outcome (h : g.Advancing) (hr : r.Defined g.rules) (cur : Cursor) :
    ∃ depth trace, Traced g.rules r cur ((r.outcome g.rules depth cur).map Prod.fst) trace := by
  have hclear := h.clear hr (leadsBelow_length hr) (Nat.le_refl (cur.rest.length * g.rules.length + _))
  obtain ⟨trace, ht, -⟩ :=
    matchWithin_follows h.closed.of_lookup _ r hr true cur {} _ _ rfl (hclear true {})
  exact ⟨_, trace, ht⟩

/-- Every run has an outcome. -/
theorem exists_leaves (h : g.Advancing) {run : Run} (hr : run.rule.Defined g.rules) :
    ∃ outcome, run.Leaves g.rules outcome := by
  obtain ⟨_ | depth, r, cur⟩ := run
  · obtain ⟨depth, trace, ht⟩ := h.traced_outcome hr cur
    exact ⟨_, trace, ht⟩
  · exact ⟨_, rfl⟩

/-- A rule that consumes moves on. -/
theorem ne_of_consumes (h : g.Advancing) (hr : r.Defined g.rules) (hc : r.consumes = true)
    (hleaves : Run.Leaves g.rules ⟨limit, r, cur⟩ (some next)) : next ≠ cur := by
  have within : ∃ depth, (r.outcome g.rules depth cur).map Prod.fst = some next := by
    cases limit with
    | some depth => exact ⟨depth, hleaves⟩
    | none =>
      obtain ⟨trace, ht⟩ := hleaves
      obtain ⟨depth, trace', ht'⟩ := h.traced_outcome hr cur
      exact ⟨depth, (ht.unique ht').1⟩
  obtain ⟨depth, hmatch⟩ := within
  obtain ⟨⟨_, a⟩, ho, rfl⟩ := Option.map_eq_some_iff.1 hmatch
  rintro rfl
  exact Nat.lt_irrefl _ (lt_of_consumes h.consumes_of_lookup hc ho)

/-! ## References inside references -/

/-- The runs inside a run at its position lead to nothing that it does not lead to. -/
theorem leadsBelow_of_runs (h : g.Advancing) {outer inner : Run} (hrun : Runs g.rules outer inner)
    (hcur : inner.cur = outer.cur) (hr : outer.rule.Defined g.rules) (hlead : g.LeadsBelow n outer.rule) :
    g.LeadsBelow n inner.rule := by
  cases hrun with
  | member => exact fun name hname => hlead name (List.mem_append_left _ hname)
  | @members _ first _ _ _ hleaves =>
    have stays : ¬ first.consumes = true := fun hc =>
      h.ne_of_consumes (defined_of_mem hr List.mem_cons_self) hc hleaves hcur
    rw [LeadsBelow, Rule.leading, Rule.leadingAll, if_neg stays] at hlead
    exact fun name hname => hlead name (List.mem_append_right _ hname)
  | alternative => exact fun name hname => hlead name (List.mem_append_left _ hname)
  | alternatives => exact fun name hname => hlead name (List.mem_append_right _ hname)
  | rounds _ _ hne => exact absurd hcur hne
  | ref hl | refWithin hl =>
    exact fun name hname => Nat.lt_trans (h.leading _ (mem_of_lookup hl) name hname)
      (hlead _ (List.mem_singleton.2 rfl))
  | _ => exact hlead

/-- Inside a reference, at the position where it is entered, only earlier names are referred to. -/
theorem leadsBelow_rank (h : g.Advancing) {outer : Entry} {inner : Run}
    (hrun : TransGen (Runs g.rules) outer.run inner) :
    inner.rule.Defined g.rules ∧ outer.cur.Reaches inner.cur ∧
      (inner.cur = outer.cur → g.LeadsBelow (g.rank outer.name) inner.rule) := by
  induction hrun with
  | single hrun =>
    obtain ⟨limit, name, cur⟩ := outer
    cases hrun with
    | ref hl | refWithin hl =>
      exact ⟨h.closed.of_lookup _ _ hl, .refl _, fun _ => h.leading _ (mem_of_lookup hl)⟩
  | @tail mid last _ hrun ih =>
    obtain ⟨hr, hreach, hlead⟩ := ih
    refine ⟨h.closed.defined_of_runs hrun hr, hreach.trans hrun.reaches, fun same => ?_⟩
    have hmid : mid.cur = outer.cur :=
      hreach.eq_of_offset (Nat.le_antisymm (same ▸ hrun.reaches.offset_le) hreach.offset_le)
    exact h.leadsBelow_of_runs hrun (same.trans hmid.symm) hr (hlead hmid)

/-- A reference that is entered inside itself is entered at a later position. -/
theorem offset_lt_of_calls (h : g.Advancing) {outer inner : Entry} (hcalls : Calls g.rules outer inner)
    (hname : inner.name = outer.name) : outer.cur.offset < inner.cur.offset := by
  obtain ⟨-, hreach, hlead⟩ := h.leadsBelow_rank hcalls
  have later : inner.cur ≠ outer.cur := fun same => by
    have earlier := hlead same inner.name (List.mem_singleton.2 rfl)
    exact Nat.lt_irrefl _ (hname ▸ earlier)
  exact Nat.lt_of_le_of_ne hreach.offset_le fun same => later (hreach.eq_of_offset same.symm)

/-- How many pairs of a position and a name may still be entered inside a reference. -/
def weight (g : Grammar) (e : Entry) : Nat := e.cur.rest.length * g.rules.length + g.rank e.name

theorem weight_lt_of_calls (h : g.Advancing) {outer inner : Entry} (hcalls : Calls g.rules outer inner) :
    weight g inner < weight g outer := by
  obtain ⟨hr, hreach, hlead⟩ := h.leadsBelow_rank hcalls
  rw [weight, weight]
  by_cases hne : inner.cur = outer.cur
  · have lower := hlead hne inner.name (List.mem_singleton.2 rfl)
    rw [hne]
    exact Nat.add_lt_add_left lower _
  · have shorter : (inner.cur.rest.length + 1) * g.rules.length ≤ outer.cur.rest.length * g.rules.length :=
      Nat.mul_le_mul_right _ (hreach.length_lt hne)
    have inTable := rank_lt (hr inner.name (List.mem_singleton.2 rfl))
    rw [Nat.succ_mul] at shorter
    omega

theorem length_le_weight (h : g.Advancing) {calls : List Entry} (hchain : calls.IsChain (Calls g.rules))
    (hhead : ∀ call ∈ calls.head?, weight g call < n) : calls.length ≤ n := by
  induction calls generalizing n with
  | nil => exact Nat.zero_le n
  | cons call calls ih =>
    have lighter : ∀ inner ∈ calls.head?, weight g inner < weight g call := by
      intro inner hinner
      obtain ⟨more, rfl⟩ := List.head?_eq_some_iff.1 hinner
      exact h.weight_lt_of_calls (List.isChain_cons_cons.1 hchain).1
    have := ih hchain.tail lighter
    have := hhead call rfl
    rw [List.length_cons]
    omega

/-- What the parse of an input enters is defined, and lies in the input. -/
theorem defined_of_entered (h : g.Advancing) {input : String} {inner : Run}
    (hrun : ReflTransGen (Runs g.rules) ⟨limit, g.root, .start input⟩ inner) :
    inner.rule.Defined g.rules ∧ (Cursor.start input).Reaches inner.cur := by
  induction hrun with
  | refl => exact ⟨h.closed.root, .refl _⟩
  | tail _ hrun ih => exact ⟨h.closed.defined_of_runs hrun ih.1, ih.2.trans hrun.reaches⟩

/-- References are nested at most so often as there are pairs of a position and a name. -/
theorem length_le_of_nested (h : g.Advancing) {input : String} {calls : List Entry}
    (hcalls : g.Nested limit input calls) : calls.length ≤ (input.length + 1) * g.rules.length := by
  refine h.length_le_weight hcalls.chain fun call hcall => ?_
  obtain ⟨hr, hreach⟩ := h.defined_of_entered (hcalls.entered call hcall)
  have fewer : call.cur.rest.length ≤ input.length := hreach.length_le
  have fewer := Nat.mul_le_mul_right g.rules.length fewer
  have inTable := rank_lt (hr call.name (List.mem_singleton.2 rfl))
  rw [weight, Nat.succ_mul]
  omega

/-! ## Runs that end -/

/-- A run whose runs inside all end, ends: those further on, those of an earlier name, and those of parts of
its rule. -/
theorem acc_of_runs (h : g.Advancing)
    (later : ∀ run : Run, run.rule.Defined g.rules → run.cur.rest.length < cur.rest.length →
      Acc (flip (Runs g.rules)) run)
    (named : ∀ limit name r, g.rules.lookup name = some r → g.rank name < n →
      Acc (flip (Runs g.rules)) ⟨limit, r, cur⟩)
    (hr : r.Defined g.rules) (hlead : g.LeadsBelow n r) : Acc (flip (Runs g.rules)) ⟨limit, r, cur⟩ := by
  have onward {limit next} {r rest : Rule} (hrest : rest.Defined g.rules)
      (hleaves : Run.Leaves g.rules ⟨limit, r, cur⟩ (some next)) (hne : next ≠ cur) :
      Acc (flip (Runs g.rules)) ⟨limit, rest, next⟩ :=
    later _ hrest (hleaves.reaches.length_lt hne)
  induction r using Rule.ind with
  | literal | chars => exact ⟨_, nofun⟩
  | sequence rules ih =>
    induction rules with
    | nil => exact ⟨_, nofun⟩
    | cons r rules ihs =>
      have hrest : (Rule.sequence rules).Defined g.rules := fun name hname =>
        hr name (List.mem_append_right _ hname)
      refine ⟨_, fun inner hrun => ?_⟩
      have below := fun hcur => h.leadsBelow_of_runs hrun hcur hr hlead
      cases hrun with
      | member => exact ih r List.mem_cons_self (defined_of_mem hr List.mem_cons_self) (below rfl)
      | @members _ _ _ _ next hleaves =>
        by_cases hne : next = cur
        · subst hne
          exact ihs (fun r' h' => ih r' (List.mem_cons_of_mem _ h')) hrest (below rfl)
        · exact onward hrest hleaves hne
  | choice rules ih =>
    induction rules with
    | nil => exact ⟨_, nofun⟩
    | cons r rules ihs =>
      refine ⟨_, fun inner hrun => ?_⟩
      have below := fun hcur => h.leadsBelow_of_runs hrun hcur hr hlead
      cases hrun with
      | alternative => exact ih r List.mem_cons_self (defined_of_mem hr List.mem_cons_self) (below rfl)
      | alternatives =>
        exact ihs (fun r' h' => ih r' (List.mem_cons_of_mem _ h'))
          (fun name hname => hr name (List.mem_append_right _ hname)) (below rfl)
  | repeated r least most ih =>
    refine ⟨_, fun inner hrun => ?_⟩
    cases hrun with
    | round => exact ih hr hlead
    | rounds _ hleaves hne => exact onward hr hleaves hne
  | optional r ih | notAhead r ih | capture field r ih | labelled label r ih | quiet r ih =>
    refine ⟨_, fun inner hrun => ?_⟩
    cases hrun
    exact ih hr hlead
  | ref name =>
    refine ⟨_, fun inner hrun => ?_⟩
    cases hrun with
    | ref hl | refWithin hl => exact named _ name _ hl (hlead name (List.mem_singleton.2 rfl))

/-- Every run ends. -/
theorem acc (h : g.Advancing) (run : Run) (hr : run.rule.Defined g.rules) :
    Acc (flip (Runs g.rules)) run := by
  induction hlength : run.cur.rest.length using Nat.strongRecOn generalizing run with
  | ind length further =>
    obtain ⟨limit, r, cur⟩ := run
    have below (n : Nat) (limit : Option Nat) (r : Rule) (hr : r.Defined g.rules)
        (hlead : g.LeadsBelow n r) : Acc (flip (Runs g.rules)) ⟨limit, r, cur⟩ := by
      induction n using Nat.strongRecOn generalizing limit r with
      | ind n earlier =>
        refine h.acc_of_runs (fun run hrun hlt => further _ (hlength ▸ hlt) run hrun rfl) ?_ hr hlead
        exact fun limit name r hl hrank =>
          earlier _ hrank limit r (h.closed.of_lookup name r hl) (h.leading _ (mem_of_lookup hl))
    exact below _ limit r hr (leadsBelow_length hr)

end Grammar.Advancing

end

end DiagramText.Peg
