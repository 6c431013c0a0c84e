import DiagramText.Peg.Grammar

/-!
# Built grammars

Building a grammar checks that it is closed: every name that its root or one of its rules refers to
has a rule (`closed_of_build?`). An input fits a rule when no reference of its run is nested too
deeply (`Grammar.Fits`); the depth then has no part in the run.
-/

namespace DiagramText.Peg

/-- Every name that a rule refers to has a rule in the table. -/
def Rule.Defined (table : List (String × Rule)) (r : Rule) : Prop :=
  ∀ name ∈ r.refs, (table.lookup name).isSome

instance (table : List (String × Rule)) (r : Rule) : Decidable (r.Defined table) :=
  inferInstanceAs (Decidable (∀ name ∈ r.refs, _))

theorem refsAll_eq (rules : List Rule) : Rule.refsAll rules = rules.flatMap Rule.refs := by
  induction rules with
  | nil => rfl
  | cons r rules ih => rw [Rule.refsAll, ih, List.flatMap_cons]

theorem mem_refsAll {rules : List Rule} {r : Rule} {name : String} (hr : r ∈ rules)
    (h : name ∈ r.refs) : name ∈ Rule.refsAll rules := by
  rw [refsAll_eq]
  exact List.mem_flatMap.2 ⟨r, hr, h⟩

namespace Grammar

/-- Every name that the root or a rule of the grammar refers to has a rule. -/
structure Closed (g : Grammar) : Prop where
  root : g.root.Defined g.rules
  rules : ∀ entry ∈ g.rules, entry.2.Defined g.rules

instance (g : Grammar) : Decidable g.Closed :=
  decidable_of_iff (g.root.Defined g.rules ∧ ∀ entry ∈ g.rules, entry.2.Defined g.rules)
    ⟨fun h => ⟨h.1, h.2⟩, fun h => ⟨h.root, h.rules⟩⟩

/-- No reference of the run of `rule` at the start of `input` is nested more than `depth` deep. -/
def Fits (g : Grammar) (depth : Nat) (rule : Rule) (input : String) : Prop :=
  (rule.matchWithin g.rules depth false (.start input) {}).2.refused = false

instance (g : Grammar) (depth : Nat) (rule : Rule) (input : String) : Decidable (g.Fits depth rule input) :=
  inferInstanceAs (Decidable (_ = false))

end Grammar

theorem mem_of_lookup {α : Type} {table : List (String × α)} {name : String} {a : α}
    (h : table.lookup name = some a) : (name, a) ∈ table := by
  obtain ⟨before, after, rfl, -⟩ := List.lookup_eq_some_iff.1 h
  exact List.mem_append_right _ List.mem_cons_self

theorem lookup_map_snd {α β : Type} (change : α → β) (table : List (String × α)) (name : String) :
    (table.map fun (name, a) => (name, change a)).lookup name = (table.lookup name).map change := by
  induction table with
  | nil => rfl
  | cons entry table ih =>
    rw [List.map_cons, List.lookup_cons, List.lookup_cons]
    cases name == entry.1
    · exact ih
    · rfl

theorem Grammar.Closed.of_lookup {g : Grammar} (h : g.Closed) (name : String) (r : Rule)
    (hl : g.rules.lookup name = some r) : r.Defined g.rules :=
  h.rules _ (mem_of_lookup hl)

theorem mem_undefinedNames {root : Rule} {rules : List (String × Rule)} {name : String} :
    name ∈ Grammar.undefinedNames root rules ↔
      (name ∈ root.refs ∨ ∃ entry ∈ rules, name ∈ entry.2.refs) ∧ ¬ (rules.lookup name).isSome := by
  rw [Grammar.undefinedNames, List.mem_eraseDups, List.mem_filter, List.mem_append, List.mem_flatMap,
    List.lookup_isSome_iff]
  simp only [Bool.not_eq_true', List.any_eq_false, not_exists, not_and, BEq.comm (a := name)]

/-- No name is undefined if and only if the grammar is closed. -/
theorem undefinedNames_eq_nil {name : String} {root : Rule} {rules : List (String × Rule)} :
    Grammar.undefinedNames root rules = [] ↔ Grammar.Closed ⟨name, root, rules⟩ := by
  simp only [List.eq_nil_iff_forall_not_mem, mem_undefinedNames, not_and, Classical.not_not]
  constructor
  · intro h
    exact ⟨fun ref hr => h ref (.inl hr), fun entry he ref hr => h ref (.inr ⟨entry, he, hr⟩)⟩
  · rintro h ref (hr | ⟨entry, he, hr⟩)
    · exact h.root ref hr
    · exact h.rules entry he ref hr

/-- The rules that definitions leave, each name with the last one that it was given. -/
def stored (definitions : List (String × Rule)) : List (String × Rule) :=
  definitions.foldl (fun rules (name, rule) => define rules name rule) []

theorem stored_concat (definitions : List (String × Rule)) (name : String) (rule : Rule) :
    stored (definitions ++ [(name, rule)]) = define (stored definitions) name rule := by
  rw [stored, List.foldl_append]
  rfl

theorem build?_some (name : String) (root : Rule) (definitions : List (String × Rule)) :
    Grammar.build? name (some root) definitions =
      if Grammar.undefinedNames root (stored definitions) = [] then .ok ⟨name, root, stored definitions⟩
      else .error (.undefinedRules (Grammar.undefinedNames root (stored definitions))) := by
  unfold Grammar.build?
  simp only [stored]
  split
  · exact (if_pos ‹_›).symm
  · exact (if_neg ‹_›).symm

/-- What is built are a root without undefined names and the rules that its definitions leave. -/
theorem build?_eq_ok {name : String} {root : Option Rule} {definitions : List (String × Rule)}
    {g : Grammar} :
    Grammar.build? name root definitions = .ok g ↔
      ∃ r, root = some r ∧ Grammar.undefinedNames r (stored definitions) = [] ∧
        g = ⟨name, r, stored definitions⟩ := by
  cases root with
  | none => simp [Grammar.build?]
  | some r =>
    rw [build?_some]
    split
    · rename_i h
      refine ⟨fun e => ⟨r, rfl, h, (Except.ok.inj e).symm⟩, ?_⟩
      rintro ⟨_, ⟨⟩, -, rfl⟩
      rfl
    · rename_i h
      refine ⟨nofun, ?_⟩
      rintro ⟨_, ⟨⟩, h', -⟩
      exact absurd h' h

/-- A grammar that was built is closed. -/
theorem closed_of_build? {name : String} {root : Option Rule} {definitions : List (String × Rule)}
    {g : Grammar} (h : Grammar.build? name root definitions = .ok g) : g.Closed := by
  obtain ⟨r, -, hmissing, rfl⟩ := build?_eq_ok.1 h
  exact undefinedNames_eq_nil.1 hmissing

/-- Sums of numbers: a small grammar on which general statements can be tried. -/
def sums : Grammar :=
  ⟨"sums", .sequence [.ref "term", many (.sequence [lit "+", .ref "term"])],
    [("term", .labelled "number" (many1 (range '0' '9')))]⟩

end DiagramText.Peg
