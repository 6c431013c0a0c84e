import DiagramText.Proofs.Peg.Grammar
import DiagramText.Proofs.Peg.Outcome
import Mathlib.Data.List.Basic
import Mathlib.Data.List.Induction

/-!
# Wrappers for reports

A label and a `quiet` change what a report says, and nothing else. `Rule.bare` is a rule without them, at
whatever depth they stand. Wherever it is matched it gives what the rule gives (`outcome_bare`), by the
equations of `Rule.outcome`: that of a wrapper only speaks of the rule inside. So a grammar and the grammar
without any wrapper accept the same inputs, with the same trees (`parse_bare`).
-/

namespace DiagramText.Peg

/-! ## Rules without wrappers -/

namespace Rule

mutual

/-- The rule without the labels and the `quiet`s in it. -/
def bare : Rule → Rule
  | literal text anyCase => literal text anyCase
  | chars set => chars set
  | sequence rules => sequence (bareAll rules)
  | choice rules => choice (bareAll rules)
  | repeated r least most => repeated r.bare least most
  | optional r => optional r.bare
  | notAhead r => notAhead r.bare
  | capture field r => capture field r.bare
  | labelled _ r | quiet r => r.bare
  | ref name => ref name

/-- Each of the rules without its wrappers. -/
def bareAll : List Rule → List Rule
  | [] => []
  | r :: rules => r.bare :: bareAll rules

end

mutual

/-- Whether there is no label and no `quiet` in the rule. -/
def isBare : Rule → Bool
  | literal _ _ | chars _ | ref _ => true
  | sequence rules | choice rules => areBare rules
  | repeated r _ _ | optional r | notAhead r | capture _ r => r.isBare
  | labelled _ _ | quiet _ => false

/-- Whether there is no label and no `quiet` in any of the rules. -/
def areBare : List Rule → Bool
  | [] => true
  | r :: rules => r.isBare && areBare rules

end

theorem bareAll_eq (rules : List Rule) : bareAll rules = rules.map bare := by
  induction rules with
  | nil => rfl
  | cons r rules ih => rw [bareAll, ih, List.map_cons]

theorem areBare_eq (rules : List Rule) : areBare rules = rules.all isBare := by
  induction rules with
  | nil => rfl
  | cons r rules ih => rw [areBare, ih, List.all_cons]

theorem isBare_bare (r : Rule) : r.bare.isBare = true := by
  induction r using Rule.ind with
  | literal | chars | ref => rfl
  | sequence rules ih | choice rules ih =>
    rw [bare, isBare, areBare_eq, bareAll_eq, List.all_eq_true]
    intro _ hmem
    obtain ⟨r, hr, rfl⟩ := List.mem_map.1 hmem
    exact ih r hr
  | repeated _ _ _ ih | optional _ ih | notAhead _ ih | capture _ _ ih | labelled _ _ ih | quiet _ ih =>
    exact ih

/-- A rule without wrappers is left as it is. -/
theorem bare_of_isBare {r : Rule} (h : r.isBare = true) : r.bare = r := by
  induction r using Rule.ind with
  | literal | chars | ref => rfl
  | sequence rules ih | choice rules ih =>
    rw [isBare, areBare_eq, List.all_eq_true] at h
    rw [bare, bareAll_eq, List.map_congr_left fun r hr => ih r hr (h r hr), List.map_id']
  | repeated r _ _ ih | optional r ih | notAhead r ih | capture _ r ih => rw [bare, ih h]
  | labelled | quiet => cases h

/-- The rule refers to the names that it referred to with its wrappers. -/
theorem refs_bare (r : Rule) : r.bare.refs = r.refs := by
  induction r using Rule.ind with
  | literal | chars | ref => rfl
  | sequence rules ih | choice rules ih =>
    rw [bare, refs, refs, refsAll_eq, refsAll_eq, bareAll_eq, List.flatMap_map]
    exact List.flatMap_congr ih
  | repeated _ _ _ ih | optional _ ih | notAhead _ ih | capture _ _ ih | labelled _ _ ih | quiet _ ih =>
    exact ih

end Rule

/-- Every rule of a table without its wrappers. -/
def bareTable (table : List (String × Rule)) : List (String × Rule) :=
  table.map fun (name, r) => (name, r.bare)

theorem lookup_bareTable (table : List (String × Rule)) (name : String) :
    (bareTable table).lookup name = (table.lookup name).map Rule.bare :=
  lookup_map_snd Rule.bare table name

/-! ## What they match -/

section

variable {table table' : List (String × Rule)} {depth depth' : Nat}

/-- A repetition gives what its rounds make of it. -/
theorem outcome_repeated_congr {r r' : Rule}
    (h : ∀ cur, r'.outcome table' depth' cur = r.outcome table depth cur) (least : Nat)
    (most : Option Nat) (cur : Cursor) :
    (Rule.repeated r' least most).outcome table' depth' cur =
      (Rule.repeated r least most).outcome table depth cur := by
  have hround (cur : Cursor) (f f' : Frontier) :
      (r'.matchWith (Rule.callWithin table' depth') true cur f).1 =
        (r.matchWith (Rule.callWithin table depth) true cur f').1 := by
    rw [matchWith_fst, matchWith_fst, h]
  have hrounds := rounds_steady hround most cur.rest 0 cur [] {} {}
  rw [Rule.outcome, Rule.outcome, Rule.matchWithin, Rule.matchWithin, Rule.matchWith, Rule.matchWith]
  revert hrounds
  rcases rounds _ most cur.rest 0 cur [] {} with ⟨found, f₁⟩
  rcases rounds _ most cur.rest 0 cur [] {} with ⟨found', f₂⟩
  rintro (rfl : found = found')
  rfl

theorem outcome_bare_of_refs
    (hrefs : ∀ name cur, (Rule.ref name).outcome (bareTable table) depth cur =
      (Rule.ref name).outcome table depth cur) (r : Rule) (cur : Cursor) :
    r.bare.outcome (bareTable table) depth cur = r.outcome table depth cur := by
  induction r using Rule.ind generalizing cur with
  | literal text anyCase => rw [Rule.bare, outcome_literal, outcome_literal]
  | chars set => rw [Rule.bare, outcome_chars, outcome_chars]
  | sequence rules ih =>
    rw [Rule.bare]
    induction rules generalizing cur with
    | nil => rw [Rule.bareAll, outcome_sequence_nil, outcome_sequence_nil]
    | cons r rules ihs =>
      have hrest := ihs fun r' h' => ih r' (List.mem_cons_of_mem _ h')
      simp only [Rule.bareAll, outcome_sequence_cons, ih r List.mem_cons_self, hrest]
  | choice rules ih =>
    rw [Rule.bare]
    induction rules with
    | nil => rw [Rule.bareAll, outcome_choice_nil, outcome_choice_nil]
    | cons r rules ihs =>
      have hrest := ihs fun r' h' => ih r' (List.mem_cons_of_mem _ h')
      simp only [Rule.bareAll, outcome_choice_cons, ih r List.mem_cons_self, hrest]
  | repeated r least most ih => exact outcome_repeated_congr ih least most cur
  | optional r ih => rw [Rule.bare, outcome_optional, outcome_optional, ih]
  | notAhead r ih => rw [Rule.bare, outcome_notAhead, outcome_notAhead, ih]
  | capture field r ih => rw [Rule.bare, outcome_capture, outcome_capture, ih]
  | labelled label r ih => rw [Rule.bare, outcome_labelled, ih]
  | quiet r ih => rw [Rule.bare, outcome_quiet, ih]
  | ref name => exact hrefs name cur

/-- A rule without its wrappers gives what the rule gives, to any depth of references. -/
theorem outcome_bare (table : List (String × Rule)) (depth : Nat) (r : Rule) (cur : Cursor) :
    r.bare.outcome (bareTable table) depth cur = r.outcome table depth cur := by
  induction depth generalizing r cur with
  | zero =>
    exact outcome_bare_of_refs (fun name cur => by rw [outcome_ref_zero, outcome_ref_zero]) r cur
  | succ depth below =>
    refine outcome_bare_of_refs (fun name cur => ?_) r cur
    rw [outcome_ref, outcome_ref, lookup_bareTable]
    cases table.lookup name with
    | none => rfl
    | some r => exact below r cur

end

/-! ## Grammars without wrappers -/

namespace Grammar

/-- The grammar with every wrapper removed, from its root and from all its rules. -/
def bare (g : Grammar) : Grammar := ⟨g.name, g.root.bare, bareTable g.rules⟩

end Grammar

theorem undefinedNames_bare (root : Rule) (rules : List (String × Rule)) :
    Grammar.undefinedNames root.bare (bareTable rules) = Grammar.undefinedNames root rules := by
  have hrefs : (bareTable rules).flatMap (·.2.refs) = rules.flatMap (·.2.refs) := by
    rw [bareTable, List.flatMap_map]
    exact List.flatMap_congr fun entry _ => Rule.refs_bare entry.2
  have hnames (name : String) : (bareTable rules).any (·.1 == name) = rules.any (·.1 == name) := by
    rw [bareTable, List.any_map]
    rfl
  simp only [Grammar.undefinedNames, Rule.refs_bare, hrefs, hnames]

theorem define_bareTable (rules : List (String × Rule)) (name : String) (r : Rule) :
    define (bareTable rules) name r.bare = bareTable (define rules name r) := by
  rw [define, bareTable, bareTable, List.filter_map, define, List.map_append]
  rfl

theorem stored_bareTable (definitions : List (String × Rule)) :
    stored (bareTable definitions) = bareTable (stored definitions) := by
  induction definitions using List.reverseRecOn with
  | nil => rfl
  | append_singleton definitions entry ih =>
    rw [stored_concat, ← define_bareTable, ← ih, ← stored_concat, bareTable, List.map_append]
    rfl

/-- Definitions without wrappers make up the grammar without wrappers, and are refused where those with
wrappers are. -/
theorem build?_bare (name : String) (root : Option Rule) (definitions : List (String × Rule)) :
    Grammar.build? name (root.map Rule.bare) (bareTable definitions) =
      (Grammar.build? name root definitions).map Grammar.bare := by
  cases root with
  | none => rfl
  | some root =>
    rw [Option.map_some, build?_some, build?_some, stored_bareTable, undefinedNames_bare]
    split <;> rfl

/-- Whether an input is parsed with a rule, and with which tree, does not depend on wrappers. -/
theorem parseWithin_bare (g : Grammar) (depth : Nat) (r : Rule) (input : String) :
    (g.bare.parseWithin depth r.bare input).toOption = (g.parseWithin depth r input).toOption := by
  refine Option.ext fun tree => ?_
  have toOption_eq_some (e : Except Failure Tree) : e.toOption = some tree ↔ e = .ok tree := by
    cases e <;> simp [Except.toOption]
  rw [toOption_eq_some, toOption_eq_some, parseWithin_eq_ok, parseWithin_eq_ok]
  simp only [Grammar.bare, outcome_bare]

/-- The wrappers of a grammar have no part in what it accepts: without any of them it accepts the same
inputs with the same trees, from its root and from each of its rules. -/
theorem parse_bare (g : Grammar) :
    g.bare.root.isBare = true ∧ (∀ entry ∈ g.bare.rules, entry.2.isBare = true) ∧
      ∀ depth input, (g.bare.parse depth input).toOption = (g.parse depth input).toOption ∧
        ∀ name, (g.bare.parseRule depth name input).toOption = (g.parseRule depth name input).toOption := by
  refine ⟨Rule.isBare_bare g.root, ?_, fun depth input => ⟨?_, fun name => ?_⟩⟩
  · intro entry hmem
    obtain ⟨⟨name, r⟩, -, rfl⟩ := List.mem_map.1 hmem
    exact Rule.isBare_bare r
  · exact parseWithin_bare g depth g.root input
  · have hl : g.bare.rules.lookup name = (g.rules.lookup name).map Rule.bare :=
      lookup_bareTable g.rules name
    rw [Grammar.parseRule, Grammar.parseRule, hl]
    cases g.rules.lookup name with
    | none => rfl
    | some r => exact parseWithin_bare g depth r input

/-- Only the report of a failure tells the two apart. -/
example : sums.parse 20 "1+x" = .error ⟨2, ["number"]⟩ ∧
    sums.bare.parse 20 "1+x" = .error ⟨2, ["'0'..'9'"]⟩ :=
  ⟨rfl, rfl⟩

end DiagramText.Peg
