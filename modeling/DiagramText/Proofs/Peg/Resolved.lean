import DiagramText.Proofs.Peg.Congruence
import DiagramText.Proofs.Peg.Progress
import Mathlib.Data.List.Induction

/-!
# References that resolve

The definitions of a grammar leave each name with the rule that it was given last (`Rule.latest?`,
`lookup_stored`). They make up a grammar if and only if there is a root and every name that it or one of these
rules mentions, at whatever depth, has a definition (`exists_build?`). Then a run can only meet names that have
a rule: the runs of which it is made stay among rules whose names are defined
(`Grammar.Closed.defined_of_entered`). The evaluator never looks for a rule that is not there, whatever it would
then do (`Rule.callOr`, `Rule.callOr_eq`).
-/

namespace DiagramText.Peg

open Relation

/-! ## What is mentioned and what is defined -/

/-- The name is referred to somewhere in the rule. -/
inductive Rule.Mentions (name : String) : Rule → Prop
  | ref : Mentions name (.ref name)
  | sequence {rules r} (hr : r ∈ rules) (h : Mentions name r) : Mentions name (.sequence rules)
  | choice {rules r} (hr : r ∈ rules) (h : Mentions name r) : Mentions name (.choice rules)
  | repeated {r least most} (h : Mentions name r) : Mentions name (.repeated r least most)
  | optional {r} (h : Mentions name r) : Mentions name (.optional r)
  | notAhead {r} (h : Mentions name r) : Mentions name (.notAhead r)
  | capture {field r} (h : Mentions name r) : Mentions name (.capture field r)
  | labelled {label r} (h : Mentions name r) : Mentions name (.labelled label r)
  | quiet {r} (h : Mentions name r) : Mentions name (.quiet r)

/-- The names that are collected from a rule are those that it mentions. -/
theorem mem_refs {name : String} {r : Rule} : name ∈ r.refs ↔ r.Mentions name := by
  constructor
  · intro h
    induction r using Rule.ind with
    | literal | chars => cases h
    | sequence rules ih =>
      rw [Rule.refs, refsAll_eq] at h
      obtain ⟨r, hr, h⟩ := List.mem_flatMap.1 h
      exact .sequence hr (ih r hr h)
    | choice rules ih =>
      rw [Rule.refs, refsAll_eq] at h
      obtain ⟨r, hr, h⟩ := List.mem_flatMap.1 h
      exact .choice hr (ih r hr h)
    | repeated r least most ih => exact .repeated (ih h)
    | optional r ih => exact .optional (ih h)
    | notAhead r ih => exact .notAhead (ih h)
    | capture field r ih => exact .capture (ih h)
    | labelled label r ih => exact .labelled (ih h)
    | quiet r ih => exact .quiet (ih h)
    | ref other =>
      obtain rfl := List.mem_singleton.1 h
      exact .ref
  · intro h
    induction h with
    | ref => exact List.mem_singleton.2 rfl
    | sequence hr _ ih | choice hr _ ih => exact mem_refsAll hr ih
    | repeated _ ih | optional _ ih | notAhead _ ih | capture _ ih | labelled _ ih | quiet _ ih => exact ih

/-- The rule that a name is given last. -/
def Rule.latest? (definitions : List (String × Rule)) (name : String) : Option Rule :=
  definitions.reverse.lookup name

theorem latest?_concat (definitions : List (String × Rule)) (defined : String) (r : Rule) (name : String) :
    Rule.latest? (definitions ++ [(defined, r)]) name =
      if name = defined then some r else Rule.latest? definitions name := by
  rw [Rule.latest?, List.reverse_append, List.reverse_singleton, List.singleton_append, List.lookup_cons]
  split <;> simp_all [Rule.latest?]

theorem latest?_isSome {definitions : List (String × Rule)} {name : String} :
    (Rule.latest? definitions name).isSome ↔ ∃ r, (name, r) ∈ definitions := by
  rw [Rule.latest?, List.lookup_isSome_iff]
  constructor
  · rintro ⟨⟨other, r⟩, hmem, e⟩
    obtain rfl := eq_of_beq e
    exact ⟨r, List.mem_reverse.1 hmem⟩
  · rintro ⟨r, hmem⟩
    exact ⟨(name, r), List.mem_reverse.2 hmem, beq_self_eq_true name⟩

theorem mem_define {rules : List (String × Rule)} {defined name : String} {rule r : Rule} :
    (name, r) ∈ define rules defined rule ↔
      if name = defined then r = rule else (name, r) ∈ rules := by
  rw [define, List.mem_append, List.mem_filter, List.mem_singleton, Prod.mk.injEq]
  split <;> simp_all

/-- A name keeps the rule that it is given last, and no other. -/
theorem mem_stored {definitions : List (String × Rule)} {name : String} {r : Rule} :
    (name, r) ∈ stored definitions ↔ Rule.latest? definitions name = some r := by
  induction definitions using List.reverseRecOn with
  | nil => exact ⟨nofun, nofun⟩
  | append_singleton definitions entry ih =>
    rw [stored_concat, mem_define, latest?_concat]
    split
    · rw [Option.some.injEq, eq_comm]
    · exact ih

theorem lookup_stored (definitions : List (String × Rule)) (name : String) :
    (stored definitions).lookup name = Rule.latest? definitions name := by
  cases h : (stored definitions).lookup name with
  | some r => exact (mem_stored.1 (mem_of_lookup h)).symm
  | none =>
    refine (Option.eq_none_iff_forall_ne_some.2 fun r hr => ?_).symm
    have hne := List.lookup_eq_none_iff.1 h (name, r) (mem_stored.2 hr)
    exact (bne_iff_ne.1 hne) rfl

/-! ## Definitions that make up a grammar -/

theorem defined_stored {definitions : List (String × Rule)} {r : Rule} :
    r.Defined (stored definitions) ↔ ∀ ref, r.Mentions ref → ∃ rule, (ref, rule) ∈ definitions := by
  simp only [Rule.Defined, lookup_stored, latest?_isSome, mem_refs]

/-- Definitions make up a grammar if and only if there is a root and every name that it mentions, or one of the
rules that were given last, is defined. -/
theorem exists_build? {name : String} {root : Option Rule} {definitions : List (String × Rule)} :
    (∃ g, Grammar.build? name root definitions = .ok g) ↔
      ∃ r, root = some r ∧ ∀ ref,
        (r.Mentions ref ∨ ∃ owner rule, Rule.latest? definitions owner = some rule ∧ rule.Mentions ref) →
          ∃ rule, (ref, rule) ∈ definitions := by
  constructor
  · rintro ⟨g, h⟩
    obtain ⟨r, rfl, hnil, -⟩ := build?_eq_ok.1 h
    have hclosed : Grammar.Closed ⟨name, r, stored definitions⟩ := undefinedNames_eq_nil.1 hnil
    refine ⟨r, rfl, ?_⟩
    rintro ref (h | ⟨owner, rule, hl, h⟩)
    · exact defined_stored.1 hclosed.root ref h
    · exact defined_stored.1 (hclosed.rules _ (mem_stored.2 hl)) ref h
  · rintro ⟨r, rfl, h⟩
    have hclosed : Grammar.Closed ⟨name, r, stored definitions⟩ :=
      ⟨defined_stored.2 fun ref hr => h ref (.inl hr), fun entry he => defined_stored.2 fun ref hr =>
        h ref (.inr ⟨entry.1, entry.2, mem_stored.1 he, hr⟩)⟩
    exact ⟨_, build?_eq_ok.2 ⟨r, rfl, undefinedNames_eq_nil.2 hclosed, rfl⟩⟩

/-! ## Runs that meet defined names only -/

/-- How a name is matched if `missing` matches those that the table lacks. -/
def Rule.callOr (missing : String → Matcher) (table : List (String × Rule)) : Nat → String → Matcher
  | 0, _ => refuse
  | depth + 1, name =>
    match table.lookup name with
    | some r => r.matchWith (callOr missing table depth)
    | none => missing name

section

variable {g : Grammar}

/-- What would match a name without a rule makes no difference to a name that has one. -/
theorem callOr_eq (hg : g.Closed) (missing : String → Matcher) (depth : Nat) {name : String}
    (h : (g.rules.lookup name).isSome) :
    Rule.callOr missing g.rules depth name = Rule.callWithin g.rules depth name := by
  induction depth generalizing name with
  | zero => rfl
  | succ depth ih =>
    obtain ⟨r, hl⟩ := Option.isSome_iff_exists.1 h
    simp only [Rule.callOr, Rule.callWithin, hl]
    exact matchWith_congr_refs fun ref href => ih (hg.of_lookup name r hl ref href)

theorem matchWith_callOr (hg : g.Closed) (missing : String → Matcher) (depth : Nat) {r : Rule}
    (hr : r.Defined g.rules) :
    r.matchWith (Rule.callOr missing g.rules depth) = r.matchWithin g.rules depth :=
  matchWith_congr_refs fun name hname => callOr_eq hg missing depth (hr name hname)

/-- The root of a closed grammar and its rules refer to names that have a rule. -/
theorem defined_of_start (hg : g.Closed) {start : Rule}
    (hstart : start = g.root ∨ ∃ name, g.rules.lookup name = some start) : start.Defined g.rules := by
  rcases hstart with rfl | ⟨name, hl⟩
  · exact hg.root
  · exact hg.of_lookup name start hl

end

/-- Definitions make up a grammar exactly if it has a root and no name without a definition is mentioned in it or
in one of the rules that were given last. These are then the rules of the grammar, and no run meets a name
without a rule, be it of the root or of a rule, on whatever input and however deeply references may be nested:
every reference among the runs that it is made of has one, and the run is the same whatever matched a name that
has none. -/
theorem built_grammar_resolves (name : String) (root : Option Rule) (definitions : List (String × Rule)) :
    ((∃ g, Grammar.build? name root definitions = .ok g) ↔
      ∃ r, root = some r ∧ ∀ ref,
        (r.Mentions ref ∨ ∃ owner rule, Rule.latest? definitions owner = some rule ∧ rule.Mentions ref) →
          ∃ rule, (ref, rule) ∈ definitions) ∧
    ∀ g, Grammar.build? name root definitions = .ok g →
      root = some g.root ∧ (∀ ref, g.rules.lookup ref = Rule.latest? definitions ref) ∧
      ∀ start, (start = g.root ∨ ∃ ref, g.rules.lookup ref = some start) →
        (∀ missing depth,
          start.matchWith (Rule.callOr missing g.rules depth) = start.matchWithin g.rules depth) ∧
        ∀ limit input run ref, ReflTransGen (Runs g.rules) ⟨limit, start, .start input⟩ run →
          run.rule = .ref ref → ∃ rule, g.rules.lookup ref = some rule := by
  refine ⟨exists_build?, fun g hbuild => ?_⟩
  have hg := closed_of_build? hbuild
  obtain ⟨r, rfl, -, rfl⟩ := build?_eq_ok.1 hbuild
  refine ⟨rfl, lookup_stored definitions, fun start hstart => ?_⟩
  have hdefined := defined_of_start hg hstart
  refine ⟨fun missing depth => matchWith_callOr hg missing depth hdefined, ?_⟩
  intro limit input run ref hrun hrule
  have hrun := hg.defined_of_entered hrun hdefined
  rw [hrule] at hrun
  exact Option.isSome_iff_exists.1 (hrun ref (List.mem_singleton.2 rfl))

/-- The grammar of sums is built, although a first definition of its terms refers to a name that has none; and
its parse of `1` enters the rule of that name. -/
theorem sums_resolve :
    Grammar.build? "sums" (some sums.root) (("term", .ref "digit") :: sums.rules) = .ok sums ∧
      ReflTransGen (Runs sums.rules) ⟨some 1000, sums.root, .start "1"⟩ ⟨some 1000, .ref "term", .start "1"⟩ ∧
      ∃ rule, sums.rules.lookup "term" = some rule := by
  have hbuild : Grammar.build? "sums" (some sums.root) (("term", .ref "digit") :: sums.rules) = .ok sums := by
    rfl
  have hrun : ReflTransGen (Runs sums.rules) ⟨some 1000, sums.root, .start "1"⟩
      ⟨some 1000, .ref "term", .start "1"⟩ := .single .member
  have h := (built_grammar_resolves "sums" (some sums.root) (("term", .ref "digit") :: sums.rules)).2 sums hbuild
  exact ⟨hbuild, hrun, (h.2.2 sums.root (.inl rfl)).2 _ _ _ _ hrun rfl⟩

end DiagramText.Peg
