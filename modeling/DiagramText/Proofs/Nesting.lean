import DiagramText.Proofs.Peg.Progress
import DiagramText.Dialect

/-!
# Nested statements

Each grammar names at most the rule of its statements, which starts with a word or a name of its own: a
statement is entered inside another one only behind its head.

* `references_make_progress` says what this means for every parse: a reference entered inside itself stands
  further on, every run has an outcome and ends, and references are nested at most so often as there are pairs
  of a position and a name.
-/

namespace DiagramText

open Peg Relation

/-- The grammars move on before they refer to a rule again. -/
theorem advancing_grammar (kind : Kind) : kind.dialect.grammar.Advancing := by
  have hall : ∀ kind ∈ Kind.all, kind.dialect.grammar.Advancing := by decide
  exact hall kind kind.mem_all

/-- No grammar recurses without progress. A reference that is entered inside itself is entered at a later
position. Every run has an outcome, and there is no endless chain of runs inside it, so every repetition ends.
The references that are nested are at most as many as there are pairs of a position and a name, and where so
many may be nested, none is refused. -/
theorem references_make_progress (kind : Kind) :
    (∀ outer inner : Entry, Calls kind.dialect.grammar.rules outer inner → inner.name = outer.name →
      outer.cur.offset < inner.cur.offset) ∧
    (∀ run : Run, run.rule.Defined kind.dialect.grammar.rules →
      (∃ outcome, run.Leaves kind.dialect.grammar.rules outcome) ∧
        Acc (flip (Runs kind.dialect.grammar.rules)) run) ∧
    (∀ limit input calls, kind.dialect.grammar.Nested limit input calls →
      calls.length ≤ (input.length + 1) * kind.dialect.grammar.rules.length) ∧
    ∀ depth input, (input.length + 1) * kind.dialect.grammar.rules.length ≤ depth →
      (kind.dialect.grammar.root.matchWithin kind.dialect.grammar.rules depth false (.start input) {}).2.refused
        = false := by
  have h := advancing_grammar kind
  refine ⟨fun outer inner hcalls hname => h.offset_lt_of_calls hcalls hname,
    fun run hr => ⟨h.exists_leaves hr, h.acc run hr⟩,
    fun limit input calls hcalls => h.length_le_of_nested hcalls, fun depth input hdepth => ?_⟩
  have hroot := h.closed.root
  exact h.clear hroot (leadsBelow_length hroot) (by rwa [Grammar.Room, ← Nat.succ_mul]) false {}

section

variable {table : List (String × Rule)} {depth : Nat} {r : Rule} {rules : List Rule} {cur : Cursor}
  {inner : Run}

theorem within_members (next : Cursor) (h : (r.outcome table depth cur).map Prod.fst = some next)
    (hrest : TransGen (Runs table) ⟨some depth, .sequence rules, next⟩ inner) :
    TransGen (Runs table) ⟨some depth, .sequence (r :: rules), cur⟩ inner :=
  .head (.members h) hrest

theorem within_alternatives (h : (r.outcome table depth cur).map Prod.fst = none)
    (hrest : TransGen (Runs table) ⟨some depth, .choice rules, cur⟩ inner) :
    TransGen (Runs table) ⟨some depth, .choice (r :: rules), cur⟩ inner :=
  .head (.alternatives h) hrest

end

/-- A flowchart with a subgraph in a subgraph. -/
def subgraphs : String := "graph\nsubgraph a\nsubgraph b\nend\nend"

/-- The position in it behind so many of its characters, which are all of one byte. -/
def subgraphsFrom (offset : Nat) : Cursor := ⟨offset, subgraphs.toList.drop offset⟩

/-- The subgraph that it starts with. -/
def outerSubgraph : Entry := ⟨some 36, "statement", subgraphsFrom 6⟩

/-- The subgraph inside that one. -/
def innerSubgraph : Entry := ⟨some 35, "statement", subgraphsFrom 17⟩

theorem calls_innerSubgraph : Calls Flowchart.grammar.rules outerSubgraph innerSubgraph :=
  .head (.refWithin rfl) <| .head .labelled <| .head .alternative <| .head .capture <|
  within_members (subgraphsFrom 14) (by decide +kernel) <|
  within_members (subgraphsFrom 15) (by decide +kernel) <|
  within_members (subgraphsFrom 16) (by decide +kernel) <|
  within_members (subgraphsFrom 17) (by decide +kernel) <|
  .head .member <| .head .capture <| .head (.round nofun) <|
  within_alternatives (by decide +kernel) <| .head .alternative <|
  within_members (subgraphsFrom 17) (by decide +kernel) <| .single .member

theorem enters_outerSubgraph :
    TransGen (Runs Flowchart.grammar.rules) ⟨some 36, Flowchart.grammar.root, subgraphsFrom 0⟩
      outerSubgraph.run :=
  within_members (subgraphsFrom 0) (by decide +kernel) <|
  within_members (subgraphsFrom 0) (by decide +kernel) <|
  within_members (subgraphsFrom 5) (by decide +kernel) <|
  within_members (subgraphsFrom 6) (by decide +kernel) <|
  .head .member <| .head .capture <| .head (.round nofun) <|
  within_alternatives (by decide +kernel) <| .head .alternative <|
  within_members (subgraphsFrom 6) (by decide +kernel) <| .single .member

theorem nested_subgraphs : Flowchart.grammar.Nested (some 36) subgraphs [outerSubgraph, innerSubgraph] where
  entered := by
    rintro _ ⟨⟩
    exact enters_outerSubgraph.to_reflTransGen
  chain := .cons_cons calls_innerSubgraph (.singleton _)

theorem defined_innerSubgraph : innerSubgraph.run.rule.Defined Flowchart.grammar.rules := by
  intro name hname
  obtain rfl : name = "statement" := List.mem_singleton.1 hname
  rfl

/-- A subgraph inside another is a statement inside another. -/
theorem subgraphs_make_progress :
    (Calls Flowchart.grammar.rules outerSubgraph innerSubgraph ∧ innerSubgraph.name = outerSubgraph.name ∧
      outerSubgraph.cur.offset < innerSubgraph.cur.offset) ∧
    (innerSubgraph.run.rule.Defined Flowchart.grammar.rules ∧
      (∃ outcome, innerSubgraph.run.Leaves Flowchart.grammar.rules outcome) ∧
        Acc (flip (Runs Flowchart.grammar.rules)) innerSubgraph.run) ∧
    (Flowchart.grammar.Nested (some 36) subgraphs [outerSubgraph, innerSubgraph] ∧
      [outerSubgraph, innerSubgraph].length ≤ (subgraphs.length + 1) * Flowchart.grammar.rules.length) ∧
    (subgraphs.length + 1) * Flowchart.grammar.rules.length ≤ 36 ∧
      (Flowchart.grammar.root.matchWithin Flowchart.grammar.rules 36 false (.start subgraphs) {}).2.refused
        = false := by
  have progress := references_make_progress .flowchart
  rw [show Kind.flowchart.dialect.grammar = Flowchart.grammar from rfl] at progress
  obtain ⟨hlater, hends, hbound, hclear⟩ := progress
  have hroom : (subgraphs.length + 1) * Flowchart.grammar.rules.length ≤ 36 := Nat.le_of_eq rfl
  exact ⟨⟨calls_innerSubgraph, rfl, hlater _ _ calls_innerSubgraph rfl⟩,
    ⟨defined_innerSubgraph, hends _ defined_innerSubgraph⟩,
    ⟨nested_subgraphs, hbound _ _ _ nested_subgraphs⟩, hroom, hclear 36 _ hroom⟩

end DiagramText
