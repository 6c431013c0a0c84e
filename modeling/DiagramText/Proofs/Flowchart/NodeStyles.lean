import DiagramText.Flowchart.Chart
import DiagramText.Proofs.Style.Overlay
import Mathlib.Data.List.DropRight
import Mathlib.Data.List.Induction

/-!
# Styles of nodes

A chart is put together by calls. Whatever the calls, it keeps the definitions of style classes and the styles of
nodes that came behind the last call that cleared it, both in their order (`classes_afterCalls`,
`nodeStyles_afterCalls`). The style of a node lays all of them over each other, those of its style classes first and
its own last. So the style has the properties of all of these styles in the order in which they first come, each of
them once and with the value that it is given last (`nodeStyle_afterCalls`).
-/

namespace DiagramText

/-- A style has the properties that are given, in the order in which they first come, each of them once and with the
value that it is given last. -/
structure Style.Settles (s : Style) (given : Table String) : Prop where
  nodup : (Table.keys s.properties).Nodup
  keys_eq : Table.keys s.properties = (Table.keys given).eraseDups
  get?_eq : ∀ property, s.get? property = Table.last? given property

/-- Where nothing is given no property is settled. -/
theorem Style.Settles.isEmpty_iff {s : Style} {given : Table String} (h : s.Settles given) :
    s.isEmpty = true ↔ given = [] := by
  have none : s.properties = [] ↔ Table.keys s.properties = [] := List.map_eq_nil_iff.symm
  rw [Style.isEmpty, List.isEmpty_iff, none, h.keys_eq]
  cases given with
  | nil => simp [Table.keys]
  | cons entry given => simp [Table.keys, List.eraseDups_cons]

namespace Flowchart

open Table

/-! ## Calls -/

/-- A call that changes a chart. -/
inductive Call where
  | setDirection (direction : Direction)
  | setTitle (title : String)
  | setAccessible (title description : Option String)
  | addNode (node : Node)
  | ensureNode (id : String)
  | addNodeClass (id name : String)
  | addEdge (edge : Edge)
  | addSubgraph (s : Subgraph)
  | defineClass (name : String) (style : Style)
  | assignClass (id name : String)
  | addNodeStyle (id : String) (style : Style)
  | addEdgeStyle (index : Option Nat) (style : Style)
  | addClick (click : Interaction)
  | clear

namespace Call

/-- Whether the call leaves nothing of the chart but its direction. -/
def clears : Call → Bool
  | clear => true
  | _ => false

/-- The style class that the call defines. -/
def definition? : Call → Option (String × Style)
  | defineClass name style => some (name, style)
  | _ => none

/-- The style of a node that the call gives. -/
def givenStyle? : Call → Option (String × Style)
  | addNodeStyle id style => some (id, style)
  | _ => none

end Call

namespace Chart

/-- The chart after a call. -/
def call (c : Chart) : Call → Chart
  | .setDirection direction => { c with direction }
  | .setTitle title => { c with captions := c.captions.set (.title title) }
  | .setAccessible title description => c.setAccessible title description
  | .addNode node => c.addNode node
  | .ensureNode id => c.ensureNode id
  | .addNodeClass id name => c.addNodeClass id name
  | .addEdge edge => c.addEdge edge
  | .addSubgraph s => c.addSubgraph s
  | .defineClass name style => c.defineClass name style
  | .assignClass id name => c.assignClass id name
  | .addNodeStyle id style => c.addNodeStyle id style
  | .addEdgeStyle index style => c.addEdgeStyle index style
  | .addClick click => c.addClick click
  | .clear => c.clear

/-- The chart after calls on an empty one of this direction. -/
def afterCalls (direction : Direction) (calls : List Call) : Chart := calls.foldl call { direction }

end Chart

/-- The calls behind the last one that clears the chart. -/
def sinceClear (calls : List Call) : List Call := calls.rtakeWhile (!·.clears)

/-- The style classes that are defined, in the order of their definitions. -/
def definitions (calls : List Call) : Table Style := (sinceClear calls).filterMap Call.definition?

/-- The styles that are given to nodes, each with the id of its node. -/
def givenStyles (calls : List Call) : List (String × Style) := (sinceClear calls).filterMap Call.givenStyle?

/-- The properties that are given to a node with these style classes: those of the classes that are defined, one class
after the other, and behind them those of its own styles. -/
def givenProperties (calls : List Call) (id : String) (names : List String) : Table String :=
  (names.filterMap (last? (definitions calls))).flatMap Style.properties ++
    ((givenStyles calls).filter (·.1 = id)).flatMap (·.2.properties)

namespace Chart

theorem sinceClear_concat (calls : List Call) (call : Call) :
    sinceClear (calls ++ [call]) = if call.clears then [] else sinceClear calls ++ [call] := by
  rw [sinceClear, List.rtakeWhile_concat]
  cases call.clears <;> rfl

theorem afterCalls_concat (direction : Direction) (calls : List Call) (call : Call) :
    afterCalls direction (calls ++ [call]) = (afterCalls direction calls).call call := by
  rw [afterCalls, List.foldl_concat, ← afterCalls]

theorem classes_call (c : Chart) (call : Call) :
    (c.call call).classes = if call.clears then [] else insertAll c.classes call.definition?.toList := by
  cases call <;> rfl

theorem nodeStyles_call (c : Chart) (call : Call) :
    (c.call call).nodeStyles = if call.clears then [] else c.nodeStyles ++ call.givenStyle?.toList := by
  cases call with
  | clear | addNodeStyle => rfl
  | _ => exact (List.append_nil c.nodeStyles).symm

theorem definitions_concat (calls : List Call) (call : Call) :
    definitions (calls ++ [call]) = if call.clears then [] else definitions calls ++ call.definition?.toList := by
  rw [definitions, sinceClear_concat]
  split
  · rfl
  · rw [List.filterMap_append, ← definitions]
    cases call <;> rfl

theorem givenStyles_concat (calls : List Call) (call : Call) :
    givenStyles (calls ++ [call]) =
      if call.clears then [] else givenStyles calls ++ call.givenStyle?.toList := by
  rw [givenStyles, sinceClear_concat]
  split
  · rfl
  · rw [List.filterMap_append, ← givenStyles]
    cases call <;> rfl

/-- A chart has the style classes that are defined since it was cleared. -/
theorem classes_afterCalls (direction : Direction) (calls : List Call) :
    (afterCalls direction calls).classes = insertAll [] (definitions calls) := by
  induction calls using List.reverseRecOn with
  | nil => rfl
  | append_singleton calls call ih =>
    rw [afterCalls_concat, classes_call, ih, definitions_concat]
    split
    · rfl
    · rw [insertAll_append]

/-- A chart has the styles of nodes that are given since it was cleared. -/
theorem nodeStyles_afterCalls (direction : Direction) (calls : List Call) :
    (afterCalls direction calls).nodeStyles = givenStyles calls := by
  induction calls using List.reverseRecOn with
  | nil => rfl
  | append_singleton calls call ih => rw [afterCalls_concat, nodeStyles_call, ih, givenStyles_concat]

theorem classStyle?_afterCalls (direction : Direction) (calls : List Call) (name : String) :
    (afterCalls direction calls).classStyle? name = last? (definitions calls) name := by
  rw [classStyle?, classes_afterCalls, get?_insertAll]
  exact Option.or_none

/-! ## Styles laid over each other -/

theorem properties_foldl_merge (styles : List Style) (s : Style) :
    (styles.foldl Style.merge s).properties = insertAll s.properties (styles.flatMap Style.properties) := by
  induction styles generalizing s with
  | nil => rfl
  | cons top styles ih =>
    rw [List.foldl_cons, ih, List.flatMap_cons, insertAll_append]
    rfl

theorem settles_foldl_merge (styles : List Style) :
    (styles.foldl Style.merge {}).Settles (styles.flatMap Style.properties) := by
  have keys_eq : keys (styles.foldl Style.merge {}).properties =
      (keys (styles.flatMap Style.properties)).eraseDups := by
    rw [properties_foldl_merge, keys_insertAll]
    exact Distinct.addAll_eraseDups [] _
  refine ⟨keys_eq ▸ Distinct.nodup_eraseDups _, keys_eq, fun property => ?_⟩
  rw [Style.get?, properties_foldl_merge, get?_insertAll]
  exact Option.or_none

/-- Styles laid over each other settle what they give together, if they give anything. -/
theorem overlay?_eq_none {styles : List Style} : overlay? styles = none ↔ styles.flatMap Style.properties = [] := by
  rw [overlay?, ← (settles_foldl_merge styles).isEmpty_iff]
  simp [Option.filter]

theorem settles_of_overlay? {styles : List Style} {s : Style} (h : overlay? styles = some s) :
    s.Settles (styles.flatMap Style.properties) := by
  obtain ⟨e, -⟩ := Option.filter_eq_some_iff.1 h
  exact Option.some.inj e ▸ settles_foldl_merge styles

/-- The style of a node lays those of its style classes over each other, and over them those that it is given. -/
theorem nodeStyle?_eq (direction : Direction) (calls : List Call) (id : String) :
    (afterCalls direction calls).nodeStyle? id = ((afterCalls direction calls).node? id).bind fun node =>
      overlay? (node.classes.filterMap (last? (definitions calls)) ++
        ((givenStyles calls).filter (·.1 = id)).map (·.2)) := by
  rw [nodeStyle?, nodeStyles_afterCalls, funext (classStyle?_afterCalls direction calls)]
  rfl

/-- A node has a style if it is there and some property is given to it, be it by one of its style classes that is
defined or by a style of its own. The style has each of these properties once, in the order in which they first come,
and with the value that it is given last. -/
theorem nodeStyle_afterCalls (direction : Direction) (calls : List Call) (id : String) :
    let c := afterCalls direction calls
    let given := givenProperties calls id (((c.node? id).map Node.classes).getD [])
    (c.nodeStyle? id = none ↔ c.node? id = none ∨ given = []) ∧ ∀ s ∈ c.nodeStyle? id, s.Settles given := by
  intro c given
  have e : c.nodeStyle? id = _ := nodeStyle?_eq direction calls id
  cases hnode : c.node? id with
  | none =>
    rw [e, hnode, Option.bind_none]
    simp
  | some node =>
    have all : given = (node.classes.filterMap (last? (definitions calls)) ++
        ((givenStyles calls).filter (·.1 = id)).map (·.2)).flatMap Style.properties := by
      rw [List.flatMap_append, List.flatMap_map]
      simp only [given, hnode, givenProperties, Option.map_some, Option.getD_some]
    rw [e, hnode, Option.bind_some, all]
    exact ⟨overlay?_eq_none.trans (by simp), fun s hs => settles_of_overlay? hs⟩

/-- The definition of a style class in front of a call that clears the chart is gone, one that is given again counts
alone, and a class that is not defined gives nothing. -/
theorem nodeStyle_of_cleared :
    let calls : List Call := [.defineClass "cold" ⟨[("fill", "blue")]⟩, .clear, .addNodeClass "A" "hot",
      .addNode { id := "A", label := "A", classes := ["hot", "cold", "wide"] }, .addNodeStyle "B" ⟨[("fill", "gray")]⟩,
      .defineClass "hot" ⟨[("color", "white")]⟩,
      .addNodeStyle "A" ⟨[("stroke", "1"), ("fill", "red"), ("stroke", "2")]⟩,
      .defineClass "wide" ⟨[("width", "9"), ("fill", "green")]⟩, .defineClass "hot" ⟨[("stroke", "0")]⟩,
      .addNodeStyle "A" ⟨[("width", "8")]⟩]
    let s : Style := ⟨[("stroke", "2"), ("width", "8"), ("fill", "red")]⟩
    (afterCalls .topDown calls).nodeStyle? "A" = some s ∧
      s.Settles (givenProperties calls "A" ["hot", "cold", "wide"]) := by
  intro calls s
  have found : (afterCalls .topDown calls).nodeStyle? "A" = some s := by decide
  exact ⟨found, (nodeStyle_afterCalls .topDown calls "A").2 s found⟩

end Chart

end Flowchart

end DiagramText
