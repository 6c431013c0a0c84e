import DiagramText.Dialect
import DiagramText.Proofs.Supplied.Charts
import DiagramText.Proofs.Supplied.Graphs
import DiagramText.Proofs.Supplied.Nested

/-!
# Faults of the shape of a tree

What each kind reads its documents for is a demand on their trees, and one evaluation over the grammars
shows that these keep it (`governs_statement`). So a document that its grammar accepts is read without a
fault of the shape of its tree, whatever the kind, except for two forms: an annotation without a text among
the members of a class, and a cherry-pick without an id. `shape_faults` says that such misfits are never
read and that nothing else lacks what is read.
-/

namespace DiagramText

open Reading

/-- What the documents of a kind are read for. -/
def Kind.document : Kind → Demand
  | flowchart | sequence | classDiagram | state => .body "statements"
  | er => .list "statements" Er.demand
  | journey => .list "statements" Journey.demand
  | gitGraph => .list "statements" Git.demand
  | sankey => .list "statements" Sankey.demand
  | pie => .list "statements" Pie.demand
  | gantt => .list "statements" Gantt.demand
  | timeline => .list "statements" Timeline.demand
  | mindmap => .list "lines" Mindmap.demand
  | quadrantChart => .list "statements" Quadrant.demand
  | requirement => .list "statements" Requirement.demand
  | packet => .list "statements" Packet.demand
  | kanban => .list "lines" Kanban.demand
  | xyChart => .list "statements" XyChart.demand
  | architecture => .list "statements" Architecture.demand
  | radar => .list "statements" Radar.demand
  | info => .nothing

/-- What the statements of a kind are read for, where they have bodies of further statements. -/
def Kind.statement : Kind → Demand
  | flowchart => Flowchart.demand
  | sequence => Sequence.demand
  | classDiagram => ClassDiagram.demand
  | state => StateDiagram.demand
  | _ => .nothing

theorem governs_statement (kind : Kind) :
    kind.document.governs kind.statement kind.dialect.grammar "statement" = true := by
  cases kind <;> decide +kernel

/-- The forms that a grammar accepts and the reading of its kind has no use for. -/
def Kind.Misfit (kind : Kind) (tree : Tree) : Prop :=
  match kind with
  | classDiagram => ClassDiagram.BlankAnnotation (tree.list "statements")
  | gitGraph => ∃ s ∈ tree.list "statements", Git.Aimless s
  | _ => False

theorem supplied_of_parse {depth : Nat} {kind : Kind} {input : String} {tree : Tree}
    (hparse : kind.dialect.grammar.parse depth input = .ok tree) (hfit : ¬ kind.Misfit tree) :
    Supplied (kind.dialect.read tree) := by
  have met := Demand.met_of_parse (governs_statement kind) hparse tree.height
  cases kind with
  | flowchart => exact Flowchart.supplied_document met
  | sequence => exact Sequence.supplied_document met
  | classDiagram => exact ClassDiagram.supplied_document met hfit
  | state => exact StateDiagram.supplied_document met
  | er => exact Er.supplied_document met
  | journey => exact Journey.supplied_document met
  | gitGraph => exact Git.supplied_document met fun s hs aimless => hfit ⟨s, hs, aimless⟩
  | sankey => exact Sankey.supplied_document met
  | pie => exact Pie.supplied_document met
  | gantt => exact Gantt.supplied_document met
  | timeline => exact Timeline.supplied_document met
  | mindmap => exact Mindmap.supplied_document met
  | quadrantChart => exact Quadrant.supplied_document met
  | requirement => exact Requirement.supplied_document met
  | packet => exact Packet.supplied_document met
  | kanban => exact Kanban.supplied_document met
  | xyChart => exact XyChart.supplied_document met
  | architecture => exact Architecture.supplied_document met
  | radar => exact Radar.supplied_document met
  | info => exact Info.supplied_document tree

theorem not_misfit_of_read {depth : Nat} {kind : Kind} {input : String} {tree : Tree}
    (hparse : kind.dialect.grammar.parse depth input = .ok tree) {content : kind.dialect.Content}
    (hread : kind.dialect.read tree = .ok content) : ¬ kind.Misfit tree := by
  have met := Demand.met_of_parse (governs_statement kind) hparse tree.height
  unfold Kind.Misfit
  split
  · exact ClassDiagram.marked_of_document met hread
  · exact fun ⟨s, hs, aimless⟩ => Git.not_aimless_of_document met hread s hs aimless
  · exact id

/-- Where a grammar accepts a document, its tree is read without a fault of its shape unless it is a
misfit, and a misfit is not read at all. -/
theorem shape_faults {depth : Nat} {kind : Kind} {input : String} {tree : Tree}
    (hparse : kind.dialect.grammar.parse depth input = .ok tree) :
    (¬ kind.Misfit tree → ∀ fault, kind.dialect.read tree = .error fault →
      fault.cause.isShapeFault = false) ∧
      (kind.Misfit tree → ∃ fault, kind.dialect.read tree = .error fault) := by
  refine ⟨supplied_of_parse hparse, fun misfit => ?_⟩
  cases hread : kind.dialect.read tree with
  | ok content => exact absurd misfit (not_misfit_of_read hparse hread)
  | error fault => exact ⟨fault, rfl⟩

/-- A cherry-pick without an id is accepted and not read. -/
theorem shape_faults_cherry_pick :
    ∃ tree, Kind.gitGraph.dialect.grammar.parse 20 "gitGraph\ncherry-pick tag: \"v1\"" = .ok tree ∧
      Kind.gitGraph.Misfit tree ∧ ∃ fault, Kind.gitGraph.dialect.read tree = .error fault := by
  have accepted : ((Git.grammar.parse 20 "gitGraph\ncherry-pick tag: \"v1\"").toOption.any fun tree =>
      (tree.list "statements").any fun s => s.has "cherry_pick" && !s.has "id") = true := by
    decide +kernel
  obtain ⟨tree, hparse, haimless⟩ := (Option.any_eq_true _ _).1 accepted
  have hparse : Kind.gitGraph.dialect.grammar.parse 20 "gitGraph\ncherry-pick tag: \"v1\"" = .ok tree :=
    toOption_eq_some.1 hparse
  have misfit : Kind.gitGraph.Misfit tree := by
    obtain ⟨s, hs, h⟩ := List.any_eq_true.1 haimless
    exact ⟨s, hs, by simpa [Git.Aimless] using h⟩
  exact ⟨tree, hparse, misfit, (shape_faults hparse).2 misfit⟩

/-- An annotation without a text is accepted where a class has its members, and it lacks the member that
the line is then read for. -/
theorem shape_fault_of_blank_annotation :
    ∃ tree fault,
      Kind.classDiagram.dialect.grammar.parse 20 "classDiagram\nclass A \x7b\n<< >>\n\x7d" = .ok tree ∧
        Kind.classDiagram.dialect.read tree = .error fault ∧ fault.cause.isShapeFault = true := by
  have accepted : ((ClassDiagram.grammar.parse 20 "classDiagram\nclass A \x7b\n<< >>\n\x7d").toOption.any
      fun tree => match ClassDiagram.read tree with
        | .ok _ => false
        | .error fault => fault.cause.isShapeFault) = true := by
    decide +kernel
  obtain ⟨tree, hparse, hfault⟩ := (Option.any_eq_true _ _).1 accepted
  have hparse := toOption_eq_some.1 hparse
  split at hfault
  · cases hfault
  · rename_i fault hread
    exact ⟨tree, fault, hparse, hread, hfault⟩

end DiagramText
