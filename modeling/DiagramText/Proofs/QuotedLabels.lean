import DiagramText.Proofs.QuotedLabels.Charts
import DiagramText.Proofs.QuotedLabels.Graphs

/-!
# Which quoted labels are kept

A label is read by two parties: the grammar says how far it goes, and `unquote` what it stands for. In a
flowchart the grammar knows quotes, so whatever is quoted is kept. In the other places a label goes up to the
first closing bracket, even one between quotes, and `unquote` gets all of a quoted text where it has no such
bracket. So that is when all places keep it (`LabelPlace.keeps_iff`); other brackets, braces, commas, percent
signs and quotes do no harm.
-/

namespace DiagramText

open LabelPlace

/-- A flowchart keeps every quoted label on one line. All places keep it exactly if it holds no closing
bracket. -/
theorem LabelPlace.keeps_iff {options : ParseOptions} {id s : String} (name : IsName id)
    (h : ∀ c ∈ s.toList, c ≠ '\r' ∧ c ≠ '\n') :
    flowchartNode.Keeps options id s ∧ ((∀ place : LabelPlace, place.Keeps options id s) ↔ ']' ∉ s.toList) := by
  refine ⟨Flowchart.keeps_node name h, fun all => Architecture.bracket_not_mem (all architectureService), ?_⟩
  intro hfree place
  cases place with
  | flowchartNode => exact Flowchart.keeps_node name h
  | kanbanCard => exact Kanban.keeps_card name h hfree
  | architectureService => exact Architecture.keeps_service name h hfree
  | radarAxis => exact Radar.keeps_axis name h hfree
  | mindmapNode => exact Mindmap.keeps_square name h hfree

/-- All the other marks in one label. -/
theorem LabelPlace.keeps_marks :
    IsName "db" ∧ (∀ c ∈ "[(\x7b<,;|%% \"a\" \\".toList, c ≠ '\r' ∧ c ≠ '\n') ∧
    ∀ place : LabelPlace, place.Keeps { nesting := 20 } "db" "[(\x7b<,;|%% \"a\" \\" := by
  have name : IsName "db" := ⟨by simp, by simp [isNameChar], by simp⟩
  have inLine : ∀ c ∈ "[(\x7b<,;|%% \"a\" \\".toList, c ≠ '\r' ∧ c ≠ '\n' := by simp
  exact ⟨name, inLine, (keeps_iff name inLine).2.2 (by simp)⟩

/-- A service does not keep a closing bracket between quotes. -/
theorem LabelPlace.service_loses_bracket :
    (∀ c ∈ "a]b".toList, c ≠ '\r' ∧ c ≠ '\n') ∧ ¬ architectureService.Keeps { nesting := 20 } "db" "a]b" :=
  ⟨by simp, fun kept => Architecture.bracket_not_mem kept (by simp)⟩

end DiagramText
