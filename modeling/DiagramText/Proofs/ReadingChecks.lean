import DiagramText.Proofs.Architecture.Checks
import DiagramText.Proofs.GeneratedIds
import DiagramText.Proofs.Mindmap.Drafts
import DiagramText.Proofs.Packet.Blocks

/-!
# Checks made while reading

A model is checked by looking at it as a whole (`Dialect.issues`). For six kinds of diagrams the reading of
a document makes checks of its own, at the statement that is at fault, and stops there
(`Kind.checksWhileReading`). The two sets of checks are written apart from each other, but they agree:
a model of such a document has no issue other than being empty (`issues_of_reads`).

For each kind an invariant of the reading says so: links between what is declared for requirement
diagrams, ids that differ for boards, one root for mind maps, blocks that ascend for packets, nodes in
groups and edges between nodes for architecture diagrams. Of an XY chart the whole is checked at the end.
-/

namespace DiagramText

theorem Issue.eq_empty_of_mem_ofCount {count : Nat} {issue : Issue} (h : issue ∈ ofCount count) :
    issue = .empty := by
  rw [ofCount] at h
  split at h
  · exact List.mem_singleton.1 h
  · cases h

theorem Issue.ofCount_eq_nil {count : Nat} : ofCount count = [] ↔ count ≠ 0 := by
  rw [ofCount]
  split <;> simp [*]

/-- Ids that differ are not reported as repeated. -/
theorem Issue.repeated_eq_nil {ids : List String} (distinct : ids.Nodup) : repeated ids = [] := by
  have later (seen : List String) (h : (∀ id ∈ ids, id ∉ seen) ∧ ids.Nodup) : repeated.go seen ids = [] := by
    clear distinct
    induction ids generalizing seen with
    | nil => rfl
    | cons first ids ih =>
      rw [fresh_and_nodup_cons] at h
      have fresh : seen.contains first = false := by simpa using h.1
      rw [repeated.go, fresh]
      exact ih _ h.2
  exact later [] ⟨fun _ _ => List.not_mem_nil, distinct⟩

/-! ## Requirement diagrams -/

namespace Requirement

namespace Diagram

/-- Whether all relations are between names that are declared. -/
def Linked (d : Diagram) : Prop := ∀ link ∈ d.links, d.missingEnds link = []

theorem links_apply {d d' : Diagram} {placed : Nat × Statement} (e : d.apply placed = .ok d') :
    d'.links = d.links := by
  obtain ⟨offset, statement⟩ := placed
  cases statement with
  | requirement item =>
    simp only [apply, Reading.orComplain_eq_ok, addRequirement?, Option.ite_none_left_eq_some,
      Option.some.injEq] at e
    obtain ⟨-, rfl⟩ := e
    rfl
  | element element =>
    simp only [apply, Reading.orComplain_eq_ok, addElement?, Option.ite_none_left_eq_some,
      Option.some.injEq] at e
    obtain ⟨-, rfl⟩ := e
    rfl
  | _ =>
    cases e
    rfl

theorem Linked.applyLink {d d' : Diagram} {placed : Nat × Statement} (h : d.Linked)
    (e : d.applyLink placed = .ok d') : d'.Linked := by
  obtain ⟨offset, statement⟩ := placed
  cases statement with
  | link link =>
    simp only [Diagram.applyLink] at e
    split at e
    · rename_i declared
      cases e
      intro other hother
      rcases List.mem_append.1 hother with old | new
      · exact h other old
      · exact List.mem_singleton.1 new ▸ declared
    · cases e
  | _ =>
    cases e
    exact h

end Diagram

theorem issues_of_read {t : Tree} {d : Diagram} (e : read t = .ok d) :
    d.issues = Issue.ofCount d.entityCount := by
  simp only [read, Reading.bind_eq_ok] at e
  obtain ⟨placed, -, declared, hdeclared, e⟩ := e
  have unlinked : declared.links = [] :=
    Reading.foldlM_invariant (P := fun d : Diagram => d.links = [])
      (fun _ _ _ h e => (Diagram.links_apply e).trans h) rfl hdeclared
  have linked : d.Linked :=
    Reading.foldlM_invariant (fun _ _ _ h e => Diagram.Linked.applyLink h e)
      (by simp [Diagram.Linked, unlinked]) e
  have noDangling : (d.links.flatMap fun link => (d.missingEnds link).map
      (Issue.danglingReference ("'" ++ link.relation.word ++ "' relationship"))) = [] :=
    List.flatMap_eq_nil_iff.2 fun link hlink => by rw [linked link hlink, List.map_nil]
  rw [Diagram.issues, noDangling, List.append_nil]

end Requirement

/-! ## Boards -/

namespace Kanban

theorem Board.nodup_apply {state state' : Option Nat × Board} {line : Line} (distinct : state.2.ids.Nodup)
    (e : Board.apply state line = .ok state') : state'.2.ids.Nodup := by
  obtain ⟨first, b⟩ := state
  obtain ⟨first', b'⟩ := state'
  obtain ⟨fresh, ⟨-, -, -, rfl⟩ | ⟨-, -, card, hcard, rfl⟩⟩ := Board.apply_eq_ok e
  · exact (b.perm_ids_addColumn _ _).nodup_iff.2 (nodup_concat_of_fresh fresh distinct)
  · by_cases hb : b.columns = []
    · simpa [addCard?, hb] using distinct
    · obtain ⟨b', hb', -, ids⟩ := addCard?_eq hb card
      rw [hb', Option.getD_some, ids, id_of_entry_card hcard]
      exact nodup_concat_of_fresh fresh distinct

theorem nodup_of_read {t : Tree} {b : Board} (e : read t = .ok b) : b.ids.Nodup := by
  simp only [read, Reading.bind_eq_ok, Reading.pure_eq_ok] at e
  obtain ⟨_, -, state, hstate, rfl⟩ := e
  have empty : ({} : Board).ids.Nodup := List.nodup_nil
  exact Reading.foldlM_invariant (P := fun state : Option Nat × Board => state.2.ids.Nodup)
    (fun _ _ _ h e => Board.nodup_apply h e) empty hstate

theorem issues_of_read {t : Tree} {b : Board} (e : read t = .ok b) :
    b.issues = Issue.ofCount b.entityCount := by
  have count : b.entityCount = 0 ↔ b.columns.length = 0 := by
    rw [Board.entityCount, Nat.add_eq_zero_iff, List.length_eq_zero_iff, List.length_eq_zero_iff]
    exact ⟨And.left, fun none => ⟨none, by rw [Board.cards, none, List.flatMap_nil]⟩⟩
  rw [Board.issues, Issue.repeated_eq_nil (nodup_of_read e), List.append_nil, Issue.ofCount, Issue.ofCount]
  simp only [count]

end Kanban

/-! ## XY charts -/

namespace XyChart

theorem issues_of_read {t : Tree} {c : Chart} (e : read t = .ok c) :
    c.issues = Issue.ofCount c.entityCount := by
  simp only [read, Reading.bind_eq_ok] at e
  obtain ⟨placed, -, e⟩ := e
  split at e
  · rename_i matched
    cases e
    simp only [Chart.issues, matched, List.map_nil, List.append_nil, Chart.entityCount]
  · cases e

end XyChart

/-! ## Models -/

namespace Kind

/-- Whether reading a document of the kind checks all that is asked of its model. -/
def checksWhileReading : Kind → Bool
  | requirement | kanban | mindmap | packet | xyChart | architecture => true
  | _ => false

theorem issues_eq_ofCount {kind : Kind} {tree : Tree} {content : kind.dialect.Content}
    (checks : kind.checksWhileReading = true) (e : kind.dialect.read tree = .ok content) :
    kind.dialect.issues content = Issue.ofCount (kind.dialect.entityCount content) := by
  cases kind with
  | requirement => exact Requirement.issues_of_read e
  | kanban => exact Kanban.issues_of_read e
  | mindmap => exact Mindmap.issues_of_read e
  | packet => exact (Packet.ascending_of_read e).issues_eq
  | xyChart => exact XyChart.issues_of_read e
  | architecture => exact Architecture.issues_of_read e
  | _ => cases checks

end Kind

/-- Where reading checks all that is asked of a model, each model that is read is accepted. -/
theorem parseAs_eq_ok_iff_reads {options : ParseOptions} {kind : Kind} {input : String} {m : Model}
    (checks : kind.checksWhileReading = true) : parseAs .all options kind input = .ok m ↔
      ∃ content, kind.Reads (options.nesting + 1) (sourceOf options input) content ∧ m = ⟨kind, content⟩ := by
  rw [parseAs_eq_ok]
  constructor
  · rintro ⟨tree, content, parsed, read, checked⟩
    exact ⟨content, ⟨tree, parsed, read⟩, eq_of_checkedModel checked⟩
  · rintro ⟨content, ⟨tree, parsed, read⟩, rfl⟩
    refine ⟨tree, content, parsed, read, checkedModel_of_declared fun issue hissue => ?_⟩
    have counted : issue ∈ kind.dialect.issues content := hissue
    rw [Kind.issues_eq_ofCount checks read] at counted
    rw [Issue.eq_empty_of_mem_ofCount counted]
    rfl

/-- Where reading checks all that is asked of a model, nothing is wrong with a model that is read, except
that it may have no entities. -/
theorem issues_of_reads {kind : Kind} {depth : Nat} {input : String} {content : kind.dialect.Content}
    (checks : kind.checksWhileReading = true) (h : kind.Reads depth input content) :
    (∀ issue ∈ kind.dialect.issues content, issue = .empty) ∧
      (kind.dialect.issues content = [] ↔ kind.dialect.entityCount content ≠ 0) := by
  obtain ⟨tree, -, e⟩ := h
  rw [Kind.issues_eq_ofCount checks e]
  exact ⟨fun _ => Issue.eq_empty_of_mem_ofCount, Issue.ofCount_eq_nil⟩

/-- Groups in one another, with an edge from the group around a service. -/
theorem issues_of_reads_architecture :
    ∃ content, Kind.architecture.Reads 20
        "architecture-beta\ngroup a\ngroup b in a\nservice s in b\njunction j\ns\x7bgroup\x7d:R -- L:j\n" content ∧
      Kind.architecture.dialect.issues content = [] := by
  obtain ⟨content, h, nonempty⟩ := Kind.exists_reads_and .architecture 20
    "architecture-beta\ngroup a\ngroup b in a\nservice s in b\njunction j\ns\x7bgroup\x7d:R -- L:j\n"
    (fun content => Kind.architecture.dialect.entityCount content != 0) (by decide +kernel)
  exact ⟨content, h, (issues_of_reads rfl h).2.2 (bne_iff_ne.1 nonempty)⟩

end DiagramText
