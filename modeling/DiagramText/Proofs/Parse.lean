import DiagramText.Parse
import DiagramText.Proofs.Reading
import DiagramText.Proofs.Registry
import DiagramText.Proofs.Text.Blank

/-!
# Steps of parsing

A document is parsed when each of the steps succeeds: `parseAs_eq_ok` says so for the registry of all
kinds, which knows every kind by its own keywords (`detector?_all`). What a registry of some kinds
knows does not depend on their order (`detector?_insertKinds`).
-/

namespace DiagramText

/-- Whether an input is a document of the kind that has this model, where references may be nested `depth` deep. -/
def Kind.Reads (kind : Kind) (depth : Nat) (input : String) (content : kind.dialect.Content) : Prop :=
  ∃ tree, kind.dialect.grammar.parse depth input = .ok tree ∧ kind.dialect.read tree = .ok content

theorem Kind.exists_reads (kind : Kind) (depth : Nat) (input : String)
    (h : ((kind.dialect.grammar.parse depth input).toOption.bind
      fun tree => (kind.dialect.read tree).toOption).isSome = true) :
    ∃ content, kind.Reads depth input content := by
  obtain ⟨content, h⟩ := Option.isSome_iff_exists.1 h
  obtain ⟨tree, htree, hcontent⟩ := Option.bind_eq_some_iff.1 h
  exact ⟨content, tree, Reading.toOption_eq_some.1 htree, Reading.toOption_eq_some.1 hcontent⟩

/-- A test of the model that is read from a document, which holds of none if none is read. -/
theorem Kind.exists_reads_and (kind : Kind) (depth : Nat) (input : String) (test : kind.dialect.Content → Bool)
    (h : ((kind.dialect.grammar.parse depth input).toOption.bind
      fun tree => (kind.dialect.read tree).toOption).any test = true) :
    ∃ content, kind.Reads depth input content ∧ test content = true := by
  obtain ⟨content, h, passes⟩ := (Option.any_eq_true _ _).1 h
  obtain ⟨tree, htree, hcontent⟩ := Option.bind_eq_some_iff.1 h
  exact ⟨content, ⟨tree, Reading.toOption_eq_some.1 htree, Reading.toOption_eq_some.1 hcontent⟩, passes⟩

theorem detector?_insertKinds (r : Registry) (kinds : List Kind) (kind : Kind) :
    (r.insertKinds kinds).detector? kind =
      if kind ∈ kinds then some (.ofKind kind) else r.detector? kind := by
  induction kinds generalizing r with
  | nil => rfl
  | cons first kinds ih =>
    rw [Registry.insertKinds, List.foldl_cons, ← Registry.insertKinds, ih, Registry.detector?_insert]
    by_cases hmem : kind ∈ kinds
    · simp [hmem]
    · by_cases hfirst : kind = first
      · simp [hfirst]
      · simp [hmem, hfirst]

/-- Every kind is registered with its own detector. -/
theorem detector?_all (kind : Kind) : Registry.all.detector? kind = some (.ofKind kind) := by
  rw [Registry.all, detector?_insertKinds, if_pos kind.mem_all]

theorem contains_all (kind : Kind) : Registry.all.contains kind = true := by
  rw [Registry.contains, detector?_all]
  rfl

/-- A model that passes the checks is the model with the content that was checked. -/
theorem eq_of_checkedModel {options : ParseOptions} {kind : Kind} {content : kind.dialect.Content}
    {m : Model} (h : checkedModel options kind content = .ok m) : m = ⟨kind, content⟩ := by
  rw [checkedModel] at h
  split at h
  · cases h
  · exact (Except.ok.inj h).symm

/-- A model passes the checks if all that it refers to is declared. -/
theorem checkedModel_of_declared {options : ParseOptions} {kind : Kind} {content : kind.dialect.Content}
    (declared : ∀ issue ∈ (⟨kind, content⟩ : Model).issues, issue.isDangling = false) :
    checkedModel options kind content = .ok ⟨kind, content⟩ := by
  have none : (⟨kind, content⟩ : Model).issues.find? Issue.isDangling = none := by
    simpa using declared
  simp only [checkedModel, none, ite_self]

/-- A model without issues passes the checks. -/
theorem checkedModel_of_valid {options : ParseOptions} {kind : Kind} {content : kind.dialect.Content}
    (valid : (⟨kind, content⟩ : Model).issues = []) : checkedModel options kind content = .ok ⟨kind, content⟩ :=
  checkedModel_of_declared (by simp [valid])

theorem parseAs_eq_ok {options : ParseOptions} {kind : Kind} {input : String} {m : Model} :
    parseAs .all options kind input = .ok m ↔
      ∃ tree content, kind.dialect.grammar.parse (options.nesting + 1) (sourceOf options input) = .ok tree ∧
        kind.dialect.read tree = .ok content ∧ checkedModel options kind content = .ok m := by
  rw [parseAs, if_pos (contains_all kind)]
  cases hparse : kind.dialect.grammar.parse (options.nesting + 1) (sourceOf options input) with
  | error failure => simp [hparse]
  | ok tree =>
    cases hread : kind.dialect.read tree with
    | error fault => simp [hparse, hread]
    | ok content => simp [hparse, hread]

/-- Documents whose trees are read alike have the same outcome. -/
theorem parseAs_alike {options : ParseOptions} {kind : Kind} {input input' : String} {tree tree' : Tree}
    (h : kind.dialect.grammar.parse (options.nesting + 1) (sourceOf options input) = .ok tree)
    (h' : kind.dialect.grammar.parse (options.nesting + 1) (sourceOf options input') = .ok tree')
    (same : kind.dialect.read tree = kind.dialect.read tree') :
    parseAs .all options kind input = parseAs .all options kind input' := by
  rw [parseAs, parseAs, if_pos (contains_all kind), if_pos (contains_all kind)]
  simp only [h, h', same]

/-- A test of the model that a document has, which holds of none if it has none. -/
theorem exists_parseAs {r : Registry} {options : ParseOptions} {kind : Kind} {input : String}
    {test : Model → Bool} (h : (parseAs r options kind input).toOption.any test = true) :
    ∃ m, parseAs r options kind input = .ok m ∧ test m = true := by
  cases hparse : parseAs r options kind input with
  | error rejection =>
    rw [hparse] at h
    cases h
  | ok m =>
    rw [hparse] at h
    exact ⟨m, rfl, h⟩

/-- A document that the grammar of its kind does not take is malformed. -/
theorem parseAs_malformed {options : ParseOptions} {kind : Kind} {input : String} {failure : Peg.Failure}
    (h : kind.dialect.grammar.parse (options.nesting + 1) (sourceOf options input) = .error failure) :
    parseAs .all options kind input =
      .error (.malformed (.locate kind (sourceOf options input) failure)) := by
  rw [parseAs, if_pos (contains_all kind)]
  simp only [h]

/-- Only a document that its grammar does not take is malformed. -/
theorem failure_of_parseAs_malformed {options : ParseOptions} {kind : Kind} {input : String} {d : Diagnostic}
    (h : parseAs .all options kind input = .error (.malformed d)) :
    ∃ failure, kind.dialect.grammar.parse (options.nesting + 1) (sourceOf options input) = .error failure ∧
      d = .locate kind (sourceOf options input) failure := by
  cases hparse : kind.dialect.grammar.parse (options.nesting + 1) (sourceOf options input) with
  | error failure =>
    rw [parseAs_malformed hparse] at h
    exact ⟨failure, rfl, (Rejection.malformed.inj (Except.error.inj h)).symm⟩
  | ok tree =>
    rw [parseAs, if_pos (contains_all kind)] at h
    simp only [hparse] at h
    split at h
    · cases h
    · rw [checkedModel] at h
      split at h <;> cases h

/-- A document is unreadable when its grammar takes it and its tree cannot be read. -/
theorem parseAs_unreadable {options : ParseOptions} {kind : Kind} {input : String}
    {fault : Fault kind.dialect.Fallacy} :
    parseAs .all options kind input = .error (.unreadable kind fault) ↔
      ∃ tree, kind.dialect.grammar.parse (options.nesting + 1) (sourceOf options input) = .ok tree ∧
        kind.dialect.read tree = .error fault := by
  rw [parseAs, if_pos (contains_all kind)]
  cases hparse : kind.dialect.grammar.parse (options.nesting + 1) (sourceOf options input) with
  | error failure => simp [hparse]
  | ok tree =>
    cases hread : kind.dialect.read tree with
    | error fault => simp [hparse, hread]
    | ok content =>
      have checked : checkedModel options kind content ≠ .error (.unreadable kind fault) := by
        intro h
        rw [checkedModel] at h
        split at h <;> cases h
      simp [hparse, hread, checked]

end DiagramText
