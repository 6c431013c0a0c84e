import DiagramText.Proofs.Endpoints
import DiagramText.Proofs.Parse

/-!
# Where runs start and end

The mark `[*]` stands for a state where runs start or end in the composite state around it, or in the whole
diagram. The id of that state is made of the id of the composite state, so that marks in different composite
states stand for different states (`Terminal.id_eq_iff`), and each is put where its mark is
(`Scope.placed_applyAll`).

But the whole diagram takes part in this as if it were a composite state called `root`, and nothing keeps a
document from having one, or from giving a state an id that is made. `own_pseudoStates_iff` says that these
are the only ways for a mark not to have a state of its own.
-/

namespace DiagramText.StateDiagram

/-- A mark of a start or an end, with the composite state that it stands in. -/
structure Terminal where
  scope : Option String
  start : Bool
deriving DecidableEq, Inhabited

namespace Terminal

/-- The id of the state that the mark stands for. -/
def id (t : Terminal) : String := terminalId t.scope t.start

/-- The kind of the state that the mark stands for. -/
def kind (t : Terminal) : StateKind := if t.start then .start else .finish

theorem append_side_inj {scope other : String} {start side : Bool} :
    (scope ++ "_" ++ if start then "start" else "end") = (other ++ "_" ++ if side then "start" else "end") ↔
      scope = other ∧ start = side := by
  constructor
  · intro same
    have chars := congrArg String.toList same
    simp only [String.toList_append] at chars
    have last := congrArg List.getLast? chars
    have sides : start = side := by
      cases start <;> cases side
      · rfl
      · simp at last
      · simp at last
      · rfl
    subst sides
    exact ⟨String.toList_inj.1 (List.append_cancel_right (List.append_cancel_right chars)), rfl⟩
  · rintro ⟨rfl, rfl⟩
    rfl

/-- The outermost level has the marks of a composite state called `root`, and apart from that no two have
the same ones. -/
theorem id_eq_iff {t u : Terminal} :
    t.id = u.id ↔ t.scope.getD "root" = u.scope.getD "root" ∧ t.start = u.start :=
  append_side_inj

end Terminal

namespace Mention

/-- The mark that a mention is. -/
def terminal? (scope : Option String) (start : Bool) : Mention → Option Terminal
  | terminal => some ⟨scope, start⟩
  | named _ _ => none

/-- The id that a mention gives. -/
def name? : Mention → Option String
  | terminal => none
  | named id _ => some id

end Mention

mutual

/-- The marks of starts and ends in a statement inside `scope`. -/
def terminals (scope : Option String) : Statement → List Terminal
  | .composite id _ body => allTerminals (some id) body
  | .transition source target _ => (source.terminal? scope true).toList ++ (target.terminal? scope false).toList
  | .reference m => (m.terminal? scope true).toList
  | _ => []

/-- The marks of starts and ends in statements inside `scope`. -/
def allTerminals (scope : Option String) : List Statement → List Terminal
  | [] => []
  | statement :: rest => terminals scope statement ++ allTerminals scope rest

end

mutual

/-- The ids of states that a statement gives. -/
def namedIds : Statement → List String
  | .composite id _ body => id :: allNamedIds body
  | .declare s => [s.id]
  | .transition source target _ => source.name?.toList ++ target.name?.toList
  | .reference m => m.name?.toList
  | .note n => [n.state]
  | .assignClass targets _ => targets
  | _ => []

/-- The ids of states that statements give. -/
def allNamedIds : List Statement → List String
  | [] => []
  | statement :: rest => namedIds statement ++ allNamedIds rest

end

/-! ## Placing states -/

/-- Whether the state that a mark stands for, if it is there, is in the scope of the mark and of its kind. -/
def Placed (t : Terminal) (d : Diagram) : Prop :=
  ∀ s, d.state? t.id = some s → s.parent = t.scope ∧ s.kind = t.kind

theorem Placed.of_eq {t : Terminal} {d d' : Diagram} (h : Placed t d) (same : d'.state? t.id = d.state? t.id) :
    Placed t d' := by
  rw [Placed, same]
  exact h

/-- Whether a mark shares its state with no other mark and no name that is given. -/
structure Alone (t : Terminal) (marks : List Terminal) (names : List String) : Prop where
  marks : ∀ u ∈ marks, u.id = t.id → u = t
  names : t.id ∉ names

theorem Alone.mono {t : Terminal} {marks marks' : List Terminal} {names names' : List String}
    (h : Alone t marks names) (hmarks : marks' ⊆ marks) (hnames : names' ⊆ names) : Alone t marks' names' where
  marks u hu := h.marks u (hmarks hu)
  names ht := h.names (hnames ht)

theorem Diagram.state?_assignClass {d : Diagram} {target id : String} (other : target ≠ id) (name : String) :
    (d.assignClass target name).state? id = d.state? id := by
  rw [state?_eq, states_assignClass, state?_eq]
  exact (Keyed.find?_update (by exact fun _ same => same) d.states id).trans (if_neg other)

namespace Scope

theorem state?_declare {scope : Option String} {s : Scope} {state : State} {id : String}
    (other : state.id ≠ id) : (s.declare scope state).diagram.state? id = s.diagram.state? id := by
  have apart (placed : State) (own : placed.id = state.id) :
      (s.diagram.addState placed).state? id = s.diagram.state? id := by
    rw [Diagram.state?_eq, Diagram.states_addState, Diagram.state?_eq]
    exact (Keyed.find?_add (fun _ same => same) _ id).trans (if_neg fun same => other (own.symm.trans same))
  simp only [declare]
  split
  · exact apart _ rfl
  · exact apart _ rfl

/-- The declaration of a state that is there leaves it in its place, and that of a new one puts it into the
scope. -/
theorem placed_declare {t : Terminal} {s : Scope} (h : Placed t s.diagram) :
    Placed t (s.declare t.scope { id := t.id, kind := t.kind }).diagram := by
  have added (placed : State) (own : placed.id = t.id) : (s.diagram.addState placed).state? t.id =
      some ((s.diagram.state? t.id).elim placed (·.join placed)) := by
    rw [Diagram.state?_eq, Diagram.states_addState, Diagram.state?_eq]
    exact (Keyed.find?_add (fun _ same => same) _ _).trans (if_pos own)
  have marked : t.kind ≠ .normal := by
    unfold Terminal.kind
    split <;> nofun
  intro found hfound
  simp only [declare, onDiagram, Diagram.hasState_eq, Keyed.has_eq_isSome, ← Diagram.state?_eq] at hfound
  cases old : s.diagram.state? t.id with
  | some first =>
    rw [old, Option.isSome_some, Bool.true_or, if_pos rfl, added _ rfl, old] at hfound
    obtain rfl := Option.some.inj hfound
    exact ⟨(h first old).1, if_neg marked⟩
  | none =>
    cases place : t.scope with
    | none =>
      rw [old, place, Option.isSome_none, Option.isNone_none, Bool.or_true, if_pos rfl, added _ rfl,
        old] at hfound
      obtain rfl := Option.some.inj hfound
      exact ⟨rfl, rfl⟩
    | some scope =>
      rw [old, place, Option.isSome_none, Option.isNone_some, Bool.or_false, if_neg Bool.false_ne_true,
        added _ rfl, old] at hfound
      obtain rfl := Option.some.inj hfound
      exact ⟨rfl, rfl⟩

/-- A mention that shares its state with a mark is that mark. -/
theorem placed_resolve {t : Terminal} {scope : Option String} {s : Scope} {m : Mention} {start : Bool}
    (alone : Alone t (m.terminal? scope start).toList m.name?.toList) (h : Placed t s.diagram) :
    Placed t (s.resolve scope m start).2.diagram := by
  cases m with
  | terminal =>
    by_cases same : terminalId scope start = t.id
    · obtain rfl := alone.marks ⟨scope, start⟩ (List.mem_singleton_self _) same
      exact placed_declare h
    · exact h.of_eq (state?_declare same)
  | named id class? =>
    have other : id ≠ t.id := fun same => alone.names (same ▸ List.mem_singleton_self _)
    have declared : Placed t (s.declare scope { id := id }).diagram := h.of_eq (state?_declare other)
    cases class? with
    | none => exact declared
    | some name => exact declared.of_eq (Diagram.state?_assignClass other name)

mutual

theorem placed_apply {t : Terminal} (scope : Option String) (s : Scope) : ∀ statement : Statement,
    Alone t (terminals scope statement) (namedIds statement) → Placed t s.diagram →
      Placed t (s.apply scope statement).diagram
  | .direction _, _, h => by
    simp only [apply]
    split <;> exact h
  | .composite id label body, alone, h => by
    have other : id ≠ t.id := fun same => alone.names (same ▸ List.mem_cons_self)
    have inner := alone.mono (List.Subset.refl _) (List.subset_cons_self _ _)
    exact placed_applyAll (some id) ⟨_, 0⟩ body inner (h.of_eq (state?_declare other))
  | .declare state, alone, h =>
    h.of_eq (state?_declare fun same => alone.names (same ▸ List.mem_singleton_self _))
  | .transition source target _, alone, h =>
    have first := placed_resolve (alone.mono (List.subset_append_left _ _) (List.subset_append_left _ _)) h
    placed_resolve (alone.mono (List.subset_append_right _ _) (List.subset_append_right _ _)) first
  | .reference _, alone, h => placed_resolve alone h
  | .assignClass targets name, alone, h => by
    have others (target : String) (ht : target ∈ targets) (d : Diagram) :
        (d.assignClass target name).state? t.id = d.state? t.id := by
      refine Diagram.state?_assignClass ?_ name
      rintro rfl
      exact alone.names ht
    exact h.of_eq <|
      @foldl_same _ _ _ (Diagram.state? · t.id) (Diagram.assignClass · · name) targets others s.diagram
  | .accessible _, _, h | .regionBreak, _, h | .note _, _, h | .defineClass _ _, _, h => h

theorem placed_applyAll {t : Terminal} (scope : Option String) (s : Scope) : ∀ body : List Statement,
    Alone t (allTerminals scope body) (allNamedIds body) → Placed t s.diagram →
      Placed t (s.applyAll scope body).diagram
  | [], _, h => h
  | statement :: rest, alone, h =>
    have first := placed_apply scope s statement
      (alone.mono (List.subset_append_left _ _) (List.subset_append_left _ _)) h
    placed_applyAll scope (s.apply scope statement) rest
      (alone.mono (List.subset_append_right _ _) (List.subset_append_right _ _)) first

end

theorem hasState_resolve {t : Terminal} {scope : Option String} {start : Bool} {m : Mention}
    (ht : t ∈ (m.terminal? scope start).toList) (s : Scope) :
    (s.resolve scope m start).2.diagram.hasState t.id = true := by
  cases m with
  | terminal =>
    obtain rfl := List.mem_singleton.1 ht
    exact (resolve_grows scope s .terminal start).2
  | named _ _ => cases ht

mutual

/-- What a mark stands for is a state after its statement. -/
theorem hasState_apply {t : Terminal} (scope : Option String) (s : Scope) : ∀ statement : Statement,
    t ∈ terminals scope statement → (s.apply scope statement).diagram.hasState t.id = true
  | .composite id label body, ht => hasState_applyAll (some id) ⟨_, 0⟩ body ht
  | .transition source target label, ht => by
    obtain first | second := List.mem_append.1 ht
    · have grown := (resolve_grows scope (s.resolve scope source true).2 target false).1
      exact grown.keeps _ (hasState_resolve first s)
    · exact hasState_resolve second (s.resolve scope source true).2
  | .reference m, ht => hasState_resolve ht s
  | .accessible _, ht | .direction _, ht | .regionBreak, ht | .declare _, ht | .note _, ht
  | .defineClass _ _, ht | .assignClass _ _, ht => nomatch ht

theorem hasState_applyAll {t : Terminal} (scope : Option String) (s : Scope) : ∀ body : List Statement,
    t ∈ allTerminals scope body → (s.applyAll scope body).diagram.hasState t.id = true
  | [], ht => nomatch ht
  | statement :: rest, ht => by
    obtain first | later := List.mem_append.1 ht
    · have grown := applyAll_grows scope (s.apply scope statement) rest
      exact grown.keeps _ (hasState_apply scope s statement first)
    · exact hasState_applyAll scope (s.apply scope statement) rest later

end

end Scope

/-! ## Documents -/

/-- Whether the marks of a document stand for states of their own, each in its scope: different marks for
different states, and none for a state that the document names. -/
structure Diagram.HasOwnPseudoStates (d : Diagram) (body : List Statement) : Prop where
  distinct : ∀ t ∈ allTerminals none body, ∀ u ∈ allTerminals none body, t.id = u.id → t = u
  placed : ∀ t ∈ allTerminals none body, ∃ s, d.state? t.id = some s ∧ s.parent = t.scope ∧ s.kind = t.kind
  unnamed : ∀ t ∈ allTerminals none body, t.id ∉ allNamedIds body

theorem distinct_iff {marks : List Terminal} : (∀ t ∈ marks, ∀ u ∈ marks, t.id = u.id → t = u) ↔
    ∀ start, ¬ (⟨none, start⟩ ∈ marks ∧ ⟨some "root", start⟩ ∈ marks) := by
  constructor
  · rintro distinct start ⟨outermost, inside⟩
    cases distinct _ outermost _ inside rfl
  · rintro apart ⟨scope, start⟩ ht ⟨other, side⟩ hu same
    obtain ⟨scopes, rfl⟩ := Terminal.id_eq_iff.1 same
    cases scope with
    | none =>
      cases other with
      | none => rfl
      | some other =>
        obtain rfl : "root" = other := scopes
        exact absurd ⟨ht, hu⟩ (apart start)
    | some scope =>
      cases other with
      | none =>
        obtain rfl : scope = "root" := scopes
        exact absurd ⟨hu, ht⟩ (apart start)
      | some other =>
        obtain rfl : scope = other := scopes
        rfl

theorem Diagram.hasOwnPseudoStates_iff (body : List Statement) :
    (ofStatements body).HasOwnPseudoStates body ↔
      (∀ start, ¬ (⟨none, start⟩ ∈ allTerminals none body ∧ ⟨some "root", start⟩ ∈ allTerminals none body)) ∧
        ∀ t ∈ allTerminals none body, t.id ∉ allNamedIds body := by
  rw [← distinct_iff]
  constructor
  · exact fun own => ⟨own.distinct, own.unnamed⟩
  · rintro ⟨distinct, unnamed⟩
    refine ⟨distinct, fun t ht => ?_, unnamed⟩
    have there := Scope.hasState_applyAll none { diagram := {} } body ht
    rw [Diagram.hasState_eq, Keyed.has_eq_isSome, ← Diagram.state?_eq] at there
    obtain ⟨s, hs⟩ := Option.isSome_iff_exists.1 there
    have alone : Alone t (allTerminals none body) (allNamedIds body) :=
      ⟨fun u hu same => distinct u hu t ht same, unnamed t ht⟩
    exact ⟨s, hs, Scope.placed_applyAll none { diagram := {} } body alone nofun s hs⟩

/-- The statements of a document that can be read. -/
def statementsOf? (depth : Nat) (input : String) : Option (List Statement) :=
  (grammar.parse depth input).toOption.bind fun t => (readBody t.height (t.list "statements")).toOption

theorem reads_iff {depth : Nat} {input : String} {d : Diagram} :
    Kind.state.Reads depth input d ↔ ∃ body, statementsOf? depth input = some body ∧ d = .ofStatements body := by
  constructor
  · rintro ⟨tree, hparse, hread⟩
    obtain ⟨body, hbody, e⟩ := Reading.bind_eq_ok.1 hread
    refine ⟨body, Option.bind_eq_some_iff.2 ⟨tree, ?_, Reading.toOption_eq_some.2 hbody⟩, ?_⟩
    · exact Reading.toOption_eq_some.2 hparse
    · exact (Reading.pure_eq_ok.1 e).symm
  · rintro ⟨body, h, rfl⟩
    obtain ⟨tree, hparse, hbody⟩ := Option.bind_eq_some_iff.1 h
    rw [Reading.toOption_eq_some] at hparse hbody
    exact ⟨tree, hparse, Reading.bind_eq_ok.2 ⟨body, hbody, rfl⟩⟩

/-- The marks of starts and ends in a document stand for states of their own exactly if there are no equal
ones outside of all composite states and in one called `root`, and no state is named like one that a mark
stands for. -/
theorem own_pseudoStates_iff {depth : Nat} {input : String} {d : Diagram} (h : Kind.state.Reads depth input d) :
    ∃ body, statementsOf? depth input = some body ∧ (d.HasOwnPseudoStates body ↔
      (∀ start, ¬ (⟨none, start⟩ ∈ allTerminals none body ∧ ⟨some "root", start⟩ ∈ allTerminals none body)) ∧
        ∀ t ∈ allTerminals none body, t.id ∉ allNamedIds body) := by
  obtain ⟨body, hbody, rfl⟩ := reads_iff.1 h
  exact ⟨body, hbody, Diagram.hasOwnPseudoStates_iff body⟩

/-- A composite state with a start and an end of its own. -/
theorem own_pseudoStates_nested :
    ∃ body, ∃ d : Diagram,
      statementsOf? 20 "stateDiagram-v2\n[*] --> A\nstate B \x7b\n[*] --> C\nC --> [*]\n\x7d\n" = some body ∧
      allTerminals none body = [⟨none, true⟩, ⟨some "B", true⟩, ⟨some "B", false⟩] ∧
      Kind.state.Reads 20 "stateDiagram-v2\n[*] --> A\nstate B \x7b\n[*] --> C\nC --> [*]\n\x7d\n" d ∧
      d.HasOwnPseudoStates body := by
  have found : (statementsOf? 20 "stateDiagram-v2\n[*] --> A\nstate B \x7b\n[*] --> C\nC --> [*]\n\x7d\n").any
      (fun body => decide (allTerminals none body = [⟨none, true⟩, ⟨some "B", true⟩, ⟨some "B", false⟩] ∧
        allNamedIds body = ["A", "B", "C", "C"])) = true := by
    decide +kernel
  obtain ⟨body, hbody, htest⟩ := (Option.any_eq_true _ _).1 found
  obtain ⟨marks, names⟩ := of_decide_eq_true htest
  have reads := reads_iff.2 ⟨body, hbody, rfl⟩
  obtain ⟨body', hbody', own⟩ := own_pseudoStates_iff reads
  obtain rfl := Option.some.inj (hbody.symm.trans hbody')
  exact ⟨body, _, hbody, marks, reads, own.2 (by rw [marks, names]; decide +kernel)⟩

/-- Starts outside of all composite states and in one called `root` stand for one state. -/
theorem exists_shared_pseudoState :
    ∃ body, statementsOf? 20 "stateDiagram-v2\n[*] --> A\nstate root \x7b\n[*] --> B\n\x7d\n" = some body ∧
      Kind.state.Reads 20 "stateDiagram-v2\n[*] --> A\nstate root \x7b\n[*] --> B\n\x7d\n"
        (Diagram.ofStatements body) ∧
      ⟨none, true⟩ ∈ allTerminals none body ∧ ⟨some "root", true⟩ ∈ allTerminals none body ∧
      (⟨none, true⟩ : Terminal).id = (⟨some "root", true⟩ : Terminal).id ∧
      ¬ (Diagram.ofStatements body).HasOwnPseudoStates body := by
  have found : (statementsOf? 20 "stateDiagram-v2\n[*] --> A\nstate root \x7b\n[*] --> B\n\x7d\n").any
      (fun body => decide (⟨none, true⟩ ∈ allTerminals none body ∧
        ⟨some "root", true⟩ ∈ allTerminals none body)) = true := by
    decide +kernel
  obtain ⟨body, hbody, htest⟩ := (Option.any_eq_true _ _).1 found
  obtain ⟨outermost, inside⟩ := of_decide_eq_true htest
  refine ⟨body, hbody, reads_iff.2 ⟨body, hbody, rfl⟩, outermost, inside, rfl, fun own => ?_⟩
  cases own.distinct _ outermost _ inside rfl

end DiagramText.StateDiagram
