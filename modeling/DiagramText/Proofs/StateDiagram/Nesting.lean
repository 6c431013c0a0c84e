import DiagramText.Proofs.PseudoStates
import DiagramText.Proofs.UniqueIds

/-!
# States inside states

Statements mention states, each mention from inside a composite state and in one of its regions
(`allPlacements`). The diagram of the statements has of each state the place of its first mention, while its
kind goes on to follow the mentions (`Scope.placements_applyAll`). So statements only add states at the end
and move none (`Scope.spots_applyAll_prefix`).

What is inside a composite state is mentioned after it, since the statements of a body come after the one
that opens it (`grounded_allPlacements`). Hence a parent stands before its children in the list of states,
and the states are a forest (`isForest_ofStatements`).
-/

namespace DiagramText

namespace StateDiagram

open Reading

/-! ## Mentions of states -/

/-- A state with the composite state around it and the region there. -/
structure Spot where
  id : String
  parent : Option String := none
  region : Nat := 0
deriving DecidableEq, Inhabited

instance : Keyed Spot := ⟨Spot.id⟩

/-- What a mention says of a state: where it is, if this is its first mention, and of what kind. -/
structure Placement extends Spot where
  kind : StateKind := .normal
deriving DecidableEq, Inhabited

instance : Keyed Placement := ⟨fun p => p.id⟩

namespace Placement

/-- What a placement says together with a later one of the same state. -/
def join (p later : Placement) : Placement :=
  { p with kind := if later.kind = .normal then p.kind else later.kind }

/-- The placement inside `parent`; at the outermost level it is left as it is. -/
def inside (parent : Option String) (region : Nat) (p : Placement) : Placement :=
  if parent.isNone then p else { p with parent, region }

@[simp] theorem id_inside (parent : Option String) (region : Nat) (p : Placement) :
    (p.inside parent region).id = p.id := by
  unfold inside
  split <;> rfl

@[simp] theorem kind_inside (parent : Option String) (region : Nat) (p : Placement) :
    (p.inside parent region).kind = p.kind := by
  unfold inside
  split <;> rfl

/-- A placement that says nothing of a parent is inside the one around it. -/
theorem parent_inside {parent : Option String} {p : Placement} (bare : p.parent = none) (region : Nat) :
    (p.inside parent region).parent = parent := by
  cases parent with
  | none => exact bare
  | some parent => rfl

/-- Where a state is mentioned says nothing new if it is there already. -/
theorem add_inside {items : List Placement} {p : Placement} (taken : Keyed.has items p.id = true)
    (parent : Option String) (region : Nat) :
    Keyed.add join items (p.inside parent region) = Keyed.add join items p := by
  have joined : (join · (p.inside parent region)) = (join · p) := by
    funext old
    simp [join]
  have own : Keyed.id (p.inside parent region) = p.id := id_inside parent region p
  have same : Keyed.id p = p.id := rfl
  rw [Keyed.add, Keyed.add, own, same, joined, if_pos taken, if_pos taken]

end Placement

/-- The kind and the place of a state of a diagram. -/
def State.placement (s : State) : Placement :=
  { id := s.id, parent := s.parent, region := s.region, kind := s.kind }

/-- What a mention inside `scope` says of the state that it stands for. -/
def Mention.placement (scope : Option String) (start : Bool) : Mention → Placement
  | terminal => { id := terminalId scope start, kind := if start then .start else .finish }
  | named id _ => { id := id }

/-- The number of regions that a statement ends. -/
def breaks : Statement → Nat
  | .regionBreak => 1
  | _ => 0

mutual

/-- What a statement inside `parent` says of states, in order. -/
def placements (parent : Option String) (region : Nat) : Statement → List Placement
  | .composite id _ body =>
    Placement.inside parent region { id := id, kind := .composite (Scope.regions body) } ::
      allPlacements (some id) 0 body
  | .declare s => [s.placement.inside parent region]
  | .transition source target _ =>
    [(source.placement parent true).inside parent region, (target.placement parent false).inside parent region]
  | .reference m => [(m.placement parent true).inside parent region]
  | _ => []

/-- What statements inside `parent` say of states, in order. -/
def allPlacements (parent : Option String) (region : Nat) : List Statement → List Placement
  | [] => []
  | statement :: rest =>
    placements parent region statement ++ allPlacements parent (region + breaks statement) rest

end

/-- The states of statements, each with the place of its first mention. -/
def firstSpots (body : List Statement) : List Spot :=
  ((allPlacements none 0 body).map Placement.toSpot).foldl Keyed.ensure []

namespace Diagram

/-- The kinds and places of the states. -/
def placements (d : Diagram) : List Placement := d.states.map State.placement

/-- The places of the states. -/
def spots (d : Diagram) : List Spot := d.placements.map Placement.toSpot

theorem has_placements (d : Diagram) (id : String) : Keyed.has d.placements id = d.hasState id := by
  rw [hasState_eq]
  exact Keyed.has_map State.placement (fun _ => rfl) d.states id

theorem placements_addState (d : Diagram) (s : State) :
    (d.addState s).placements = Keyed.add Placement.join d.placements s.placement := by
  rw [placements, states_addState]
  exact Keyed.map_add State.placement (fun _ => rfl) (fun _ _ => rfl) d.states s

theorem placements_assignClass (d : Diagram) (id name : String) :
    (d.assignClass id name).placements = d.placements := by
  rw [placements, states_assignClass]
  exact Keyed.map_update_same State.placement (by exact fun _ => rfl) d.states id

end Diagram

open Diagram

/-! ## Placing states -/

namespace Scope

theorem placements_declare (parent : Option String) (s : Scope) (state : State) :
    (s.declare parent state).diagram.placements =
      Keyed.add Placement.join s.diagram.placements (state.placement.inside parent s.region) := by
  simp only [declare, onDiagram, placements_addState]
  split
  · rename_i kept
    rw [Bool.or_eq_true, ← has_placements] at kept
    obtain taken | outermost := kept
    · exact (Placement.add_inside taken parent s.region).symm
    · rw [Placement.inside, if_pos outermost]
  · rename_i placed
    simp only [Bool.or_eq_true, not_or] at placed
    rw [Placement.inside, if_neg placed.2]
    rfl

theorem resolve_places (parent : Option String) (s : Scope) (m : Mention) (source : Bool) :
    (s.resolve parent m source).2.diagram.placements =
        Keyed.add Placement.join s.diagram.placements ((m.placement parent source).inside parent s.region) ∧
      (s.resolve parent m source).2.region = s.region := by
  cases m with
  | terminal => exact ⟨placements_declare parent s _, rfl⟩
  | named id class? =>
    have declared := placements_declare parent s { id := id }
    cases class? with
    | none => exact ⟨declared, rfl⟩
    | some name => exact ⟨(placements_assignClass _ id name).trans declared, rfl⟩

mutual

theorem placements_apply (parent : Option String) (s : Scope) : ∀ statement : Statement,
    (s.apply parent statement).diagram.placements =
        (placements parent s.region statement).foldl (Keyed.add Placement.join) s.diagram.placements ∧
      (s.apply parent statement).region = s.region + breaks statement
  | .accessible _ | .regionBreak | .note _ | .defineClass _ _ => ⟨rfl, rfl⟩
  | .direction _ => by
    simp only [apply]
    split <;> exact ⟨rfl, rfl⟩
  | .composite id label body => by
    have inner := placements_applyAll (some id)
      ⟨(s.declare parent { id, kind := .composite (regions body), label }).diagram, 0⟩ body
    rw [placements_declare] at inner
    exact ⟨inner, rfl⟩
  | .declare state => ⟨placements_declare parent s state, rfl⟩
  | .transition source target label => by
    obtain ⟨first, same⟩ := resolve_places parent s source true
    obtain ⟨second, same'⟩ := resolve_places parent (s.resolve parent source true).2 target false
    rw [same, first] at second
    exact ⟨second, same'.trans same⟩
  | .reference m => resolve_places parent s m true
  | .assignClass targets name =>
    ⟨foldl_same (fun id _ d => placements_assignClass d id name) s.diagram, rfl⟩

/-- Statements give the states of a diagram the kinds and, if they are new, the places of their mentions. -/
theorem placements_applyAll (parent : Option String) (s : Scope) : ∀ body : List Statement,
    (s.applyAll parent body).diagram.placements =
      (allPlacements parent s.region body).foldl (Keyed.add Placement.join) s.diagram.placements
  | [] => rfl
  | statement :: rest => by
    obtain ⟨first, region⟩ := placements_apply parent s statement
    have later := placements_applyAll parent (s.apply parent statement) rest
    rw [first, region, ← List.foldl_append] at later
    exact later

end

end Scope

/-- Later mentions of a state do not move it. -/
theorem map_toSpot_foldl (mentions items : List Placement) :
    (mentions.foldl (Keyed.add Placement.join) items).map Placement.toSpot =
      (mentions.map Placement.toSpot).foldl Keyed.ensure (items.map Placement.toSpot) := by
  induction mentions generalizing items with
  | nil => rfl
  | cons p mentions ih =>
    have added : (Keyed.add Placement.join items p).map Placement.toSpot =
        Keyed.ensure (items.map Placement.toSpot) p.toSpot :=
      Keyed.map_add Placement.toSpot (fun _ => rfl) (fun _ _ => rfl) items p
    rw [List.foldl_cons, ih, added]
    rfl

theorem Diagram.spots_ofStatements (body : List Statement) : (ofStatements body).spots = firstSpots body := by
  rw [spots, ofStatements, Scope.placements_applyAll, map_toSpot_foldl]
  rfl

/-- Statements leave the states that are there where they are. -/
theorem Scope.spots_applyAll_prefix (parent : Option String) (s : Scope) (body : List Statement) :
    s.diagram.spots <+: (s.applyAll parent body).diagram.spots := by
  rw [spots, spots, placements_applyAll, map_toSpot_foldl]
  exact Keyed.prefix_foldl_ensure _ _

/-! ## Parents before children -/

/-- Whether each mention of a state is inside a state that is known or mentioned before. -/
def Grounded (known : List String) : List Placement → Prop
  | [] => True
  | p :: rest => (∀ parent ∈ p.parent, parent ∈ known) ∧ Grounded (p.id :: known) rest

theorem Grounded.mono {known known' : List String} {mentions : List Placement} (h : Grounded known mentions)
    (more : known ⊆ known') : Grounded known' mentions := by
  induction mentions generalizing known known' with
  | nil => trivial
  | cons p rest ih => exact ⟨fun parent hp => more (h.1 parent hp), ih h.2 (List.cons_subset_cons p.id more)⟩

theorem Grounded.append {known : List String} {mentions more : List Placement} (h : Grounded known mentions)
    (hmore : Grounded known more) : Grounded known (mentions ++ more) := by
  induction mentions generalizing known with
  | nil => exact hmore
  | cons p rest ih => exact ⟨h.1, ih h.2 (hmore.mono (List.subset_cons_self p.id known))⟩

/-- Whether every parent in a list of states stands before its children. -/
def ParentsFirst (spots : List Spot) : Prop :=
  ∀ (i : Nat) (s : Spot), spots[i]? = some s → ∀ parent ∈ s.parent,
    ∃ j < i, ∃ t : Spot, spots[j]? = some t ∧ t.id = parent

theorem ParentsFirst.concat {spots : List Spot} {s : Spot} (h : ParentsFirst spots)
    (known : ∀ parent ∈ s.parent, parent ∈ Keyed.ids spots) : ParentsFirst (spots ++ [s]) := by
  intro i t ht parent hparent
  rw [List.getElem?_append] at ht
  split at ht
  · obtain ⟨j, before, found, hfound, e⟩ := h i t ht parent hparent
    refine ⟨j, before, found, ?_, e⟩
    rwa [List.getElem?_append_left (by omega)]
  · rename_i behind
    obtain rfl : s = t := by
      have := List.mem_of_getElem? ht
      exact (List.mem_singleton.1 this).symm
    obtain ⟨found, hmem, e⟩ := List.mem_map.1 (known parent hparent)
    obtain ⟨j, hj⟩ := List.mem_iff_getElem?.1 hmem
    have inside := (List.getElem?_eq_some_iff.1 hj).1
    refine ⟨j, by omega, found, ?_, e⟩
    rwa [List.getElem?_append_left inside]

/-- Grounded mentions put no state before its parent. -/
theorem ParentsFirst.foldl {spots : List Spot} (h : ParentsFirst spots) {mentions : List Placement}
    (grounded : Grounded (Keyed.ids spots) mentions) :
    ParentsFirst ((mentions.map Placement.toSpot).foldl Keyed.ensure spots) := by
  induction mentions generalizing spots with
  | nil => exact h
  | cons p rest ih =>
    obtain ⟨known, later⟩ := grounded
    rw [List.map_cons, List.foldl_cons, Keyed.ensure_eq]
    split
    · rename_i taken
      refine ih h (later.mono (List.cons_subset.2 ⟨?_, List.Subset.refl _⟩))
      exact Keyed.has_iff.1 taken
    · refine ih (h.concat known) (later.mono ?_)
      rw [Keyed.ids_append]
      exact List.cons_subset.2 ⟨List.mem_append_right _ (List.mem_singleton_self _), List.subset_append_left _ _⟩

mutual

/-- The states that a statement declares, as it says them. -/
def declared : Statement → List State
  | .composite _ _ body => allDeclared body
  | .declare s => [s]
  | _ => []

/-- The states that statements declare, as they say them. -/
def allDeclared : List Statement → List State
  | [] => []
  | statement :: rest => declared statement ++ allDeclared rest

end

/-- Whether no declaration says by itself where its state is. -/
def Bare (body : List Statement) : Prop := ∀ s ∈ allDeclared body, s.parent = none

theorem bare_cons {statement : Statement} {rest : List Statement} :
    Bare (statement :: rest) ↔ (∀ s ∈ declared statement, s.parent = none) ∧ Bare rest :=
  List.forall_mem_append

theorem Mention.parent_placement (scope : Option String) (start : Bool) (m : Mention) :
    (m.placement scope start).parent = none := by
  cases m <;> rfl

mutual

theorem grounded_placements {parent : Option String} {known : List String} (region : Nat)
    (hparent : ∀ p ∈ parent, p ∈ known) : ∀ statement : Statement, (∀ s ∈ declared statement, s.parent = none) →
      Grounded known (placements parent region statement)
  | .composite id _ body, bare => by
    refine ⟨?_, grounded_allPlacements 0 ?_ body bare⟩
    · rwa [Placement.parent_inside rfl]
    · rintro _ ⟨⟩
      rw [Placement.id_inside]
      exact List.mem_cons_self
  | .declare s, bare => by
    refine ⟨?_, trivial⟩
    rwa [Placement.parent_inside (p := s.placement) (bare s (List.mem_singleton_self s))]
  | .transition source target _, _ => by
    refine ⟨?_, ?_, trivial⟩
    · rwa [Placement.parent_inside (source.parent_placement parent true)]
    · rw [Placement.parent_inside (target.parent_placement parent false)]
      exact fun p hp => List.mem_cons_of_mem _ (hparent p hp)
  | .reference m, _ => by
    refine ⟨?_, trivial⟩
    rwa [Placement.parent_inside (m.parent_placement parent true)]
  | .accessible _, _ | .direction _, _ | .regionBreak, _ | .note _, _ | .defineClass _ _, _
  | .assignClass _ _, _ => trivial

/-- Whatever statements mention is inside the state around them or one that they mention before. -/
theorem grounded_allPlacements {parent : Option String} {known : List String} (region : Nat)
    (hparent : ∀ p ∈ parent, p ∈ known) : ∀ body : List Statement, Bare body →
      Grounded known (allPlacements parent region body)
  | [], _ => trivial
  | statement :: rest, bare =>
    (grounded_placements region hparent statement (bare_cons.1 bare).1).append
      (grounded_allPlacements _ hparent rest (bare_cons.1 bare).2)

end

theorem parentsFirst_firstSpots {body : List Statement} (bare : Bare body) :
    ParentsFirst (firstSpots body) := by
  have none : ParentsFirst [] := nofun
  refine none.foldl (grounded_allPlacements 0 ?_ body bare)
  nofun

/-! ## Lines of ancestors -/

namespace Diagram

/-- A state, the state around it, and so on up to one that is in no other. -/
inductive Lineage (d : Diagram) : State → List State → Prop
  | root {s : State} (outermost : s.parent = none) : Lineage d s [s]
  | step {s p : State} {id : String} {line : List State} (inside : s.parent = some id)
    (found : d.state? id = some p) (rest : Lineage d p line) : Lineage d s (s :: line)

/-- Whether the states of a diagram are a forest: each parent is there and stands before its children, and the
one line of ancestors of a state ends with one that has no parent, without repetition. -/
structure IsForest (d : Diagram) : Prop where
  before : ∀ s ∈ d.states, ∀ id ∈ s.parent, ∃ j i, d.stateIndex? id = some j ∧ d.stateIndex? s.id = some i ∧ j < i
  lineage : ∀ s ∈ d.states, ∃ line, d.Lineage s line ∧ (line.map State.id).Nodup ∧
    ∀ other, d.Lineage s other → other = line

theorem Lineage.unique {d : Diagram} {s : State} {line other : List State} (h : d.Lineage s line)
    (h' : d.Lineage s other) : other = line := by
  induction h generalizing other with
  | root outermost =>
    cases h' with
    | root _ => rfl
    | step inside _ _ => cases outermost.symm.trans inside
  | step inside found rest ih =>
    cases h' with
    | root outermost => cases outermost.symm.trans inside
    | step inside' found' rest' =>
      obtain rfl := Option.some.inj (inside.symm.trans inside')
      obtain rfl := Option.some.inj (found.symm.trans found')
      rw [ih rest']

theorem parentsFirst_iff {d : Diagram} : ParentsFirst d.spots ↔ ∀ (i : Nat) (s : State), d.states[i]? = some s →
    ∀ id ∈ s.parent, ∃ j < i, ∃ p : State, d.states[j]? = some p ∧ p.id = id := by
  simp [ParentsFirst, spots, placements, State.placement]

/-- The line of ancestors goes down in the list of states. -/
theorem exists_lineage {d : Diagram} (distinct : (Keyed.ids d.states).Nodup) (first : ParentsFirst d.spots) :
    ∀ (i : Nat) (s : State), d.states[i]? = some s → ∃ line, d.Lineage s line ∧ (line.map State.id).Nodup ∧
      ∀ t ∈ line, ∃ j ≤ i, d.states[j]? = some t := by
  intro i
  induction i using Nat.strongRecOn with
  | ind i ih =>
    intro s hs
    cases parent : s.parent with
    | none => exact ⟨[s], .root parent, List.nodup_singleton _, by simpa using ⟨i, Nat.le_refl i, hs⟩⟩
    | some id =>
      obtain ⟨j, before, p, hp, rfl⟩ := parentsFirst_iff.1 first i s hs id parent
      obtain ⟨line, hline, apart, inside⟩ := ih j before p hp
      have found : d.state? p.id = some p := by
        rw [d.state?_eq]
        exact Keyed.find?_of_mem distinct (List.mem_of_getElem? hp)
      refine ⟨s :: line, .step parent found hline, List.nodup_cons.2 ⟨?_, apart⟩, ?_⟩
      · intro again
        obtain ⟨t, ht, e⟩ := List.mem_map.1 again
        obtain ⟨k, hk, hfound⟩ := inside t ht
        have same : some k = some i := by
          rw [← Keyed.index?_of_getElem? distinct hfound, ← Keyed.index?_of_getElem? distinct hs]
          exact congrArg _ e
        have := Option.some.inj same
        omega
      · intro t ht
        obtain rfl | ht := List.mem_cons.1 ht
        · exact ⟨i, Nat.le_refl i, hs⟩
        · obtain ⟨k, hk, hfound⟩ := inside t ht
          exact ⟨k, by omega, hfound⟩

theorem isForest_of_parentsFirst {d : Diagram} (distinct : (Keyed.ids d.states).Nodup)
    (first : ParentsFirst d.spots) : d.IsForest where
  before s hs id hid := by
    simp only [d.stateIndex?_eq]
    obtain ⟨i, hi⟩ := List.mem_iff_getElem?.1 hs
    obtain ⟨j, before, p, hp, rfl⟩ := parentsFirst_iff.1 first i s hi id hid
    exact ⟨j, i, Keyed.index?_of_getElem? distinct hp, Keyed.index?_of_getElem? distinct hi, before⟩
  lineage s hs := by
    obtain ⟨i, hi⟩ := List.mem_iff_getElem?.1 hs
    obtain ⟨line, hline, apart, -⟩ := exists_lineage distinct first i s hi
    exact ⟨line, hline, apart, fun _ other => hline.unique other⟩

end Diagram

/-! ## Statements that are read -/

theorem bare_iff {body : List Statement} :
    Bare body ↔ ∀ statement ∈ body, ∀ s ∈ declared statement, s.parent = none := by
  induction body with
  | nil => exact ⟨nofun, nofun⟩
  | cons statement rest ih => rw [bare_cons, ih, List.forall_mem_cons]

theorem bare_of_read {inner : List Tree → Reading Fallacy (List Statement)} {t : Tree} {statement : Statement}
    (deeper : ∀ trees body, inner trees = .ok body → Bare body) (h : (statements inner).read t = .ok statement) :
    ∀ s ∈ declared statement, s.parent = none := by
  have shape := exists_shape h
  simp [Captions.shapes.accessibleShapes, bind_eq_ok, pure_eq_ok, -bind_pure_comp] at shape
  obtain composite | regionBreak | stereotyped | declaration | note | direction | classDef | classStatement |
    transition | description | reference | title | accDescr := shape
  · obtain ⟨-, _, -, _, -, body, hbody, rfl⟩ := composite
    exact deeper _ body hbody
  · obtain ⟨-, rfl⟩ := regionBreak
    nofun
  · obtain ⟨-, _, -, _, -, _, -, _, -, rfl⟩ := stereotyped
    exact List.forall_mem_singleton.2 rfl
  · obtain ⟨-, _, -, _, -, rfl⟩ := declaration
    exact List.forall_mem_singleton.2 rfl
  · obtain ⟨-, _, -, _, -, _, -, rfl⟩ := note
    nofun
  · obtain ⟨-, word, -, h⟩ := direction
    cases hword : Direction.ofWord word with
    | error unknown =>
      rw [hword] at h
      cases h
    | ok direction =>
      rw [hword] at h
      obtain rfl := pure_eq_ok.1 h
      nofun
  · obtain ⟨-, _, -, _, -, _, -, _, -, rfl⟩ := classDef
    nofun
  · obtain ⟨-, _, -, _, -, rfl⟩ := classStatement
    nofun
  · obtain ⟨-, _, -, _, -, _, -, rfl⟩ := transition
    nofun
  · obtain ⟨-, _, -, _, -, _, -, rfl⟩ := description
    exact List.forall_mem_singleton.2 rfl
  · obtain ⟨-, _, -, rfl⟩ := reference
    nofun
  · obtain ⟨-, _, -, rfl⟩ := title
    nofun
  · obtain ⟨-, _, -, rfl⟩ := accDescr
    nofun

/-- The reader makes no declaration that says by itself where its state is. -/
theorem bare_of_readBody {depth : Nat} {trees : List Tree} {body : List Statement}
    (h : readBody depth trees = .ok body) : Bare body := by
  induction depth generalizing trees body with
  | zero =>
    obtain rfl : [] = body := Except.ok.inj h
    nofun
  | succ depth ih =>
    refine bare_iff.2 fun statement hstatement => ?_
    obtain ⟨t, -, hread⟩ := exists_of_mem_mapM h statement hstatement
    exact bare_of_read (fun _ _ => ih) hread

theorem bare_of_statementsOf {depth : Nat} {input : String} {body : List Statement}
    (h : statementsOf? depth input = some body) : Bare body := by
  obtain ⟨tree, -, hread⟩ := Option.bind_eq_some_iff.1 h
  exact bare_of_readBody (toOption_eq_some.1 hread)

/-- The states of statements are a forest, which grows downwards from the state of each first mention: later
statements put no state elsewhere. -/
theorem isForest_ofStatements :
    (∀ body, Bare body → (Diagram.ofStatements body).IsForest) ∧
      (∀ depth input body, statementsOf? depth input = some body → Bare body) ∧
      (∀ body, (Diagram.ofStatements body).spots = firstSpots body) ∧
      ∀ parent (s : Scope) body, s.diagram.spots <+: (s.applyAll parent body).diagram.spots := by
  refine ⟨fun body bare => ?_, fun _ _ _ => bare_of_statementsOf, Diagram.spots_ofStatements,
    Scope.spots_applyAll_prefix⟩
  refine Diagram.isForest_of_parentsFirst ?_ ?_
  · exact Scope.applyAll_keeps none { diagram := {} } body List.nodup_nil
  · rw [Diagram.spots_ofStatements]
    exact parentsFirst_firstSpots bare

/-- A composite state that is inside itself by name and is given again in another one. -/
theorem isForest_given_again :
    ∃ body,
      statementsOf? 20 ("stateDiagram-v2\nstate A \x7b\nstate A \x7b\nx\n\x7d\n\x7d\n" ++
        "state B \x7b\nstate A \x7b\ny\n--\nx\n\x7d\n\x7d\n") = some body ∧
      Bare body ∧ (Diagram.ofStatements body).IsForest ∧
      (Diagram.ofStatements body).spots =
        [{ id := "A" }, { id := "x", parent := some "A" }, { id := "B" }, { id := "y", parent := some "A" }] := by
  have found : (statementsOf? 20 ("stateDiagram-v2\nstate A \x7b\nstate A \x7b\nx\n\x7d\n\x7d\n" ++
        "state B \x7b\nstate A \x7b\ny\n--\nx\n\x7d\n\x7d\n")).any
      (fun body => decide (firstSpots body =
        [{ id := "A" }, { id := "x", parent := some "A" }, { id := "B" }, { id := "y", parent := some "A" }])) =
        true := by
    decide +kernel
  obtain ⟨body, hbody, htest⟩ := (Option.any_eq_true _ _).1 found
  have bare := isForest_ofStatements.2.1 _ _ body hbody
  refine ⟨body, hbody, bare, isForest_ofStatements.1 body bare, ?_⟩
  rw [isForest_ofStatements.2.2.1 body]
  exact of_decide_eq_true htest

end StateDiagram

end DiagramText
