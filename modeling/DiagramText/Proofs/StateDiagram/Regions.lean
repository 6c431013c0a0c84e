import DiagramText.Proofs.StateDiagram.Nesting

/-!
# Regions of composite states

What is mentioned inside a composite state is in one of the regions that the statements there have
(`exists_opening`). But a composite state may be opened several times, each time with regions of its own,
and it ends with those of the last time (`getLast?_openings`), while the states inside stay where they were
put first. So all states are in regions that there are exactly if none was put beyond the regions that its
parent has the last time, for which it is enough that this time has the most (`regionsInRange_iff`).
-/

namespace DiagramText

namespace StateDiagram

/-- The number of regions of a composite state. -/
def StateKind.regions? : StateKind → Option Nat
  | composite regions => some regions
  | _ => none

/-- The numbers of regions with which mentions open a composite state, in order. -/
def regionCounts (mentions : List Placement) (id : String) : List Nat :=
  mentions.filterMap fun p => if p.id = id then p.kind.regions? else none

theorem regionCounts_cons (p : Placement) (mentions : List Placement) (id : String) :
    regionCounts (p :: mentions) id =
      (if p.id = id then p.kind.regions? else none).toList ++ regionCounts mentions id := by
  rw [regionCounts, List.filterMap_cons]
  split <;> simp_all [regionCounts]

theorem regionCounts_append (mentions more : List Placement) (id : String) :
    regionCounts (mentions ++ more) id = regionCounts mentions id ++ regionCounts more id :=
  List.filterMap_append

/-! ## Inside the regions of an opening -/

theorem regions_cons (statement : Statement) (rest : List Statement) :
    Scope.regions (statement :: rest) = breaks statement + Scope.regions rest := by
  cases statement <;> simp +arith [Scope.regions, breaks]

theorem one_le_regions (body : List Statement) : 1 ≤ Scope.regions body :=
  Nat.le_add_right 1 _

/-- A mention that says nothing of a parent is in the region around it. -/
theorem Placement.eq_of_mem_parent_inside {parent : Option String} {region : Nat} {p : Placement}
    (bare : p.parent = none) : ∀ id ∈ (p.inside parent region).parent,
      parent = some id ∧ (p.inside parent region).region = region := by
  intro id hid
  rw [parent_inside bare] at hid
  cases hid
  exact ⟨rfl, rfl⟩

mutual

theorem exists_opening_of_mem {parent : Option String} {region : Nat} : ∀ statement : Statement,
    (∀ s ∈ declared statement, s.parent = none) → ∀ p ∈ placements parent region statement, ∀ id ∈ p.parent,
      (parent = some id ∧ p.region = region) ∨
        ∃ n ∈ regionCounts (placements parent region statement) id, p.region < n
  | .composite id' _ body, bare => by
    intro p hp id hid
    rw [placements, regionCounts_cons]
    obtain rfl | hp := List.mem_cons.1 hp
    · exact .inl (Placement.eq_of_mem_parent_inside rfl id hid)
    · refine .inr ?_
      obtain ⟨⟨⟩, inside⟩ | ⟨n, hn, inside⟩ := exists_opening body bare p hp id hid
      · refine ⟨Scope.regions body, List.mem_append_left _ ?_, by omega⟩
        simp [StateKind.regions?]
      · exact ⟨n, List.mem_append_right _ hn, inside⟩
  | .declare s, bare => by
    intro p hp
    obtain rfl := List.mem_singleton.1 hp
    exact fun id hid => .inl (Placement.eq_of_mem_parent_inside (bare s (List.mem_singleton_self s)) id hid)
  | .transition source target _, _ => by
    intro p hp id hid
    refine .inl ?_
    obtain rfl | hp := List.mem_cons.1 hp
    · exact Placement.eq_of_mem_parent_inside (source.parent_placement parent true) id hid
    · obtain rfl := List.mem_singleton.1 hp
      exact Placement.eq_of_mem_parent_inside (target.parent_placement parent false) id hid
  | .reference m, _ => by
    intro p hp
    obtain rfl := List.mem_singleton.1 hp
    exact fun id hid => .inl (Placement.eq_of_mem_parent_inside (m.parent_placement parent true) id hid)
  | .accessible _, _ | .direction _, _ | .regionBreak, _ | .note _, _ | .defineClass _ _, _
  | .assignClass _ _, _ => nofun

/-- What is mentioned inside a composite state is in one of the regions of an opening of it. -/
theorem exists_opening {parent : Option String} {region : Nat} : ∀ body : List Statement, Bare body →
    ∀ p ∈ allPlacements parent region body, ∀ id ∈ p.parent,
      (parent = some id ∧ p.region < region + Scope.regions body) ∨
        ∃ n ∈ regionCounts (allPlacements parent region body) id, p.region < n
  | [], _ => nofun
  | statement :: rest, bare => by
    intro p hp id hid
    obtain ⟨first, later⟩ := bare_cons.1 bare
    rw [allPlacements, regionCounts_append, regions_cons]
    obtain hp | hp := List.mem_append.1 hp
    · obtain ⟨same, here⟩ | ⟨n, hn, inside⟩ := exists_opening_of_mem statement first p hp id hid
      · have := one_le_regions rest
        exact .inl ⟨same, by omega⟩
      · exact .inr ⟨n, List.mem_append_left _ hn, inside⟩
    · obtain ⟨same, here⟩ | ⟨n, hn, inside⟩ := exists_opening rest later p hp id hid
      · exact .inl ⟨same, by omega⟩
      · exact .inr ⟨n, List.mem_append_right _ hn, inside⟩

end

/-! ## The last opening -/

theorem getLast?_regionCounts_concat (mentions : List Placement) (last : Placement) (id : String) :
    (regionCounts (mentions ++ [last]) id).getLast? =
      (if last.id = id then last.kind.regions? else none).or (regionCounts mentions id).getLast? := by
  rw [regionCounts_append, List.getLast?_append, regionCounts_cons]
  cases (if last.id = id then last.kind.regions? else none) <;> rfl

theorem Placement.regions?_of_join {p later : Placement} {n : Nat} (h : (p.join later).kind.regions? = some n) :
    later.kind.regions?.or p.kind.regions? = some n := by
  rw [join] at h
  by_cases normal : later.kind = .normal
  · rw [if_pos normal] at h
    rw [normal, ← h]
    rfl
  · rw [if_neg normal] at h
    rw [h, Option.some_or]

/-- A composite state has the regions of its last opening. -/
theorem getLast?_regionCounts {mentions : List Placement} {id : String} {p : Placement} {n : Nat}
    (found : Keyed.find? (mentions.foldl (Keyed.add Placement.join) []) id = some p)
    (composite : p.kind.regions? = some n) : (regionCounts mentions id).getLast? = some n := by
  induction mentions using List.reverseRecOn generalizing p with
  | nil => cases found
  | append_singleton mentions last ih =>
    rw [List.foldl_append, List.foldl_cons, List.foldl_nil, Keyed.find?_add (fun _ same => same)] at found
    rw [getLast?_regionCounts_concat]
    by_cases same : last.id = id
    · rw [if_pos (show Keyed.id last = id from same)] at found
      rw [if_pos same]
      cases before : Keyed.find? (mentions.foldl (Keyed.add Placement.join) []) id with
      | none =>
        rw [before] at found
        obtain rfl : last = p := Option.some.inj found
        rw [composite, Option.some_or]
      | some old =>
        rw [before] at found
        obtain rfl : old.join last = p := Option.some.inj found
        have given := Option.or_eq_some_iff.1 (Placement.regions?_of_join composite)
        exact Option.or_eq_some_iff.2 (given.imp_right fun ⟨silent, kept⟩ => ⟨silent, ih before kept⟩)
    · rw [if_neg (show ¬Keyed.id last = id from same)] at found
      rw [if_neg same, Option.none_or]
      exact ih found composite

/-! ## Regions of a diagram -/

/-- The numbers of regions with which statements open a composite state, in order. -/
def openings (body : List Statement) (id : String) : List Nat :=
  regionCounts (allPlacements none 0 body) id

namespace Diagram

/-- The number of regions of the composite state with an id. -/
def regions? (d : Diagram) (id : String) : Option Nat := (d.state? id).bind (·.kind.regions?)

/-- Whether every state inside another is in one of its regions. -/
def RegionsInRange (d : Diagram) : Prop :=
  ∀ s ∈ d.states, ∀ id ∈ s.parent, ∃ n ∈ d.regions? id, s.region < n

instance (d : Diagram) : Decidable d.RegionsInRange :=
  inferInstanceAs (Decidable (∀ s ∈ d.states, ∀ id ∈ s.parent, ∃ n ∈ d.regions? id, s.region < n))

/-- Without issues every parent is a composite state. -/
theorem exists_regions {d : Diagram} (valid : d.issues = []) {s : State} (hs : s ∈ d.states) :
    ∀ id ∈ s.parent, ∃ n, d.regions? id = some n := by
  intro id hid
  simp only [issues, List.append_eq_nil_iff, List.map_eq_nil_iff, List.filter_eq_nil_iff] at valid
  have composite := valid.1.1.2 id (List.mem_filterMap.2 ⟨s, hs, hid⟩)
  rw [Bool.not_eq_true, Bool.not_eq_false', isComposite, Option.any_eq_true] at composite
  obtain ⟨p, found, composite⟩ := composite
  rw [regions?, found, Option.bind_some]
  cases kind : p.kind with
  | composite n => exact ⟨n, rfl⟩
  | normal | start | finish | choice | fork | join =>
    rw [kind] at composite
    cases composite

theorem regions?_eq (d : Diagram) (id : String) :
    d.regions? id = (Keyed.find? d.placements id).bind (·.kind.regions?) := by
  have found := Keyed.find?_map State.placement (fun _ => rfl) d.states id
  rw [regions?, state?_eq, placements, found, Option.bind_map]
  rfl

/-- A composite state has the regions of its last opening. -/
theorem getLast?_openings {body : List Statement} {id : String} {n : Nat}
    (h : (ofStatements body).regions? id = some n) :
    (openings body id).getLast? = some n := by
  rw [regions?_eq, ofStatements, Scope.placements_applyAll] at h
  obtain ⟨p, found, composite⟩ := Option.bind_eq_some_iff.1 h
  exact getLast?_regionCounts found composite

end Diagram

/-- A state inside another is in one of the regions that statements give that one at some time. -/
theorem exists_opening_of_firstSpot {body : List Statement} (bare : Bare body) {spot : Spot}
    (h : spot ∈ firstSpots body) : ∀ id ∈ spot.parent, ∃ n ∈ openings body id, spot.region < n := by
  intro id hid
  obtain h | h := Keyed.mem_foldl_ensure h
  · cases h
  · obtain ⟨p, hp, rfl⟩ := List.mem_map.1 h
    obtain ⟨none, -⟩ | found := exists_opening body bare p hp id hid
    · cases none
    · exact found

theorem parseAs_of_statementsOf {options : ParseOptions} {input : String} {body : List Statement}
    (h : statementsOf? (options.nesting + 1) (sourceOf options input) = some body)
    (valid : (Diagram.ofStatements body).issues = []) :
    parseAs .all options .state input = .ok ⟨.state, Diagram.ofStatements body⟩ := by
  obtain ⟨tree, hparse, hread⟩ := reads_iff.2 ⟨body, h, rfl⟩
  exact parseAs_eq_ok.2 ⟨tree, _, hparse, hread, checkedModel_of_valid valid⟩

/-- Without issues all states are in regions that there are exactly if no state was put, at its first mention,
beyond the regions that its parent has the last time it is opened. It is enough that this time has the most. -/
theorem regionsInRange_iff {options : ParseOptions} {input : String} {d : Diagram}
    (accepted : parseAs .all options .state input = .ok ⟨.state, d⟩) (valid : d.issues = []) :
    ∃ body, statementsOf? (options.nesting + 1) (sourceOf options input) = some body ∧
      (d.RegionsInRange ↔ ∀ spot ∈ firstSpots body, ∀ id ∈ spot.parent,
        ∀ n ∈ (openings body id).getLast?, spot.region < n) ∧
      ((∀ id, ∀ n ∈ openings body id,
        ∀ last ∈ (openings body id).getLast?, n ≤ last) → d.RegionsInRange) := by
  obtain ⟨tree, content, hparse, hread, hchecked⟩ := parseAs_eq_ok.1 accepted
  obtain rfl : d = content := by
    cases eq_of_checkedModel hchecked
    rfl
  obtain ⟨body, hbody, rfl⟩ := reads_iff.1 ⟨tree, hparse, hread⟩
  have bare := bare_of_statementsOf hbody
  have last {id : String} {n : Nat} (h : (Diagram.ofStatements body).regions? id = some n) :
      (openings body id).getLast? = some n := Diagram.getLast?_openings h
  have given : ∀ s ∈ (Diagram.ofStatements body).states, s.placement.toSpot ∈ firstSpots body := by
    intro s hs
    rw [← Diagram.spots_ofStatements]
    exact List.mem_map_of_mem (List.mem_map_of_mem hs)
  refine ⟨body, hbody, ⟨fun inRange spot hspot id hid n hn => ?_, fun inRange s hs id hid => ?_⟩,
    fun most s hs id hid => ?_⟩
  · rw [← Diagram.spots_ofStatements] at hspot
    obtain ⟨p, hp, rfl⟩ := List.mem_map.1 hspot
    obtain ⟨s, hs, rfl⟩ := List.mem_map.1 hp
    obtain ⟨n', hn', inside⟩ := inRange s hs id hid
    obtain rfl := Option.some.inj ((last hn').symm.trans hn)
    exact inside
  · obtain ⟨n, hn⟩ := Diagram.exists_regions valid hs id hid
    exact ⟨n, hn, inRange s.placement.toSpot (given s hs) id hid n (last hn)⟩
  · obtain ⟨n, hn⟩ := Diagram.exists_regions valid hs id hid
    obtain ⟨opened, hopened, inside⟩ := exists_opening_of_firstSpot bare (given s hs) id hid
    exact ⟨n, hn, Nat.lt_of_lt_of_le inside (most id opened hopened n (last hn))⟩

/-- A composite state that is opened again with more regions. -/
theorem regionsInRange_more :
    ∃ d : Diagram,
      parseAs .all { nesting := 20 } .state "stateDiagram-v2\nstate A \x7b\nx\n\x7d\nstate A \x7b\ny\n--\nz\n\x7d\n" =
        .ok ⟨.state, d⟩ ∧
      d.issues = [] ∧ d.regions? "A" = some 2 ∧ d.RegionsInRange := by
  have found : (statementsOf? 21 (sourceOf { nesting := 20 }
      "stateDiagram-v2\nstate A \x7b\nx\n\x7d\nstate A \x7b\ny\n--\nz\n\x7d\n")).any (fun body =>
        decide ((Diagram.ofStatements body).issues = [] ∧ (Diagram.ofStatements body).regions? "A" = some 2 ∧
          ∀ spot ∈ firstSpots body, ∀ id ∈ spot.parent, ∀ n ∈ (openings body id).getLast?, spot.region < n)) =
        true := by
    decide +kernel
  obtain ⟨body, hbody, htest⟩ := (Option.any_eq_true _ _).1 found
  obtain ⟨valid, two, inside⟩ := of_decide_eq_true htest
  have accepted := @parseAs_of_statementsOf { nesting := 20 } _ _ hbody valid
  obtain ⟨body', hbody', inRange, -⟩ := regionsInRange_iff accepted valid
  obtain rfl := Option.some.inj (hbody.symm.trans hbody')
  exact ⟨_, accepted, valid, two, inRange.2 inside⟩

/-- A state may be put in a region that its parent no longer has when it is opened again with fewer. -/
theorem exists_region_out_of_range :
    ∃ d : Diagram,
      parseAs .all { nesting := 20 } .state "stateDiagram-v2\nstate A \x7b\nx\n--\ny\n\x7d\nstate A \x7b\nz\n\x7d\n" =
        .ok ⟨.state, d⟩ ∧
      d.issues = [] ∧ ¬ d.RegionsInRange := by
  have found : (statementsOf? 21 (sourceOf { nesting := 20 }
      "stateDiagram-v2\nstate A \x7b\nx\n--\ny\n\x7d\nstate A \x7b\nz\n\x7d\n")).any (fun body =>
        decide ((Diagram.ofStatements body).issues = [] ∧
          ¬ (Diagram.ofStatements body).RegionsInRange)) = true := by
    decide +kernel
  obtain ⟨body, hbody, htest⟩ := (Option.any_eq_true _ _).1 found
  obtain ⟨valid, outside⟩ := of_decide_eq_true htest
  exact ⟨_, parseAs_of_statementsOf hbody valid, valid, outside⟩

end StateDiagram

end DiagramText
