import DiagramText.Architecture
import Mathlib.Data.List.Nodup
import Mathlib.Data.List.Perm.Subperm

/-!
# Groups around a node

Parents lead from a node to the groups around it, but in a diagram that is put together by hand they may lead
to an id that nothing declares, or into a cycle that the node is not part of. `above d id k` is what lies `k`
steps above an id. The groups around a node are its line upwards as long as it neither comes back to the node
nor repeats an id (`Unbroken`). All the ids that it passes are declared, so that it ends within the number of
nodes (`Unbroken.length_lt`), and the climb to the groups is never cut off (`climbs_ancestors`). The search for
the node itself goes the same way, and finds it if it is what the climb stops at (`inCycle_eq`).

A line that stops at an id of its own goes round there for ever (`mem_of_above`), so it does not come back to
where it started. Where every node of a cycle is found fault with, every line upwards is finite
(`above_ancestors_eq_none`).
-/

namespace DiagramText.Architecture.Diagram

variable {d : Diagram} {id : String} {way : List String}

/-- What lies so many steps to a parent above an id. -/
def above (d : Diagram) (id : String) : Nat → Option String
  | 0 => some id
  | k + 1 => (d.above id k).bind d.parent?

theorem above_add (d : Diagram) (id : String) (m n : Nat) :
    d.above id (m + n) = (d.above id m).bind (d.above · n) := by
  induction n with
  | zero => exact (Option.bind_fun_some _).symm
  | succ n ih => rw [Nat.add_succ, above, ih, Option.bind_assoc]; rfl

/-- Below an id that is on the way up there are ids on the way up. -/
theorem isSome_above_of_le {m n : Nat} (le : m ≤ n) (h : (d.above id n).isSome = true) :
    (d.above id m).isSome = true := by
  obtain ⟨more, rfl⟩ := Nat.exists_eq_add_of_le le
  rw [above_add] at h
  exact Option.isSome_of_isSome_bind h

/-- Only what is declared has a parent. -/
theorem mem_ids_of_parent? {parent : String} (h : d.parent? id = some parent) : id ∈ d.nodes.map Item.id := by
  obtain ⟨node, found, -⟩ := Option.bind_eq_some_iff.1 h
  exact List.mem_map.2 ⟨node, List.mem_of_find?_eq_some found, by simpa using List.find?_some found⟩

/-! ## Lines upwards -/

/-- The first ids above an id, which do not come back to it and do not repeat. -/
structure Unbroken (d : Diagram) (id : String) (way : List String) : Prop where
  above : ∀ k < way.length, way[k]? = d.above id (k + 1)
  start : id ∉ way
  nodup : way.Nodup

namespace Unbroken

theorem nil : d.Unbroken id [] := ⟨nofun, List.not_mem_nil, .nil⟩

theorem mem_iff (u : d.Unbroken id way) {other : String} :
    other ∈ way ↔ ∃ k < way.length, d.above id (k + 1) = some other := by
  rw [List.mem_iff_getElem?]
  constructor
  · rintro ⟨k, at'⟩
    have lt := (List.getElem?_eq_some_iff.1 at').1
    exact ⟨k, lt, u.above k lt ▸ at'⟩
  · rintro ⟨k, lt, at'⟩
    exact ⟨k, (u.above k lt).trans at'⟩

/-- A line goes on with an id that is new to it. -/
theorem concat (u : d.Unbroken id way) {parent : String} (next : d.above id (way.length + 1) = some parent)
    (new : ¬(parent = id ∨ parent ∈ way)) : d.Unbroken id (way ++ [parent]) where
  above k lt := by
    rw [List.length_append, List.length_singleton] at lt
    rcases Nat.lt_succ_iff_lt_or_eq.1 lt with lt | rfl
    · rw [List.getElem?_append_left lt, u.above k lt]
    · rw [List.getElem?_concat_length, next]
  start := by
    rw [List.mem_append, List.mem_singleton, not_or]
    exact ⟨u.start, fun same => new (.inl same.symm)⟩
  nodup := List.concat_eq_append ▸ u.nodup.concat fun mem => new (.inr mem)

/-- A line that goes on is shorter than there are nodes. -/
theorem length_lt (u : d.Unbroken id way) (goesOn : (d.above id (way.length + 1)).isSome = true) :
    way.length < d.nodes.length := by
  have declared : id :: way ⊆ d.nodes.map Item.id := by
    have at' : ∀ k ≤ way.length, ∀ other, d.above id k = some other → other ∈ d.nodes.map Item.id := by
      intro k le other hother
      obtain ⟨parent, hparent⟩ :=
        Option.isSome_iff_exists.1 (isSome_above_of_le (Nat.succ_le_succ le) goesOn)
      rw [Diagram.above, hother] at hparent
      exact mem_ids_of_parent? hparent
    refine List.cons_subset.2 ⟨at' 0 (Nat.zero_le _) id rfl, fun other hother => ?_⟩
    obtain ⟨k, lt, hk⟩ := u.mem_iff.1 hother
    exact at' (k + 1) lt other hk
  have distinct : (id :: way).Nodup := List.nodup_cons.2 ⟨u.start, u.nodup⟩
  have := (List.subperm_of_subset distinct declared).length_le
  rwa [List.length_cons, List.length_map] at this

end Unbroken

/-! ## Climbs -/

/-- From an id on along parents, without a bound, the ids of the line are those up to the first one that comes
back, which is told as well. -/
inductive Climbs (d : Diagram) (id : String) : List String → Option String → List String × Option String → Prop
  | top {way : List String} : Climbs d id way none (way, none)
  | back {way : List String} {parent : String} (met : parent = id ∨ parent ∈ way) :
    Climbs d id way (some parent) (way, some parent)
  | up {way : List String} {parent : String} {result : List String × Option String}
    (new : ¬(parent = id ∨ parent ∈ way)) (more : Climbs d id (way ++ [parent]) (d.parent? parent) result) :
    Climbs d id way (some parent) result

theorem above_concat {parent : String} (next : d.above id (way.length + 1) = some parent) :
    d.above id ((way ++ [parent]).length + 1) = d.parent? parent := by
  rw [List.length_append, List.length_singleton, above, next, Option.bind_some]

theorem climbs_climb (u : d.Unbroken id way) {fuel : Nat} (room : d.nodes.length ≤ fuel + way.length) :
    ∃ stop, d.Climbs id way (d.above id (way.length + 1))
      (d.climb id fuel way (d.above id (way.length + 1)), stop) := by
  induction fuel generalizing way with
  | zero =>
    cases next : d.above id (way.length + 1) with
    | none => exact ⟨_, .top⟩
    | some parent =>
      have := u.length_lt (next ▸ rfl)
      omega
  | succ fuel ih =>
    cases next : d.above id (way.length + 1) with
    | none => exact ⟨_, .top⟩
    | some parent =>
      rw [climb]
      by_cases met : parent = id ∨ parent ∈ way
      · rw [if_pos (by simpa using met)]
        exact ⟨_, .back met⟩
      · rw [if_neg (by simpa using met)]
        obtain ⟨stop, rest⟩ := ih (u.concat next met) (by simp only [List.length_append, List.length_singleton]; omega)
        rw [above_concat next] at rest
        exact ⟨stop, .up met rest⟩

/-- The search for the node itself goes the way of the climb. -/
theorem returns_eq (u : d.Unbroken id way) {fuel : Nat} (room : d.nodes.length ≤ fuel + way.length)
    {seen : List String} (passed : ∀ other, other ∈ seen ↔ other ∈ way) {result : List String × Option String}
    (c : d.Climbs id way (d.above id (way.length + 1)) result) :
    d.returns id fuel seen (d.above id (way.length + 1)) = (result.2 == some id) := by
  induction fuel generalizing way seen with
  | zero =>
    cases next : d.above id (way.length + 1) with
    | none =>
      rw [next] at c
      cases c
      rfl
    | some parent =>
      have := u.length_lt (next ▸ rfl)
      omega
  | succ fuel ih =>
    cases next : d.above id (way.length + 1) with
    | none =>
      rw [next] at c
      cases c
      rfl
    | some parent =>
      rw [next] at c
      rw [returns]
      cases c with
      | back met =>
        by_cases own : parent = id
        · rw [if_pos own, own, beq_self_eq_true]
        · rw [if_neg own, if_pos (List.contains_iff_mem.2 ((passed parent).2 (met.resolve_left own)))]
          exact (beq_eq_false_iff_ne.2 fun same => own (Option.some.inj same)).symm
      | up new more =>
        have unseen : ¬seen.contains parent = true := fun known =>
          new (.inr ((passed parent).1 (List.contains_iff_mem.1 known)))
        rw [← above_concat next] at more
        rw [if_neg fun own => new (.inl own), if_neg unseen, ← above_concat next]
        refine ih (u.concat next new) (by simp only [List.length_append, List.length_singleton]; omega)
          (fun other => ?_) more
        rw [List.mem_cons, List.mem_append, List.mem_singleton, passed, or_comm]

/-- A climb leaves an unbroken line, and stops where nothing is above it or where the line comes back. -/
theorem Climbs.spec {current : Option String} {result : List String × Option String}
    (c : d.Climbs id way current result) (u : d.Unbroken id way)
    (next : current = d.above id (way.length + 1)) :
    d.Unbroken id result.1 ∧ result.2 = d.above id (result.1.length + 1) ∧
      ∀ other ∈ result.2, other = id ∨ other ∈ result.1 := by
  induction c with
  | top => exact ⟨u, next, nofun⟩
  | back met =>
    refine ⟨u, next, ?_⟩
    rintro _ ⟨⟩
    exact met
  | @up way parent result new more ih =>
    refine ih (u.concat next.symm new) ?_
    rw [List.length_append, List.length_singleton, above, ← next, Option.bind_some]

/-- The climb to the groups around a node stops at what lies above the last of them. -/
theorem climbs_ancestors (d : Diagram) (id : String) :
    d.Climbs id [] (d.parent? id) (d.ancestors id, d.above id ((d.ancestors id).length + 1)) := by
  obtain ⟨stop, climbs⟩ := climbs_climb (@Unbroken.nil d id) (Nat.le_refl _)
  obtain ⟨-, e, -⟩ := climbs.spec .nil rfl
  exact e ▸ climbs

theorem unbroken_ancestors (d : Diagram) (id : String) : d.Unbroken id (d.ancestors id) :=
  ((climbs_ancestors d id).spec .nil rfl).1

/-- Where the line of a node stops, it is at its end or comes back. -/
theorem comes_back {other : String} (h : d.above id ((d.ancestors id).length + 1) = some other) :
    other = id ∨ other ∈ d.ancestors id :=
  ((climbs_ancestors d id).spec .nil rfl).2.2 other h

theorem inCycle_eq (d : Diagram) (id : String) :
    d.inCycle id = (d.above id ((d.ancestors id).length + 1) == some id) :=
  returns_eq .nil (Nat.le_refl _) (fun _ => Iff.rfl) (climbs_ancestors d id)

/-! ## Queries -/

/-- Everything above a node whose line comes back to itself is on that line. -/
theorem mem_of_above {other : String} (h : d.above id ((d.ancestors id).length + 1) = some other)
    (back : other ∈ d.ancestors id) {k : Nat} {far : String} (hfar : d.above id (k + 1) = some far) :
    far ∈ d.ancestors id := by
  have u := unbroken_ancestors d id
  induction k generalizing far with
  | zero => exact u.mem_iff.2 ⟨0, List.length_pos_of_mem back, hfar⟩
  | succ k ih =>
    obtain ⟨near, hnear, step⟩ := Option.bind_eq_some_iff.1 hfar
    obtain ⟨place, lt, hplace⟩ := u.mem_iff.1 (ih hnear)
    have hfar : d.above id (place + 1 + 1) = some far := by rw [above, hplace, Option.bind_some, step]
    rcases Nat.lt_or_ge (place + 1) (d.ancestors id).length with inside | last
    · exact u.mem_iff.2 ⟨place + 1, inside, hfar⟩
    · obtain rfl : other = far := by
        rw [show place + 1 = (d.ancestors id).length by omega, h] at hfar
        exact Option.some.inj hfar
      exact back

/-- A node lies inside itself exactly if some steps to a parent lead back to it. -/
theorem inCycle_iff_above : d.inCycle id = true ↔ ∃ k, 1 ≤ k ∧ d.above id k = some id := by
  rw [inCycle_eq, beq_iff_eq]
  refine ⟨fun h => ⟨_, Nat.le_add_left 1 _, h⟩, ?_⟩
  rintro ⟨k, pos, hk⟩
  obtain ⟨k, rfl⟩ := Nat.exists_eq_add_of_le' pos
  have u := unbroken_ancestors d id
  cases next : d.above id ((d.ancestors id).length + 1) with
  | none =>
    rcases Nat.lt_or_ge k (d.ancestors id).length with inside | beyond
    · exact absurd (u.mem_iff.2 ⟨k, inside, hk⟩) u.start
    · have := isSome_above_of_le (Nat.succ_le_succ beyond) (Option.isSome_iff_exists.2 ⟨id, hk⟩)
      rw [next] at this
      cases this
  | some other =>
    rcases comes_back next with rfl | back
    · rfl
    · exact absurd (mem_of_above next back hk) u.start

/-- The groups around a node are the longest part of its line that is unbroken. -/
theorem isPrefix_ancestors (u : d.Unbroken id way) : way <+: d.ancestors id := by
  have whole := unbroken_ancestors d id
  have short : way.length ≤ (d.ancestors id).length := by
    by_contra longer
    have at' := u.above (d.ancestors id).length (by omega)
    obtain ⟨other, hother⟩ : ∃ other, way[(d.ancestors id).length]? = some other :=
      ⟨_, List.getElem?_eq_getElem (by omega)⟩
    rw [hother] at at'
    rcases comes_back at'.symm with rfl | back
    · exact u.start (List.mem_of_getElem? hother)
    · obtain ⟨k, lt, hk⟩ := whole.mem_iff.1 back
      have twice : way[k]? = way[(d.ancestors id).length]? := by
        rw [u.above k (by omega), hk, hother]
      have := (List.getElem?_inj (by omega) u.nodup).1 twice
      omega
  rw [List.prefix_iff_eq_take]
  refine List.ext_getElem? fun k => ?_
  rw [List.getElem?_take]
  split
  · rename_i lt
    rw [u.above k lt, whole.above k (by omega)]
  · exact List.getElem?_eq_none (by omega)

/-! ## Valid diagrams -/

/-- Nothing is wrong with the place of any node where nothing is wrong with the nodes. -/
theorem parentIssues_of_nodeIssues {seen : List String} {nodes : List Item} (h : d.nodeIssues seen nodes = []) :
    ∀ node ∈ nodes, d.parentIssues node = [] := by
  induction nodes generalizing seen with
  | nil => nofun
  | cons first nodes ih =>
    rw [nodeIssues, List.append_eq_nil_iff, List.append_eq_nil_iff] at h
    exact List.forall_mem_cons.2 ⟨h.1.2, ih h.2⟩

/-- Where nothing is wrong a parent is a group that is declared, of a node that does not lie inside itself. -/
theorem group_of_parent? (valid : d.issues = []) {parent : String} (h : d.parent? id = some parent) :
    (∃ group, d.node? parent = some group ∧ group.role = .group) ∧ d.inCycle id = false := by
  obtain ⟨node, found, hparent⟩ := Option.bind_eq_some_iff.1 h
  obtain rfl : node.id = id := by simpa using List.find?_some found
  rw [issues, List.append_eq_nil_iff, List.append_eq_nil_iff] at valid
  have proper := parentIssues_of_nodeIssues valid.1.2 node (List.mem_of_find?_eq_some found)
  rw [parentIssues, hparent] at proper
  cases hgroup : d.node? parent with
  | none => simp [hgroup] at proper
  | some group =>
    simp only [hgroup, bne_iff_ne, ne_eq, ite_not] at proper
    split at proper
    · rename_i isGroup
      split at proper
      · cases proper
      · rename_i acyclic
        exact ⟨⟨group, rfl, isGroup⟩, Bool.eq_false_iff.2 acyclic⟩
    · cases proper

/-- Where nothing is wrong every line upwards ends. -/
theorem above_ancestors_eq_none (valid : d.issues = []) (id : String) :
    d.above id ((d.ancestors id).length + 1) = none := by
  have acyclic : ∀ {other parent}, d.parent? other = some parent → ¬∃ k, 1 ≤ k ∧ d.above other k = some other := by
    intro other parent h
    rw [← inCycle_iff_above, (group_of_parent? valid h).2]
    exact Bool.false_ne_true
  rw [Option.eq_none_iff_forall_ne_some]
  intro other h
  obtain ⟨parent, hparent⟩ :=
    Option.isSome_iff_exists.1 (isSome_above_of_le (Nat.le_add_left 1 _) (Option.isSome_iff_exists.2 ⟨other, h⟩))
  rcases comes_back h with rfl | back
  · exact acyclic hparent ⟨_, Nat.le_add_left 1 _, h⟩
  · obtain ⟨k, lt, hk⟩ := (unbroken_ancestors d id).mem_iff.1 back
    have round : d.above other ((d.ancestors id).length - k) = some other := by
      rw [show (d.ancestors id).length + 1 = k + 1 + ((d.ancestors id).length - k) by omega, above_add, hk] at h
      exact h
    obtain ⟨next, hnext⟩ : ∃ next, d.parent? other = some next := by
      have first := isSome_above_of_le (m := 1) (by omega) (Option.isSome_iff_exists.2 ⟨other, round⟩)
      exact Option.isSome_iff_exists.1 first
    exact acyclic hnext ⟨_, by omega, round⟩

/-- A node whose line upwards consists of declared groups, the last of which has no parent. -/
def Enclosed (d : Diagram) (node : Item) : Prop :=
  (∀ k other, d.above node.id (k + 1) = some other → ∃ group, d.node? other = some group ∧ group.role = .group) ∧
    ∃ k top, (d.above node.id k).bind d.node? = some top ∧ top.parent = none

theorem enclosed_of_valid (valid : d.issues = []) {node : Item} (hnode : node ∈ d.nodes) : d.Enclosed node := by
  have groups : ∀ k other, d.above node.id (k + 1) = some other →
      ∃ group, d.node? other = some group ∧ group.role = .group := by
    intro k other h
    obtain ⟨below, -, hparent⟩ := Option.bind_eq_some_iff.1 h
    exact (group_of_parent? valid hparent).1
  have declared : ∀ k other, d.above node.id k = some other → ∃ item, d.node? other = some item := by
    intro k other h
    cases k with
    | zero =>
      cases h
      exact Option.isSome_iff_exists.1 (List.find?_isSome.2 ⟨node, hnode, beq_self_eq_true _⟩)
    | succ k => exact (groups k other h).imp fun _ group => group.1
  refine ⟨groups, ?_⟩
  have ends := above_ancestors_eq_none valid node.id
  obtain ⟨last, hlast⟩ : ∃ last, d.above node.id (d.ancestors node.id).length = some last := by
    cases hlength : (d.ancestors node.id).length with
    | zero => exact ⟨node.id, rfl⟩
    | succ k =>
      have lt : k < (d.ancestors node.id).length := by omega
      exact ⟨_, ((unbroken_ancestors d node.id).above k lt).symm.trans (List.getElem?_eq_getElem lt)⟩
  obtain ⟨top, htop⟩ := declared _ last hlast
  refine ⟨_, top, (congrArg (·.bind d.node?) hlast).trans htop, ?_⟩
  rw [above, hlast, Option.bind_some, parent?, htop] at ends
  exact ends

/-- A node lies inside itself exactly if one or more steps to a parent lead back to it. The climb to the groups
around a node comes to its end, which is the node itself if it lies inside itself. The groups are the longest part of
the line above it that neither holds the node nor repeats an id. Where nothing is wrong with a diagram, there are only
declared groups above each node, and the outermost of them has no parent. -/
theorem nesting_queries (d : Diagram) :
    (∀ id, d.inCycle id = true ↔ ∃ k, 1 ≤ k ∧ d.above id k = some id) ∧
      (∀ id, (∃ stop, d.Climbs id [] (d.parent? id) (d.ancestors id, stop) ∧ d.inCycle id = (stop == some id)) ∧
        d.Unbroken id (d.ancestors id) ∧ ∀ way, d.Unbroken id way → way <+: d.ancestors id) ∧
      (d.issues = [] → ∀ node ∈ d.nodes, d.Enclosed node) :=
  ⟨fun _ => inCycle_iff_above,
    fun id => ⟨⟨_, climbs_ancestors d id, inCycle_eq d id⟩, unbroken_ancestors d id, fun _ u => isPrefix_ancestors u⟩,
    fun valid _ hnode => enclosed_of_valid valid hnode⟩

end DiagramText.Architecture.Diagram
