import DiagramText.Proofs.Peg.Grammar
import DiagramText.Proofs.Peg.Outline
import DiagramText.Reading

/-!
# Demands on syntax trees

A reading relies on the shape of the trees that it reads: fields that are there, groups that are trees,
lists whose trees are of a shape in turn. A `Demand` says such things, `Demand.Met` is what it means of
a tree, and `Demand.check` decides it from an outline. So one evaluation over the rules of a grammar
tells what holds of the trees of all inputs that it accepts (`met_of_parse`).

Statements that hold further statements meet their demand to any depth (`deep_of_leaves`): the lines of a
body come from the rule that the body stands in, and the number of bodies inside each other is what the
induction is on.
-/

namespace DiagramText

open Peg

/-! ## Trees -/

namespace Tree

variable {t group : Tree} {field : String} {node : Node}

theorem mem_fields_of_get? (h : t.get? field = some node) : (field, node) ∈ t.fields :=
  Peg.mem_of_lookup h

theorem exists_get? (h : t.has field = true) : ∃ node, t.get? field = some node :=
  Option.isSome_iff_exists.1 (t.isSome_get? field ▸ h)

theorem has_iff : t.has field = true ↔ ∃ node, (field, node) ∈ t.fields := by
  simp [has]

theorem mem_getAll : node ∈ t.getAll field ↔ (field, node) ∈ t.fields := by
  simp [getAll]

theorem has_of_tree? (h : t.tree? field = some group) : t.has field = true := by
  obtain ⟨node, hnode, -⟩ := Option.bind_eq_some_iff.1 h
  rw [← isSome_get?, hnode]
  rfl

theorem height_pos (t : Tree) : 0 < t.height := by
  cases t
  exact Nat.succ_pos _

theorem height_lt_of_mem (h : (field, node) ∈ t.fields) : height.heightOfNode node < t.height := by
  obtain ⟨span, fields⟩ := t
  rw [height, Nat.lt_succ_iff]
  induction fields with
  | nil => cases h
  | cons first rest ih =>
    rw [height.heightOfFields]
    rcases List.mem_cons.1 h with rfl | h
    · exact Nat.le_max_left ..
    · exact Nat.le_trans (ih h) (Nat.le_max_right ..)

theorem height_lt_of_tree? (h : t.tree? field = some group) : group.height < t.height := by
  obtain ⟨node, hnode, e⟩ := Option.bind_eq_some_iff.1 h
  cases node with
  | tree g =>
    obtain rfl : g = group := Option.some.inj e
    exact height_lt_of_mem (mem_fields_of_get? hnode)
  | token | list => cases e

theorem get?_of_mem_list (h : group ∈ t.list field) :
    ∃ trees, t.get? field = some (.list trees) ∧ group ∈ trees := by
  rw [Tree.list] at h
  rcases hnode : t.get? field with _ | ⟨_ | _ | trees⟩ <;> rw [hnode] at h
  · cases h
  · cases h
  · cases h
  · exact ⟨trees, rfl, h⟩

theorem height_lt_of_mem_list (h : group ∈ t.list field) : group.height < t.height := by
  obtain ⟨trees, hnode, hmem⟩ := get?_of_mem_list h
  refine Nat.lt_of_le_of_lt ?_ (height_lt_of_mem (mem_fields_of_get? hnode))
  rw [height.heightOfNode]
  clear hnode
  induction trees with
  | nil => cases hmem
  | cons first rest ih =>
    rw [height.heightOfTrees]
    rcases List.mem_cons.1 hmem with rfl | hmem
    · exact Nat.le_max_left ..
    · exact Nat.le_trans (ih hmem) (Nat.le_max_right ..)

end Tree

/-! ## Demands -/

/-- What is asked of a tree. -/
inductive Demand where
  | nothing
  | both (first second : Demand)
  /-- All fields of one of several signatures are there. -/
  | fits (signatures : List (List String))
  /-- Where a field is there, only some others are. -/
  | among (field : String) (others : List String)
  /-- A field is not blank. -/
  | inked (field : String)
  /-- A field holds a tree, of which something is asked. -/
  | group (field : String) (inner : Demand)
  /-- Something is asked of each of the trees under a name. -/
  | groups (field : String) (inner : Demand)
  /-- Something is asked of the trees in a field. -/
  | list (field : String) (inner : Demand)
  /-- The trees in a field are statements. -/
  | body (field : String)

namespace Demand

/-- All of several demands. -/
def all (demands : List Demand) : Demand := demands.foldr both nothing

/-- All these fields are there. -/
def needs (fields : List String) : Demand := fits [fields]

/-- Whether a tree is as demanded, where `statement` says it of statements. -/
def Met (statement : Tree → Prop) : Demand → Tree → Prop
  | nothing, _ => True
  | both first second, t => first.Met statement t ∧ second.Met statement t
  | fits signatures, t => ∃ signature ∈ signatures, signature.all t.has = true
  | among field others, t =>
    t.has field = true → ∀ other, t.has other = true → other = field ∨ other ∈ others
  | inked field, t => t.has field = true → ∃ text, t.filled? field = some text
  | group field inner, t =>
    t.has field = true → ∃ group, t.tree? field = some group ∧ inner.Met statement group
  | groups field inner, t =>
    ∀ group ∈ (t.getAll field).filterMap Node.tree?, inner.Met statement group
  | list field inner, t => ∀ g ∈ t.list field, inner.Met statement g
  | body field, t => ∀ g ∈ t.list field, statement g

/-- Whether all trees whose fields fit the outline are as demanded, where `lines` knows the rules of
bodies. -/
def check (table : List (String × Rule)) (lines : Rule → Bool) : Demand → Outline → Bool
  | nothing, _ => true
  | both first second, o => first.check table lines o && second.check table lines o
  | fits signatures, o => signatures.any fun signature => signature.all o.ensures
  | among field others, o => o.excludes field || o.within (field :: others)
  | inked field, o => o.filledBy field fun r => r.capturesNone && r.isInked
  | group field inner, o => o.filledBy field fun r =>
    r.isPlain && (r.outlinesIn table).all fun o =>
      o.pieces.any Piece.sure && inner.check table lines o
  | groups field inner, o => o.filledBy field fun r =>
    (r.outlinesIn table).all (inner.check table lines)
  | list field inner, o => o.filledBy field fun r => r.round?.any fun round =>
    (round.outlinesIn table).all fun o => o.isEmpty || inner.check table lines o
  | body field, o => o.filledBy field lines

/-- Whether all trees that matches of the rule leave are as demanded. -/
def accepts (table : List (String × Rule)) (lines : Rule → Bool) (d : Demand) (r : Rule) : Bool :=
  (r.outlinesIn table).all (d.check table lines)

variable {table : List (String × Rule)} {lines : Rule → Bool} {statement : Tree → Prop}

@[simp] theorem met_all_cons (d : Demand) (demands : List Demand) (t : Tree) :
    (all (d :: demands)).Met statement t ↔ d.Met statement t ∧ (all demands).Met statement t :=
  Iff.rfl

@[simp] theorem met_needs (fields : List String) (t : Tree) :
    (needs fields).Met statement t ↔ fields.all t.has = true := by
  simp [needs, Met]

theorem Met.absent {t : Tree} {field other : String} {others : List String}
    (h : (among field others).Met statement t) (hfield : t.has field = true)
    (hne : other ∉ field :: others) : t.has other = false :=
  Bool.eq_false_iff.2 fun hother => hne (List.mem_cons.2 (h hfield other hother))

theorem Met.of_group {t g : Tree} {field : String} {inner : Demand}
    (h : (group field inner).Met statement t) (hg : t.tree? field = some g) :
    inner.Met statement g := by
  obtain ⟨g', hg', met⟩ := h (Tree.has_of_tree? hg)
  exact Option.some.inj (hg'.symm.trans hg) ▸ met

/-- The trees in a capture of each of the rules are statements. -/
def Lines (table : List (String × Rule)) (lines : Rule → Bool) (statement : Tree → Prop) : Prop :=
  ∀ r, lines r = true → ∀ trees, r.Fills table (.list trees) → ∀ t ∈ trees, statement t

theorem ne_nil_of_sure {r : Rule} (h : ∀ o ∈ r.outlinesIn table, o.pieces.any Piece.sure = true)
    (fields : List (String × Node)) (hleaves : r.Leaves table fields) : fields ≠ [] := by
  obtain ⟨o, ho, fits⟩ := exists_fits r fields hleaves
  obtain ⟨p, hp, hsure⟩ := List.any_eq_true.1 (h o ho)
  obtain ⟨node, hnode⟩ := fits.there p hp hsure
  exact List.ne_nil_of_mem hnode

theorem met_of_check (hlines : Lines table lines statement) (d : Demand) {o : Outline} {t : Tree}
    (hcheck : d.check table lines o = true) (hfits : o.Fits table t.fields) : d.Met statement t := by
  induction d generalizing o t with
  | nothing => trivial
  | both first second ih ih' =>
    obtain ⟨h, h'⟩ := Bool.and_eq_true_iff.1 hcheck
    exact ⟨ih h hfits, ih' h' hfits⟩
  | fits signatures =>
    obtain ⟨signature, hmem, hall⟩ := List.any_eq_true.1 hcheck
    refine ⟨signature, hmem, List.all_eq_true.2 fun field hfield => Tree.has_iff.2 ?_⟩
    exact hfits.ensured (List.all_eq_true.1 hall field hfield)
  | among field others =>
    intro hfield other hother
    obtain ⟨node, hnode⟩ := Tree.has_iff.1 hother
    rcases Bool.or_eq_true_iff.1 hcheck with h | h
    · obtain ⟨node, hnode⟩ := Tree.has_iff.1 hfield
      exact absurd hnode (hfits.excluded h node)
    · exact List.mem_cons.1 (hfits.mem_of_within h hnode)
  | inked field =>
    intro hfield
    obtain ⟨node, hnode⟩ := Tree.exists_get? hfield
    obtain ⟨r, hr, fills⟩ := hfits.filled hcheck (Tree.mem_fields_of_get? hnode)
    obtain ⟨hnone, hinked⟩ := Bool.and_eq_true_iff.1 hr
    refine ⟨trim node.text, ?_⟩
    simp [Tree.filled?, Tree.trimmed?, Tree.text?, hnode, fills.trim_ne hnone hinked]
  | group field inner ih =>
    intro hfield
    obtain ⟨node, hnode⟩ := Tree.exists_get? hfield
    obtain ⟨r, hr, fills⟩ := hfits.filled hcheck (Tree.mem_fields_of_get? hnode)
    obtain ⟨hplain, hinner⟩ := Bool.and_eq_true_iff.1 hr
    obtain ⟨group, rfl⟩ := fills.tree hplain (ne_nil_of_sure fun o ho =>
      (Bool.and_eq_true_iff.1 (List.all_eq_true.1 hinner o ho)).1)
    obtain ⟨o, ho, fits⟩ := exists_fits r group.fields fills.leaves
    refine ⟨group, by simp [Tree.tree?, hnode, Node.tree?], ih ?_ fits⟩
    exact (Bool.and_eq_true_iff.1 (List.all_eq_true.1 hinner o ho)).2
  | groups field inner ih =>
    intro group hgroup
    obtain ⟨node, hnode, e⟩ := List.mem_filterMap.1 hgroup
    obtain ⟨r, hr, fills⟩ := hfits.filled hcheck (Tree.mem_getAll.1 hnode)
    cases node with
    | tree g =>
      obtain rfl : g = group := Option.some.inj e
      obtain ⟨o, ho, fits⟩ := exists_fits r g.fields fills.leaves
      exact ih (List.all_eq_true.1 hr o ho) fits
    | token | list => cases e
  | list field inner ih =>
    intro g hg
    obtain ⟨trees, hnode, hmem⟩ := Tree.get?_of_mem_list hg
    obtain ⟨r, hr, fills⟩ := hfits.filled hcheck (Tree.mem_fields_of_get? hnode)
    obtain ⟨round, hround, hinner⟩ := (Option.any_eq_true _ _).1 hr
    obtain ⟨leaves, hne⟩ := fills.list hround g hmem
    obtain ⟨o, ho, fits⟩ := exists_fits round g.fields leaves
    rcases Bool.or_eq_true_iff.1 (List.all_eq_true.1 hinner o ho) with hempty | hcheck
    · exact absurd (fits.eq_nil hempty) hne
    · exact ih hcheck fits
  | body field =>
    intro g hg
    obtain ⟨trees, hnode, hmem⟩ := Tree.get?_of_mem_list hg
    obtain ⟨r, hr, fills⟩ := hfits.filled hcheck (Tree.mem_fields_of_get? hnode)
    exact hlines r hr trees fills g hmem

theorem met_of_accepts (hlines : Lines table lines statement) {d : Demand} {r : Rule}
    (h : d.accepts table lines r = true) {t : Tree} (hleaves : r.Leaves table t.fields) :
    d.Met statement t := by
  obtain ⟨o, ho, fits⟩ := exists_fits r t.fields hleaves
  exact met_of_check hlines d (List.all_eq_true.1 h o ho) fits

/-! ## Statements inside statements -/

/-- Whether a tree is as demanded and so are the statements in its bodies, down to `depth` bodies
inside each other. -/
def Deep (d : Demand) : Nat → Tree → Prop
  | 0, _ => True
  | depth + 1, t => d.Met (d.Deep depth) t

/-- Whether the lines of a body are matches of the rule of a name, or else are as demanded. -/
def inBody (table : List (String × Rule)) (name : String) (d : Demand) (r : Rule) : Bool :=
  r.line?.any fun line => line.members.all fun
    | .ref other => other == name
    | m => d.accepts table (fun _ => false) m

/-- Whether the documents of a grammar are as demanded, and its statements with those in their bodies
are as `statement` demands. -/
def governs (document statement : Demand) (g : Grammar) (name : String) : Bool :=
  statement.accepts g.rules (statement.inBody g.rules name) (.ref name) &&
    document.accepts g.rules (statement.inBody g.rules name) g.root

theorem deep_of_leaves {name : String} {d : Demand}
    (h : d.accepts table (d.inBody table name) (.ref name) = true) (depth : Nat) :
    Lines table (d.inBody table name) (d.Deep depth) ∧
      ∀ t : Tree, (Rule.ref name).Leaves table t.fields → d.Deep depth t := by
  have lines (depth : Nat)
      (ih : ∀ t : Tree, (Rule.ref name).Leaves table t.fields → d.Deep depth t) :
      Lines table (d.inBody table name) (d.Deep depth) := by
    intro r hr trees fills t ht
    obtain ⟨line, hline, hall⟩ := (Option.any_eq_true _ _).1 hr
    obtain ⟨m, hmem, leaves⟩ := (fills.line hline t ht).member
    have hm := List.all_eq_true.1 hall m hmem
    split at hm
    · obtain rfl := eq_of_beq hm
      exact ih t leaves
    · cases depth with
      | zero => trivial
      | succ depth =>
        exact met_of_accepts (fun _ (h : false = true) => nomatch h) hm leaves
  induction depth with
  | zero => exact ⟨lines 0 fun _ _ => trivial, fun _ _ => trivial⟩
  | succ depth ih =>
    have next (t : Tree) (leaves : (Rule.ref name).Leaves table t.fields) : d.Deep (depth + 1) t :=
      met_of_accepts ih.1 h leaves
    exact ⟨lines (depth + 1) next, next⟩

/-- The syntax trees of a grammar are as demanded, and so are their statements however deep they lie. -/
theorem met_of_parse {document statement : Demand} {g : Grammar} {name : String}
    (h : document.governs statement g name = true) {nesting : Nat} {input : String} {t : Tree}
    (hparse : g.parse nesting input = .ok t) (depth : Nat) : document.Met (statement.Deep depth) t := by
  obtain ⟨hstatement, hroot⟩ := Bool.and_eq_true_iff.1 h
  obtain ⟨next, fragment, hm, -, rfl⟩ := parse_eq_ok.1 hparse
  exact met_of_accepts (deep_of_leaves hstatement depth).1 hroot ⟨_, _, next, fragment, hm, rfl⟩

end Demand

end DiagramText
