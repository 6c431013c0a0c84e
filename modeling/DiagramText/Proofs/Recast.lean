import DiagramText.Proofs.Demand
import DiagramText.Proofs.Peg.Captures
import DiagramText.Proofs.Peg.Transport
import DiagramText.Proofs.Reading

/-!
# Recast trees

A change of the spans of a syntax tree (`Tree.map`) leaves its shape as it is. A reading depends on the shape
and on the texts of some fields, and on offsets only where it fails. So it gives the same for the changed
tree, if anything, when the texts in these fields are kept (`Tree.Kept`): all of them but the texts of
blocks, which nothing reads, and of prose only what is between the blanks around it.

What a reading gives, if anything, is its `toOption`. There is an equation for every step of a reading that
says so in terms of what the tree holds (`toOption_needText` and others), and every lookup in a changed tree
is a lookup in the tree (`Tree.get?_map`, `Kept.trimmed?_map` and others). What remains for each kind of
diagram is to open its readings with these equations.
-/

namespace DiagramText

section

variable {f : Token → Token}

/-! ## Lookups in changed trees -/

@[simp] theorem Node.tree?_map (node : Node) : (node.map f).tree? = node.tree?.map (Tree.map f) := by
  cases node <;> rfl

namespace Tree

variable (t : Tree) (field : String)

theorem get?_map : (t.map f).get? field = (t.get? field).map (Node.map f) := by
  rw [get?, fields_map, get?]
  induction t.fields with
  | nil => rfl
  | cons first fields ih =>
    obtain ⟨name, node⟩ := first
    rw [mapFields, List.lookup_cons, List.lookup_cons, ih]
    split <;> rfl

@[simp] theorem has_map : (t.map f).has field = t.has field := by
  rw [← isSome_get?, ← isSome_get?, get?_map, Option.isSome_map]

theorem getAll_map : (t.map f).getAll field = (t.getAll field).map (Node.map f) := by
  rw [getAll, fields_map, getAll]
  induction t.fields with
  | nil => rfl
  | cons first fields ih =>
    obtain ⟨name, node⟩ := first
    rw [mapFields, List.filter_cons, List.filter_cons]
    split
    · rw [List.map_cons, List.map_cons, List.map_cons, ih]
    · exact ih

@[simp] theorem tree?_map : (t.map f).tree? field = (t.tree? field).map (Tree.map f) := by
  rw [tree?, get?_map, tree?]
  cases t.get? field with
  | none => rfl
  | some node => exact Node.tree?_map node

@[simp] theorem list_map : (t.map f).list field = (t.list field).map (Tree.map f) := by
  rw [list, get?_map, list]
  rcases t.get? field with _ | _ | _ | ts
  · rfl
  · rfl
  · rfl
  · exact mapAll_eq ts

@[simp] theorem trees_map :
    ((t.map f).getAll field).filterMap Node.tree? =
      ((t.getAll field).filterMap Node.tree?).map (Tree.map f) := by
  rw [getAll_map, List.filterMap_map, List.map_filterMap]
  exact congrArg (List.filterMap · _) (funext Node.tree?_map)

end Tree

mutual

theorem Node.height_map : ∀ node : Node, Tree.height.heightOfNode (node.map f) = Tree.height.heightOfNode node
  | .token _ => rfl
  | .tree t => Tree.height_map t
  | .list ts => heightOfTrees_map ts

@[simp] theorem Tree.height_map : ∀ t : Tree, (t.map f).height = t.height
  | .mk _ fields => congrArg (· + 1) (heightOfFields_map fields)

theorem heightOfTrees_map : ∀ ts : List Tree,
    Tree.height.heightOfTrees (mapAll f ts) = Tree.height.heightOfTrees ts
  | [] => rfl
  | t :: ts => by
    rw [mapAll, Tree.height.heightOfTrees, Tree.height.heightOfTrees, Tree.height_map t, heightOfTrees_map ts]

theorem heightOfFields_map : ∀ fields : List (String × Node),
    Tree.height.heightOfFields (mapFields f fields) = Tree.height.heightOfFields fields
  | [] => rfl
  | (_, node) :: fields => by
    rw [mapFields, Tree.height.heightOfFields, Tree.height.heightOfFields, Node.height_map node,
      heightOfFields_map fields]

end

end

/-! ## Texts that are kept -/

/-- The fields of running text, whose blanks at the ends are never read. -/
def proseFields : List String := ["acc_descr", "text"]

/-- Whether what is read of the text of a field is the same when its span is changed. -/
def keepsText (f : Token → Token) (blocks : List String) (field : String) (node : Node) : Bool :=
  blocks.contains field ||
    if proseFields.contains field then trim (node.map f).text == trim node.text
    else (node.map f).text == node.text

/-- The texts of the tree that are read are the same when its spans are changed; those of blocks are not
read. -/
def Tree.Kept (f : Token → Token) (blocks : List String) (t : Tree) : Prop :=
  t.allFields (keepsText f blocks) = true

namespace Tree.Kept

variable {f : Token → Token} {blocks : List String} {t g : Tree} {field : String}

/-- A change of offsets alone keeps all texts. -/
theorem of_text (h : ∀ span, (f span).text = span.text) : t.Kept f blocks := by
  refine allFields_of_forall (fun field node => ?_) t
  have same : (node.map f).text = node.text := by
    rcases node with span | ⟨span, fields⟩ | _ | ⟨⟨span, fields⟩, trees⟩
    · exact h span
    · exact h span
    · rfl
    · exact h span
  simp [keepsText, same]

theorem of_tree? (h : t.Kept f blocks) (hg : t.tree? field = some g) : g.Kept f blocks := by
  obtain ⟨node, hnode, e⟩ := Option.bind_eq_some_iff.1 hg
  cases node with
  | tree inner =>
    obtain rfl : inner = g := Option.some.inj e
    exact (allFields_iff.1 h field _ (mem_fields_of_get? hnode)).2
  | token | list => cases e

/-- What is read of a group is the same when it is for each group whose texts are kept. -/
theorem bind_tree? {β : Type} (h : t.Kept f blocks) (field : String) {k k' : Tree → Option β}
    (hk : ∀ g, g.Kept f blocks → k (g.map f) = k' g) :
    ((t.tree? field).map (Tree.map f)).bind k = (t.tree? field).bind k' := by
  rw [Option.bind_map]
  exact Option.bind_congr fun g hg => hk g (h.of_tree? hg)

theorem of_mem_list (h : t.Kept f blocks) (hg : g ∈ t.list field) : g.Kept f blocks := by
  obtain ⟨trees, hnode, hmem⟩ := get?_of_mem_list hg
  exact allTrees_iff.1 (allFields_iff.1 h field _ (mem_fields_of_get? hnode)).2 g hmem

theorem of_mem_trees (h : t.Kept f blocks) (hg : g ∈ (t.getAll field).filterMap Node.tree?) :
    g.Kept f blocks := by
  obtain ⟨node, hnode, e⟩ := List.mem_filterMap.1 hg
  cases node with
  | tree inner =>
    obtain rfl : inner = g := Option.some.inj e
    exact (allFields_iff.1 h field _ (mem_getAll.1 hnode)).2
  | token | list => cases e

theorem trim_text (h : t.Kept f blocks) (hfield : field ∉ blocks) {node : Node}
    (hnode : (field, node) ∈ t.fields) : trim (node.map f).text = trim node.text := by
  have hkeeps := (allFields_iff.1 h field node hnode).1
  rw [keepsText, Bool.or_eq_true, List.contains_iff_mem] at hkeeps
  have hkeeps := hkeeps.resolve_left hfield
  split at hkeeps
  · exact eq_of_beq hkeeps
  · rw [eq_of_beq hkeeps]

theorem text (h : t.Kept f blocks) (hfield : field ∉ blocks) (hprose : field ∉ proseFields) {node : Node}
    (hnode : (field, node) ∈ t.fields) : (node.map f).text = node.text := by
  have hkeeps := (allFields_iff.1 h field node hnode).1
  rw [keepsText, Bool.or_eq_true, List.contains_iff_mem,
    if_neg fun hmem => hprose (List.contains_iff_mem.1 hmem)] at hkeeps
  exact eq_of_beq (hkeeps.resolve_left hfield)

theorem trimmed?_map (h : t.Kept f blocks) (hfield : field ∉ blocks) :
    (t.map f).trimmed? field = t.trimmed? field := by
  rw [trimmed?, text?, get?_map, trimmed?, text?]
  cases hnode : t.get? field with
  | none => rfl
  | some node => exact congrArg some (h.trim_text hfield (mem_fields_of_get? hnode))

theorem filled?_map (h : t.Kept f blocks) (hfield : field ∉ blocks) :
    (t.map f).filled? field = t.filled? field := by
  rw [filled?, h.trimmed?_map hfield, filled?]

theorem string?_map (h : t.Kept f blocks) (hfield : field ∉ blocks) :
    (t.map f).string? field = t.string? field := by
  rw [string?, h.filled?_map hfield, string?]

theorem text?_map (h : t.Kept f blocks) (hfield : field ∉ blocks) (hprose : field ∉ proseFields) :
    (t.map f).text? field = t.text? field := by
  rw [text?, get?_map, text?]
  cases hnode : t.get? field with
  | none => rfl
  | some node => exact congrArg some (h.text hfield hprose (mem_fields_of_get? hnode))

theorem trimmed_map (h : t.Kept f blocks) (hfield : field ∉ blocks) :
    ((t.map f).getAll field).map (fun node => trim node.text) =
      (t.getAll field).map fun node => trim node.text := by
  rw [getAll_map, List.map_map]
  exact List.map_congr_left fun node hnode => h.trim_text hfield (mem_getAll.1 hnode)

theorem texts_map (h : t.Kept f blocks) (hfield : field ∉ blocks) (hprose : field ∉ proseFields) :
    ((t.map f).getAll field).map Node.text = (t.getAll field).map Node.text := by
  rw [getAll_map, List.map_map]
  exact List.map_congr_left fun node hnode => h.text hfield hprose (mem_getAll.1 hnode)

end Tree.Kept

/-! ## What readings give -/

namespace Reading

variable {ε α β γ : Type}

@[simp] theorem toOption_ok (a : α) : (.ok a : Except ε α).toOption = some a := rfl

@[simp] theorem toOption_error (e : ε) : (.error e : Except ε α).toOption = none := rfl

@[simp] theorem toOption_pure (a : α) : (pure a : Except ε α).toOption = some a := rfl

@[simp] theorem toOption_bind (x : Except ε α) (k : α → Except ε β) :
    (x >>= k).toOption = x.toOption.bind fun a => (k a).toOption := by
  cases x <;> rfl

@[simp] theorem toOption_map (x : Except ε α) (k : α → β) : (k <$> x).toOption = x.toOption.map k := by
  cases x <;> rfl

@[simp] theorem toOption_map' (x : Except ε α) (k : α → β) : (x.map k).toOption = x.toOption.map k := by
  cases x <;> rfl

@[simp] theorem toOption_ite (c : Prop) [Decidable c] (x y : Except ε α) :
    (if c then x else y).toOption = if c then x.toOption else y.toOption := by
  split <;> rfl

@[simp] theorem toOption_complain (offset : Nat) (e : ε) :
    (complain offset e : Reading ε α).toOption = none := rfl

@[simp] theorem toOption_orComplain (a : Option α) (offset : Nat) (e : ε) :
    (orComplain a offset e).toOption = a := by
  cases a <;> rfl

section

variable (t : Tree) (field : String)

@[simp] theorem toOption_need : (t.need field : Reading ε Node).toOption = t.get? field := by
  rw [Tree.need]
  cases t.get? field <;> rfl

@[simp] theorem toOption_needText : (t.needText field : Reading ε String).toOption = t.trimmed? field := by
  rw [Tree.needText, toOption_bind, toOption_need, Tree.trimmed?, Tree.text?]
  cases t.get? field <;> rfl

@[simp] theorem toOption_needString :
    (t.needString field : Reading ε String).toOption = (t.trimmed? field).map unquote := by
  rw [Tree.needString, toOption_bind, toOption_needText]
  cases t.trimmed? field <;> rfl

@[simp] theorem toOption_needGroup : (t.needGroup field : Reading ε Tree).toOption = t.tree? field := by
  rw [Tree.needGroup, toOption_bind, toOption_need, Tree.tree?]
  rcases t.get? field with _ | ⟨_ | _ | _⟩ <;> rfl

@[simp] theorem toOption_needNumber (read? : String → Option α) :
    (t.needNumber read? field : Reading ε α).toOption = (t.trimmed? field).bind read? := by
  rw [Tree.needNumber, toOption_bind, toOption_need, Tree.trimmed?, Tree.text?]
  cases t.get? field with
  | none => rfl
  | some node =>
    cases h : read? (trim node.text) <;> simp [h]

@[simp] theorem toOption_number? (read? : String → Option α) :
    (t.number? read? field : Reading ε (Option α)).toOption =
      if (t.filled? field).isSome then ((t.trimmed? field).bind read?).map some else some none := by
  rw [Tree.number?]
  cases t.filled? field with
  | none => rfl
  | some text => rw [toOption_map', toOption_needNumber, Option.isSome_some, if_pos rfl]

end

/-! ### Loops -/

section

variable {f : Token → Token} {ts : List Tree}

/-- A loop gives the same when each of its steps does. -/
theorem toOption_mapM_congr {read read' : α → Reading ε β} {items : List α}
    (h : ∀ a ∈ items, (read a).toOption = (read' a).toOption) :
    (items.mapM read).toOption = (items.mapM read').toOption := by
  induction items with
  | nil => rfl
  | cons a items ih =>
    rw [List.mapM_cons, List.mapM_cons, toOption_bind, toOption_bind, h a List.mem_cons_self]
    refine Option.bind_congr fun b _ => ?_
    rw [toOption_bind, toOption_bind, ih fun a ha => h a (List.mem_cons_of_mem _ ha)]

/-- A loop over changed trees gives what it gives for the trees, when each of its steps does. -/
theorem toOption_mapM_map {read : Tree → Reading ε α}
    (h : ∀ t ∈ ts, (read (t.map f)).toOption = (read t).toOption) :
    (ts.mapM (read ∘ Tree.map f)).toOption = (ts.mapM read).toOption :=
  toOption_mapM_congr h

theorem toOption_foldlM_map {step : β → Tree → Reading ε β}
    (h : ∀ t ∈ ts, ∀ b, (step b (t.map f)).toOption = (step b t).toOption) (b : β) :
    ((ts.map (Tree.map f)).foldlM step b).toOption = (ts.foldlM step b).toOption := by
  induction ts generalizing b with
  | nil => rfl
  | cons t ts ih =>
    rw [List.map_cons, List.foldlM_cons, List.foldlM_cons, toOption_bind, toOption_bind, h t List.mem_cons_self]
    exact Option.bind_congr fun b' _ => ih (fun t ht => h t (List.mem_cons_of_mem _ ht)) b'

/-- Two loops give the same over items with the same keys, when their steps for items with a key do. -/
theorem toOption_foldlM_alike {key : α → γ} {step step' : β → α → Reading ε β}
    (h : ∀ b a a', key a = key a' → (step b a).toOption = (step' b a').toOption) {items items' : List α}
    (e : items.map key = items'.map key) (b : β) :
    (items.foldlM step b).toOption = (items'.foldlM step' b).toOption := by
  induction items generalizing items' b with
  | nil =>
    obtain rfl : items' = [] := List.map_eq_nil_iff.1 e.symm
    rfl
  | cons a items ih =>
    cases items' with
    | nil => cases e
    | cons a' items' =>
      obtain ⟨ha, e⟩ := List.cons.inj e
      rw [List.foldlM_cons, List.foldlM_cons, toOption_bind, toOption_bind, h b a a' ha]
      exact Option.bind_congr fun b' _ => ih e b'

theorem toOption_forM_alike {key : α → γ} {step : α → Reading ε Unit}
    (h : ∀ a a', key a = key a' → (step a).toOption = (step a').toOption) {items items' : List α}
    (e : items.map key = items'.map key) : (items.forM step).toOption = (items'.forM step).toOption := by
  induction items generalizing items' with
  | nil =>
    obtain rfl : items' = [] := List.map_eq_nil_iff.1 e.symm
    rfl
  | cons a items ih =>
    cases items' with
    | nil => cases e
    | cons a' items' =>
      obtain ⟨ha, e⟩ := List.cons.inj e
      show (step a >>= fun _ => items.forM step).toOption = (step a' >>= fun _ => items'.forM step).toOption
      rw [toOption_bind, toOption_bind, h a a' ha, ih e]

end

/-! ### Statements -/

section

variable {f : Token → Token} {t : Tree}

/-- A changed statement is read as the statement is, when each shape reads it so. -/
theorem toOption_read_map {entries : List (List String × (Tree → Reading ε α))}
    (h : ∀ entry ∈ entries, (entry.2 (t.map f)).toOption = (entry.2 t).toOption) :
    ((Shapes.ofList entries).read (t.map f)).toOption = ((Shapes.ofList entries).read t).toOption := by
  have hfind : ((Shapes.ofList entries).entries.find? fun entry => entry.1.all (t.map f).has) =
      (Shapes.ofList entries).entries.find? fun entry => entry.1.all t.has := by
    rw [show (t.map f).has = t.has from funext fun field => t.has_map field]
  rw [Shapes.read, hfind, Shapes.read]
  split
  · rename_i signature read hfound
    exact h (signature, read) (mem_ofList.1 (List.mem_of_find?_eq_some hfound))
  · rfl

variable {s : Shapes ε α} {ts : List Tree} {placed placed' : List (Nat × α)}

/-- A loop over statements with their offsets gives the same with other offsets, when its steps do. -/
theorem toOption_foldlM_placed {step : β → Nat × α → Reading ε β}
    (h : ∀ b a offset offset', (step b (offset, a)).toOption = (step b (offset', a)).toOption)
    (e : placed.map (·.2) = placed'.map (·.2)) (b : β) :
    (placed.foldlM step b).toOption = (placed'.foldlM step b).toOption :=
  toOption_foldlM_alike (fun b a a' ha => by
    rw [show a' = (a'.1, a.2) from Prod.ext rfl ha.symm]
    exact h b a.2 a.1 a'.1) e b

theorem toOption_forM_placed {step : Nat × α → Reading ε Unit}
    (h : ∀ a offset offset', (step (offset, a)).toOption = (step (offset', a)).toOption)
    (e : placed.map (·.2) = placed'.map (·.2)) :
    (placed.forM step).toOption = (placed'.forM step).toOption :=
  toOption_forM_alike (fun a a' ha => by
    rw [show a' = (a'.1, a.2) from Prod.ext rfl ha.symm]
    exact h a.2 a.1 a'.1) e

theorem toOption_readAll_map (h : ∀ t ∈ ts, (s.read (t.map f)).toOption = (s.read t).toOption) :
    (s.readAll (ts.map (Tree.map f))).toOption = (s.readAll ts).toOption := by
  rw [Shapes.readAll, List.mapM_map]
  exact toOption_mapM_map h

/-- Reading statements with their offsets is reading them. -/
theorem toOption_readPlaced (s : Shapes ε α) (ts : List Tree) :
    (s.readPlaced ts).toOption.map (·.map (·.2)) = (s.readAll ts).toOption := by
  induction ts with
  | nil => rfl
  | cons t ts ih =>
    rw [Shapes.readPlaced, Shapes.readAll] at ih ⊢
    rw [List.mapM_cons, List.mapM_cons]
    simp only [toOption_bind, toOption_pure, ← ih, Option.map_bind, Option.bind_map, Option.bind_assoc,
      Option.bind_some, Function.comp_def, Option.map_some, List.map_cons]

/-- Of statements that are read with their offsets, only the offsets change. -/
theorem toOption_readPlaced_map (h : ∀ t ∈ ts, (s.read (t.map f)).toOption = (s.read t).toOption)
    {k : List (Nat × α) → Reading ε β}
    (hk : ∀ placed placed', placed.map (·.2) = placed'.map (·.2) → (k placed).toOption = (k placed').toOption) :
    (s.readPlaced (ts.map (Tree.map f)) >>= k).toOption = (s.readPlaced ts >>= k).toOption := by
  have hplaced : (s.readPlaced (ts.map (Tree.map f))).toOption.map (·.map (·.2)) =
      (s.readPlaced ts).toOption.map (·.map (·.2)) := by
    rw [toOption_readPlaced, toOption_readPlaced, toOption_readAll_map h]
  rw [toOption_bind, toOption_bind]
  cases hp : (s.readPlaced (ts.map (Tree.map f))).toOption with
  | none =>
    rw [hp, Option.map_none, eq_comm, Option.map_eq_none_iff] at hplaced
    rw [hplaced]
  | some placed =>
    rw [hp, Option.map_some, eq_comm, Option.map_eq_some_iff] at hplaced
    obtain ⟨placed', hp', e⟩ := hplaced
    rw [hp', Option.bind_some, Option.bind_some]
    exact hk placed placed' e.symm

end

end Reading

end DiagramText
