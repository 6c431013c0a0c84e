import DiagramText.Proofs.Parse
import DiagramText.Proofs.UniqueIds

/-!
# Namespaces of class diagrams

That a class is in a namespace is kept twice: the class has the name of its namespace, and the namespace
lists the id of the class. Statements make entries, each a name with the ids that are declared in one body
(`entriesAll`). A namespace lists what all entries of its name list (`perm_listings_collect`), while a class
has the name of the last entry that lists it (`tag?_applyAll`).

So a class is always listed by the namespace that it has. The converse asks for more: the two agree in both
directions exactly when no id is listed twice, be it in one entry or in two (`namespacesAgree_iff`). Nothing
keeps a document from listing an id twice (`exists_namespaces_disagree`).
-/

namespace DiagramText.ClassDiagram

open Reading

/-! ## Entries -/

mutual

/-- The entries that a statement makes: each is a namespace with the classes of one body. -/
def Statement.entries : Statement → List Namespace
  | .namespace name body => entriesAll body ++ [⟨name, declared body⟩]
  | _ => []

/-- The entries that statements make, in the order in which their bodies end. -/
def entriesAll : List Statement → List Namespace
  | [] => []
  | s :: rest => s.entries ++ entriesAll rest

end

mutual

/-- The classes that a statement declares, those inside namespaces as well. -/
def Statement.declarations : Statement → List Class
  | .declare c => [c]
  | .namespace _ body => declarationsAll body
  | _ => []

/-- The classes that statements declare. -/
def declarationsAll : List Statement → List Class
  | [] => []
  | s :: rest => s.declarations ++ declarationsAll rest

end

/-- Whether no declaration says by itself in which namespace its class is. -/
def Bare (body : List Statement) : Prop := ∀ c ∈ declarationsAll body, c.inNamespace = none

theorem bare_cons {s : Statement} {rest : List Statement} :
    Bare (s :: rest) ↔ (∀ c ∈ s.declarations, c.inNamespace = none) ∧ Bare rest := by
  rw [Bare, Bare, declarationsAll, List.forall_mem_append]

/-- The ids that namespaces list, each with the name of its namespace. -/
def listings (namespaces : List Namespace) : List (String × String) :=
  namespaces.flatMap fun ns => ns.classes.map fun id => (ns.name, id)

theorem mem_listings {namespaces : List Namespace} {name id : String} :
    (name, id) ∈ listings namespaces ↔ ∃ ns ∈ namespaces, ns.name = name ∧ id ∈ ns.classes := by
  simp only [listings, List.mem_flatMap, List.mem_map, Prod.mk.injEq]
  exact exists_congr fun ns => and_congr_right fun _ =>
    ⟨fun ⟨_, h, same, e⟩ => ⟨same, e ▸ h⟩, fun ⟨same, h⟩ => ⟨id, h, same, rfl⟩⟩

theorem map_listings (namespaces : List Namespace) :
    (listings namespaces).map (·.2) = namespaces.flatMap Namespace.classes := by
  simp [listings, List.map_flatMap, Function.comp_def]

/-- The namespaces with one more entry, which joins the namespace of its name if there is one. -/
def collect (namespaces : List Namespace) (entry : Namespace) : List Namespace :=
  Keyed.add (fun a b => { a with classes := a.classes ++ b.classes }) namespaces entry

theorem perm_listings_update {namespaces : List Namespace} {name : String} (more : List String)
    (known : Keyed.has namespaces name = true) :
    (listings (Keyed.update namespaces name fun ns => { ns with classes := ns.classes ++ more })).Perm
      (listings namespaces ++ more.map fun id => (name, id)) := by
  induction namespaces with
  | nil => cases known
  | cons ns rest ih =>
    rw [Keyed.update]
    split
    · rename_i found
      obtain rfl : ns.name = name := found
      simp only [listings, List.flatMap_cons, List.map_append, List.append_assoc]
      exact List.perm_append_comm.append_left _
    · rename_i other
      rw [Keyed.has_cons, Bool.or_eq_true, beq_iff_eq] at known
      simp only [listings, List.flatMap_cons, List.append_assoc]
      exact (ih (known.resolve_left other)).append_left _

/-- Collecting entries loses none of the ids that they list, and repeats none. -/
theorem perm_listings_collect (namespaces : List Namespace) (entry : Namespace) :
    (listings (collect namespaces entry)).Perm (listings namespaces ++ listings [entry]) := by
  have single : listings [entry] = entry.classes.map fun id => (entry.name, id) := List.append_nil _
  rw [collect, Keyed.add, single]
  split
  · rename_i known
    exact perm_listings_update entry.classes known
  · rw [listings, listings, List.flatMap_append, List.flatMap_singleton]

theorem perm_listings_foldl (entries namespaces : List Namespace) :
    (listings (entries.foldl collect namespaces)).Perm (listings namespaces ++ listings entries) := by
  induction entries generalizing namespaces with
  | nil =>
    rw [List.foldl_nil, listings, listings, List.flatMap_nil, List.append_nil]
  | cons entry entries ih =>
    have split : listings (entry :: entries) = listings [entry] ++ listings entries := by
      simp [listings]
    rw [List.foldl_cons, split, ← List.append_assoc]
    exact (ih _).trans ((perm_listings_collect namespaces entry).append_right _)

theorem nodup_names_foldl (entries : List Namespace) {namespaces : List Namespace}
    (distinct : (namespaces.map Namespace.name).Nodup) :
    ((entries.foldl collect namespaces).map Namespace.name).Nodup := by
  induction entries generalizing namespaces with
  | nil => exact distinct
  | cons entry entries ih => exact ih (Keyed.Keeps.add (fun _ same => same) namespaces distinct)

/-- The name of the last entry that lists an id. -/
def lastNamespace? (entries : List Namespace) (id : String) : Option String :=
  (entries.filter (id ∈ ·.classes)).getLast?.map Namespace.name

theorem lastNamespace?_append (entries more : List Namespace) (id : String) :
    lastNamespace? (entries ++ more) id = (lastNamespace? more id).or (lastNamespace? entries id) := by
  rw [lastNamespace?, List.filter_append, List.getLast?_append, Option.map_or]
  rfl

theorem mem_of_lastNamespace? {entries : List Namespace} {id name : String} (h : lastNamespace? entries id = some name) :
    (name, id) ∈ listings entries := by
  obtain ⟨entry, hentry, rfl⟩ := Option.map_eq_some_iff.1 h
  obtain ⟨mem, lists⟩ := List.mem_filter.1 (List.mem_of_getLast? hentry)
  exact mem_listings.2 ⟨entry, mem, rfl, of_decide_eq_true lists⟩

theorem exists_lastNamespace? {entries : List Namespace} {id name : String} (h : (name, id) ∈ listings entries) :
    ∃ last, lastNamespace? entries id = some last := by
  obtain ⟨entry, mem, -, lists⟩ := mem_listings.1 h
  have kept : entry ∈ entries.filter (id ∈ ·.classes) := List.mem_filter.2 ⟨mem, decide_eq_true lists⟩
  exact ⟨_, congrArg (Option.map _) (List.getLast?_eq_some_getLast (List.ne_nil_of_mem kept))⟩

/-! ## Tags -/

/-- The namespace that the class with an id has. -/
def tagIn (classes : List Class) (id : String) : Option String :=
  (Keyed.find? classes id).bind Class.inNamespace

section

variable {classes : List Class} {id : String}

/-- A class that is added without a namespace changes none. -/
theorem tagIn_add (join : Class → Class → Class) {c : Class} (hid : ∀ a, a.id = c.id → (join a c).id = c.id)
    (bare : c.inNamespace = none) (same : ∀ a, (join a c).inNamespace = a.inNamespace) :
    tagIn (Keyed.add join classes c) id = tagIn classes id := by
  rw [tagIn, tagIn, Keyed.find?_add hid]
  split
  · cases Keyed.find? classes id with
    | none => exact bare
    | some a => exact same a
  · rfl

theorem tagIn_update {change : Class → Class} {target : String} (hid : ∀ a, (change a).id = a.id)
    (same : ∀ a, (change a).inNamespace = a.inNamespace) :
    tagIn (Keyed.update classes target change) id = tagIn classes id := by
  rw [tagIn, tagIn, Keyed.find?_update fun a h => (hid a).trans h]
  split
  · rename_i found
    obtain rfl := found
    cases Keyed.find? classes target with
    | none => rfl
    | some a => exact same a
  · rfl

end

/-- The class put into a namespace. -/
def Class.putIn (name : String) (c : Class) : Class := { c with inNamespace := some name }

namespace Diagram

/-- The namespace that the class with an id has. -/
def tag? (d : Diagram) (id : String) : Option String := tagIn d.classes id

section

variable (d : Diagram) (id : String)

theorem tag?_addClass {c : Class} (bare : c.inNamespace = none) : (d.addClass c).tag? id = d.tag? id := by
  rw [tag?, classes_addClass]
  exact tagIn_add Class.join (fun _ same => same) bare fun a =>
    show c.inNamespace.or a.inNamespace = _ by rw [bare, Option.none_or]

theorem tag?_ensureClass (target : String) : (d.ensureClass target).tag? id = d.tag? id := by
  rw [tag?, classes_ensureClass]
  exact @tagIn_add d.classes id (fun old _ => old) { id := target } (fun _ same => same) rfl fun _ => rfl

theorem tag?_changeClass (target : String) (change : Class → Class) (keeps : Keyed.KeepsId change)
    (same : ∀ c, (change c).inNamespace = c.inNamespace) :
    (d.changeClass target change keeps).tag? id = d.tag? id := by
  rw [tag?, classes_changeClass]
  exact (tagIn_update keeps.id_eq same).trans (d.tag?_ensureClass id target)

/-- A class that is put into a namespace leaves the one that it had. -/
theorem tag?_putIn (target name : String) :
    (d.changeClass target (Class.putIn name) ⟨fun _ => rfl⟩).tag? id =
      if target = id then some name else d.tag? id := by
  rw [← d.tag?_ensureClass id target, tag?, classes_changeClass, tagIn]
  have hid : ∀ c : Class, c.id = target → (c.putIn name).id = target := fun _ same => same
  rw [Keyed.find?_update hid]
  split
  · have present : Keyed.has (d.ensureClass target).classes target = true := by
      rw [classes_ensureClass, Keyed.has_ensure]
      exact Bool.or_eq_true_iff.2 (.inr (beq_self_eq_true target))
    rw [Keyed.has_eq_isSome] at present
    obtain ⟨c, hc⟩ := Option.isSome_iff_exists.1 present
    rw [hc]
    rfl
  · rfl

theorem tag?_addNamespace (name : String) (ids : List String) :
    (d.addNamespace name ids).tag? id = if id ∈ ids then some name else d.tag? id := by
  show (ids.foldl (fun d id => d.changeClass id (Class.putIn name) ⟨fun _ => rfl⟩) d).tag? id = _
  induction ids generalizing d with
  | nil => rfl
  | cons first ids ih =>
    rw [List.foldl_cons, ih, tag?_putIn]
    by_cases later : id ∈ ids
    · simp [later]
    · by_cases here : first = id
      · simp [here]
      · simp [later, here, Ne.symm here]

theorem tag?_assignStyleClass (target name : String) : (d.assignStyleClass target name).tag? id = d.tag? id := by
  rw [tag?, classes_assignStyleClass]
  exact tagIn_update (by exact fun _ => rfl) (by exact fun _ => rfl)

theorem namespaces_addNamespace (name : String) (ids : List String) :
    (d.addNamespace name ids).namespaces = collect d.namespaces ⟨name, ids⟩ := by
  let put (d : Diagram) (id : String) : Diagram := d.changeClass id (Class.putIn name) ⟨fun _ => rfl⟩
  have same : (ids.foldl put d).namespaces = d.namespaces :=
    @foldl_same _ _ _ namespaces put ids (fun _ _ _ => rfl) d
  exact congrArg (collect · ⟨name, ids⟩) same

end

mutual

/-- A statement puts classes into the namespaces of the last of its entries that list them. -/
theorem tag?_apply (d : Diagram) (id : String) : ∀ s : Statement,
    (∀ c ∈ s.declarations, c.inNamespace = none) →
      (d.apply s).tag? id = (lastNamespace? s.entries id).or (d.tag? id)
  | .declare c, bare => d.tag?_addClass id (bare c List.mem_cons_self)
  | .annotate target _, _ => d.tag?_changeClass id target _ (by exact ⟨fun _ => rfl⟩) (by exact fun _ => rfl)
  | .member target m, _ => by
    refine d.tag?_changeClass id target (·.addMember m) ⟨fun c => c.id_addMember m⟩ fun c => ?_
    simp only [Class.addMember]
    split <;> rfl
  | .relationship r, _ => ((d.ensureClass r.source).tag?_ensureClass id r.target).trans (d.tag?_ensureClass id r.source)
  | .namespace name body, bare => by
    have own : lastNamespace? [⟨name, declared body⟩] id = if id ∈ declared body then some name else none := by
      by_cases listed : id ∈ declared body <;> simp [lastNamespace?, listed]
    rw [apply, tag?_addNamespace, tag?_applyAll d id body bare, Statement.entries, lastNamespace?_append, own]
    split <;> rfl
  | .styleClass targets name, _ =>
    @foldl_same _ _ _ (·.tag? id) (·.assignStyleClass · name) targets
      (fun target _ d => d.tag?_assignStyleClass id target name) d
  | .caption _, _ | .direction _, _ | .note _, _ | .click _, _ | .style _ _, _ => rfl

/-- A class has the namespace of the last entry that lists it. -/
theorem tag?_applyAll (d : Diagram) (id : String) : ∀ body : List Statement, Bare body →
    (d.applyAll body).tag? id = (lastNamespace? (entriesAll body) id).or (d.tag? id)
  | [], _ => rfl
  | s :: rest, bare => by
    obtain ⟨first, others⟩ := bare_cons.1 bare
    rw [applyAll, tag?_applyAll _ id rest others, tag?_apply d id s first, entriesAll, lastNamespace?_append,
      Option.or_assoc]

end

mutual

theorem namespaces_apply (d : Diagram) : ∀ s : Statement,
    (d.apply s).namespaces = s.entries.foldl collect d.namespaces
  | .namespace name body => by
    rw [apply, namespaces_addNamespace, namespaces_applyAll d body, Statement.entries, List.foldl_append]
    rfl
  | .styleClass targets name =>
    @foldl_same _ _ _ namespaces (·.assignStyleClass · name) targets (fun _ _ _ => rfl) d
  | .declare _ | .annotate _ _ | .member _ _ | .relationship _ | .caption _ | .direction _ | .note _ | .click _
  | .style _ _ => rfl

/-- The namespaces collect the entries. -/
theorem namespaces_applyAll (d : Diagram) : ∀ body : List Statement,
    (d.applyAll body).namespaces = (entriesAll body).foldl collect d.namespaces
  | [] => rfl
  | s :: rest => by
    rw [applyAll, namespaces_applyAll _ rest, namespaces_apply d s, entriesAll, List.foldl_append]

end

/-! ## Agreement -/

/-- Classes and namespaces agree on which class is in which namespace. -/
structure NamespacesAgree (d : Diagram) : Prop where
  tagged : ∀ c ∈ d.classes, ∀ name, c.inNamespace = some name ↔
    ∃ ns ∈ d.namespaces, ns.name = name ∧ c.id ∈ ns.classes
  once : ∀ ns ∈ d.namespaces, ∀ other ∈ d.namespaces, ∀ id ∈ ns.classes, id ∈ other.classes → ns = other
  nodup_classes : ∀ ns ∈ d.namespaces, ns.classes.Nodup
  nodup_names : (d.namespaces.map Namespace.name).Nodup

/-- Namespaces of different names list different classes, none of them twice, exactly if no id is listed
twice. -/
theorem nodup_listed_iff {namespaces : List Namespace} (distinct : (namespaces.map Namespace.name).Nodup) :
    (namespaces.flatMap Namespace.classes).Nodup ↔
      (∀ ns ∈ namespaces, ∀ other ∈ namespaces, ∀ id ∈ ns.classes, id ∈ other.classes → ns = other) ∧
        ∀ ns ∈ namespaces, ns.classes.Nodup := by
  rw [List.nodup_flatMap, and_comm]
  refine and_congr_left fun _ => ⟨fun apart ns hns other hother id hid hid' => ?_, fun once => ?_⟩
  · by_contra differ
    have : Std.Symm (Function.onFun List.Disjoint Namespace.classes) := ⟨fun _ _ h => h.symm⟩
    exact apart.forall hns hother differ hid hid'
  · refine (List.pairwise_map.1 distinct).imp_of_mem fun {ns other} hns hother differ id hid hid' => ?_
    exact differ (congrArg Namespace.name (once ns hns other hother id hid hid'))

section

variable {body : List Statement}

theorem perm_listed (body : List Statement) :
    (listings (applyAll {} body).namespaces).Perm (listings (entriesAll body)) := by
  rw [namespaces_applyAll]
  exact perm_listings_foldl (entriesAll body) []

theorem nodup_names (body : List Statement) : ((applyAll {} body).namespaces.map Namespace.name).Nodup := by
  rw [namespaces_applyAll]
  exact nodup_names_foldl (entriesAll body) List.nodup_nil

/-- A class has the namespace of the last entry with its id. -/
theorem inNamespace_eq (bare : Bare body) {c : Class} (hc : c ∈ (applyAll {} body).classes) :
    c.inNamespace = lastNamespace? (entriesAll body) c.id := by
  have distinct : (Keyed.ids (applyAll {} body).classes).Nodup := applyAll_keeps {} body List.nodup_nil
  have found : Keyed.find? (applyAll {} body).classes c.id = some c := Keyed.find?_of_mem distinct hc
  have tag := tag?_applyAll {} c.id body bare
  rw [tag?, tagIn, found] at tag
  exact tag.trans Option.or_none

/-- A class is listed by the namespace that it has. -/
theorem listed_of_inNamespace (bare : Bare body) {c : Class} (hc : c ∈ (applyAll {} body).classes)
    {name : String} (h : c.inNamespace = some name) :
    ∃ ns ∈ (applyAll {} body).namespaces, ns.name = name ∧ c.id ∈ ns.classes := by
  rw [inNamespace_eq bare hc] at h
  exact mem_listings.1 ((perm_listed body).mem_iff.2 (mem_of_lastNamespace? h))

theorem namespacesAgree_applyAll (bare : Bare body) :
    (applyAll {} body).NamespacesAgree ↔ ((entriesAll body).flatMap Namespace.classes).Nodup := by
  have names := nodup_names body
  have same : ((applyAll {} body).namespaces.flatMap Namespace.classes).Nodup ↔
      ((entriesAll body).flatMap Namespace.classes).Nodup := by
    rw [← map_listings, ← map_listings]
    exact ((perm_listed body).map _).nodup_iff
  rw [← same, nodup_listed_iff names]
  refine ⟨fun agree => ⟨agree.once, agree.nodup_classes⟩, fun ⟨once, nodup⟩ => ⟨?_, once, nodup, names⟩⟩
  refine fun c hc name => ⟨listed_of_inNamespace bare hc, ?_⟩
  rintro ⟨ns, hns, rfl, lists⟩
  -- the class has some namespace, which lists it too
  have listed := (perm_listed body).mem_iff.1 (mem_listings.2 ⟨ns, hns, rfl, lists⟩)
  obtain ⟨last, hlast⟩ := exists_lastNamespace? listed
  rw [← inNamespace_eq bare hc] at hlast
  obtain ⟨other, hother, rfl, lists'⟩ := listed_of_inNamespace bare hc hlast
  rw [once ns hns other hother c.id lists lists']
  exact hlast

end

end Diagram

/-! ## Documents -/

theorem bare_iff {body : List Statement} :
    Bare body ↔ ∀ s ∈ body, ∀ c ∈ s.declarations, c.inNamespace = none := by
  induction body with
  | nil => exact ⟨nofun, nofun⟩
  | cons s rest ih => rw [bare_cons, ih, List.forall_mem_cons]

theorem inNamespace_classNamed {t : Tree} {c : Class} (h : classNamed t = .ok c) : c.inNamespace = none := by
  simp only [classNamed, bind_eq_ok, pure_eq_ok] at h
  obtain ⟨_, -, rfl⟩ := h
  rfl

/-- A line of the body of a class does not say in which namespace the class is. -/
theorem inNamespace_withLine {c c' : Class} {line : Tree} (h : withLine c line = .ok c') :
    c'.inNamespace = c.inNamespace := by
  rw [withLine] at h
  split at h
  · cases h
    rfl
  · simp only [bind_eq_ok, pure_eq_ok] at h
    obtain ⟨m, -, rfl⟩ := h
    rw [Class.addMember]
    split <;> rfl

theorem bare_of_read {inner : List Tree → Reading Fallacy (List Statement)} {t : Tree} {s : Statement}
    (deeper : ∀ trees body, inner trees = .ok body → Bare body) (h : (statements inner).read t = .ok s) :
    ∀ c ∈ s.declarations, c.inNamespace = none := by
  have shape := exists_shape h
  simp [Captions.shapes, Captions.shapes.accessibleShapes, bind_eq_ok, pure_eq_ok, -bind_pure_comp] at shape
  obtain namespace' | class' | annotate | note | click | direction | styleClass | style | relation | member |
    reference | title | accTitle | accDescr := shape
  · obtain ⟨-, _, -, _, -, body, hbody, rfl⟩ := namespace'
    exact deeper _ body hbody
  · obtain ⟨-, _, -, named, hnamed, c, hc, rfl⟩ := class'
    have kept : c.inNamespace = none :=
      foldlM_invariant (P := fun c : Class => c.inNamespace = none)
        (fun _ _ _ h e => (inNamespace_withLine e).trans h) (inNamespace_classNamed hnamed) hc
    exact List.forall_mem_singleton.2 kept
  · obtain ⟨-, _, -, _, -, _, -, rfl⟩ := annotate
    nofun
  · obtain ⟨-, _, -, _, -, rfl⟩ := note
    nofun
  · obtain ⟨-, _, -, _, -, rfl⟩ := click
    nofun
  · obtain ⟨-, word, -, h⟩ := direction
    cases hword : Direction.ofWord word with
    | error unknown =>
      rw [hword] at h
      cases h
    | ok direction =>
      rw [hword] at h
      obtain rfl := pure_eq_ok.1 h
      nofun
  · obtain ⟨-, _, -, _, -, _, -, rfl⟩ := styleClass
    nofun
  · obtain ⟨-, _, -, _, -, _, -, _, -, rfl⟩ := style
    nofun
  · obtain ⟨-, _, -, _, -, rfl⟩ := relation
    nofun
  · obtain ⟨-, _, -, _, -, _, -, rfl⟩ := member
    nofun
  · obtain ⟨-, _, -, c, hc, rfl⟩ := reference
    exact List.forall_mem_singleton.2 (inNamespace_classNamed hc)
  · obtain ⟨-, _, -, rfl⟩ := title
    nofun
  · obtain ⟨-, _, -, rfl⟩ := accTitle
    nofun
  · obtain ⟨-, _, -, rfl⟩ := accDescr
    nofun

/-- The reader makes no declaration that says by itself in which namespace its class is. -/
theorem bare_of_readBody {depth : Nat} {trees : List Tree} {body : List Statement}
    (h : readBody depth trees = .ok body) : Bare body := by
  induction depth generalizing trees body with
  | zero =>
    obtain rfl : [] = body := Except.ok.inj h
    nofun
  | succ depth ih =>
    refine bare_iff.2 fun s hs => ?_
    obtain ⟨t, -, hread⟩ := exists_of_mem_mapM h s hs
    exact bare_of_read (fun _ _ => ih) hread

/-- The statements of a document, if it has a model. -/
def statementsOf? (depth : Nat) (input : String) : Option (List Statement) :=
  (grammar.parse depth input).toOption.bind fun t => (readBody t.height (t.list "statements")).toOption

theorem reads_iff {depth : Nat} {input : String} {d : Diagram} :
    Kind.classDiagram.Reads depth input d ↔
      ∃ body, statementsOf? depth input = some body ∧ d = .applyAll {} body := by
  constructor
  · rintro ⟨tree, hparse, hread⟩
    obtain ⟨body, hbody, e⟩ := bind_eq_ok.1 hread
    refine ⟨body, Option.bind_eq_some_iff.2 ⟨tree, ?_, toOption_eq_some.2 hbody⟩, (pure_eq_ok.1 e).symm⟩
    exact toOption_eq_some.2 hparse
  · rintro ⟨body, h, rfl⟩
    obtain ⟨tree, hparse, hbody⟩ := Option.bind_eq_some_iff.1 h
    rw [toOption_eq_some] at hparse hbody
    exact ⟨tree, hparse, bind_eq_ok.2 ⟨body, hbody, rfl⟩⟩

/-- The classes and the namespaces of a document agree exactly if no id is listed twice, where each namespace
statement lists the ids that are declared directly inside it. In any case namespaces have names of their own,
and a class that has one is listed by it. -/
theorem namespacesAgree_iff {depth : Nat} {input : String} {d : Diagram}
    (accepted : Kind.classDiagram.Reads depth input d) :
    ∃ body, statementsOf? depth input = some body ∧
      (d.NamespacesAgree ↔ ((entriesAll body).flatMap Namespace.classes).Nodup) ∧
      (d.namespaces.map Namespace.name).Nodup ∧
      ∀ c ∈ d.classes, ∀ name, c.inNamespace = some name →
        ∃ ns ∈ d.namespaces, ns.name = name ∧ c.id ∈ ns.classes := by
  obtain ⟨body, hbody, rfl⟩ := reads_iff.1 accepted
  obtain ⟨tree, -, hread⟩ := Option.bind_eq_some_iff.1 hbody
  have bare := bare_of_readBody (toOption_eq_some.1 hread)
  exact ⟨body, hbody, Diagram.namespacesAgree_applyAll bare, Diagram.nodup_names body,
    fun c hc name h => Diagram.listed_of_inNamespace bare hc h⟩

/-- A namespace inside another one, which is opened again, and a class that is mentioned outside of it. -/
theorem namespacesAgree_reopened :
    ∃ d : Diagram,
      Kind.classDiagram.Reads 20 ("classDiagram\nnamespace N \x7b\nclass A\nnamespace M \x7b\nclass B\n\x7d\n\x7d\n" ++
        "A --> B\nnamespace N \x7b\nclass C\n\x7d\nclass B\n") d ∧
      d.namespaces = [⟨"M", ["B"]⟩, ⟨"N", ["A", "C"]⟩] ∧ d.NamespacesAgree := by
  have found : (statementsOf? 20 ("classDiagram\nnamespace N \x7b\nclass A\nnamespace M \x7b\nclass B\n\x7d\n\x7d\n" ++
      "A --> B\nnamespace N \x7b\nclass C\n\x7d\nclass B\n")).any (fun body =>
        decide ((Diagram.applyAll {} body).namespaces = [⟨"M", ["B"]⟩, ⟨"N", ["A", "C"]⟩] ∧
          ((entriesAll body).flatMap Namespace.classes).Nodup)) = true := by
    decide +kernel
  obtain ⟨body, hbody, htest⟩ := (Option.any_eq_true _ _).1 found
  obtain ⟨namespaces, distinct⟩ := of_decide_eq_true htest
  have accepted := reads_iff.2 ⟨body, hbody, rfl⟩
  obtain ⟨body', hbody', agree, -⟩ := namespacesAgree_iff accepted
  obtain rfl := Option.some.inj (hbody.symm.trans hbody')
  exact ⟨_, accepted, namespaces, agree.2 distinct⟩

/-- A namespace may list a class twice. -/
theorem exists_namespaces_disagree :
    ∃ d : Diagram, Kind.classDiagram.Reads 20 "classDiagram\nnamespace N \x7b\nclass A\nclass A\n\x7d\n" d ∧
      d.namespaces = [⟨"N", ["A", "A"]⟩] ∧ ¬ d.NamespacesAgree := by
  obtain ⟨d, accepted, htest⟩ := Kind.exists_reads_and .classDiagram 20
    "classDiagram\nnamespace N \x7b\nclass A\nclass A\n\x7d\n"
    (fun d => decide (Diagram.namespaces d = [⟨"N", ["A", "A"]⟩])) (by decide +kernel)
  have namespaces := of_decide_eq_true htest
  refine ⟨d, accepted, namespaces, fun agree => ?_⟩
  have distinct := agree.nodup_classes ⟨"N", ["A", "A"]⟩ (by rw [namespaces]; exact List.mem_cons_self)
  exact absurd distinct (by decide)

end DiagramText.ClassDiagram
