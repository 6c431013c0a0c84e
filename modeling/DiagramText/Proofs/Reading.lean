import DiagramText.Captions
import Mathlib.Data.List.Forall2

/-!
# Steps of reading

A reading of several steps succeeds when each of them does (`bind_eq_ok`), and what each step of a loop
keeps, the loop keeps (`foldlM_invariant`).

A reading is supplied when the tree has all that it asks for (`Supplied`): it may fail then, but only
with a complaint of the kind of diagram or over a malformed number. Taken together the steps are
supplied when each of them is, and each step asks for one field. Statements are supplied when one of the
shapes fits and the readings of all that fit are supplied (`supplied_read`).
-/

namespace DiagramText.Reading

variable {ε δ α β : Type}

/-! ## Success -/

theorem bind_eq_ok {x : Except ε α} {f : α → Except ε β} {b : β} :
    (x >>= f) = .ok b ↔ ∃ a, x = .ok a ∧ f a = .ok b := by
  cases x <;> simp [bind, Except.bind]

theorem pure_eq_ok {a b : α} : (pure a : Except ε α) = .ok b ↔ a = b := by
  simp [pure, Except.pure]

theorem map_eq_ok {x : Except ε α} {f : α → β} {b : β} :
    x.map f = .ok b ↔ ∃ a, x = .ok a ∧ f a = b := by
  cases x <;> simp [Except.map]

theorem orComplain_eq_ok {a : Option α} {offset : Nat} {e : δ} {b : α} :
    (orComplain a offset e : Reading δ α) = .ok b ↔ a = some b := by
  cases a <;> simp [orComplain, complain]

theorem toOption_eq_some {x : Except ε α} {a : α} : x.toOption = some a ↔ x = .ok a := by
  cases x <;> simp [Except.toOption]

/-- What a loop makes of its items, one by one and in order. -/
theorem forall₂_of_mapM {f : α → Except ε β} {items : List α} {bs : List β}
    (h : items.mapM f = .ok bs) : List.Forall₂ (fun a b => f a = .ok b) items bs := by
  induction items generalizing bs with
  | nil =>
    obtain rfl := pure_eq_ok.1 (List.mapM_nil.symm.trans h)
    exact .nil
  | cons first items ih =>
    rw [List.mapM_cons, bind_eq_ok] at h
    obtain ⟨b, hb, h⟩ := h
    obtain ⟨rest, hrest, e⟩ := bind_eq_ok.1 h
    obtain rfl := pure_eq_ok.1 e
    exact .cons hb (ih hrest)

/-- A loop over items succeeds with what each of them gives, in order. -/
theorem mapM_eq_ok_iff {f : α → Except ε β} {items : List α} {bs : List β} :
    items.mapM f = .ok bs ↔ List.Forall₂ (fun a b => f a = .ok b) items bs := by
  refine ⟨forall₂_of_mapM, fun each => ?_⟩
  induction each with
  | nil => rfl
  | cons hb _ ih =>
    rw [List.mapM_cons, hb, ih]
    rfl

theorem exists_of_mapM {f : α → Except ε β} {items : List α} {bs : List β}
    (h : items.mapM f = .ok bs) : ∀ a ∈ items, ∃ b, f a = .ok b := by
  have each := forall₂_of_mapM h
  clear h
  induction each with
  | nil => nofun
  | cons hb _ ih => exact List.forall_mem_cons.2 ⟨⟨_, hb⟩, ih⟩

theorem exists_of_mem_mapM {f : α → Except ε β} {items : List α} {bs : List β}
    (h : items.mapM f = .ok bs) : ∀ b ∈ bs, ∃ a ∈ items, f a = .ok b := by
  have each := forall₂_of_mapM h
  clear h
  induction each with
  | nil => nofun
  | cons hb _ ih =>
    refine List.forall_mem_cons.2 ⟨⟨_, List.mem_cons_self, hb⟩, fun c hc => ?_⟩
    obtain ⟨a, ha, e⟩ := ih c hc
    exact ⟨a, List.mem_cons_of_mem _ ha, e⟩

theorem exists_of_foldlM {step : β → α → Except ε β} {items : List α} {b b' : β}
    (h : items.foldlM step b = .ok b') : ∀ a ∈ items, ∃ c c', step c a = .ok c' := by
  induction items generalizing b with
  | nil => nofun
  | cons first items ih =>
    rw [List.foldlM_cons, bind_eq_ok] at h
    obtain ⟨next, hnext, h⟩ := h
    intro a ha
    rcases List.mem_cons.1 ha with rfl | ha
    · exact ⟨b, next, hnext⟩
    · exact ih h a ha

theorem forM_eq_ok {f : α → Except ε Unit} {items : List α} :
    items.forM f = .ok () ↔ ∀ a ∈ items, f a = .ok () := by
  induction items with
  | nil => exact ⟨fun _ => nofun, fun _ => rfl⟩
  | cons first items ih =>
    rw [List.forall_mem_cons, ← ih]
    refine bind_eq_ok.trans ⟨fun ⟨_, hfirst, hitems⟩ => ⟨hfirst, hitems⟩, fun ⟨hfirst, hitems⟩ => ⟨_, hfirst, hitems⟩⟩

/-- What every step of a loop keeps holds at its end. -/
theorem foldlM_invariant {P : β → Prop} {step : β → α → Except ε β}
    (keeps : ∀ b a b', P b → step b a = .ok b' → P b') {items : List α} {b b' : β} (start : P b)
    (e : items.foldlM step b = .ok b') : P b' := by
  induction items generalizing b with
  | nil =>
    rw [List.foldlM_nil, pure_eq_ok] at e
    exact e ▸ start
  | cons a items ih =>
    rw [List.foldlM_cons, bind_eq_ok] at e
    obtain ⟨next, he, e⟩ := e
    exact ih (keeps b a next start he) e

/-! ## Failure -/

theorem bind_eq_error {x : Except ε α} {f : α → Except ε β} {e : ε} :
    (x >>= f) = .error e ↔ x = .error e ∨ ∃ a, x = .ok a ∧ f a = .error e := by
  cases x <;> simp [bind, Except.bind]

theorem orComplain_eq_error {a : Option α} {offset : Nat} {e : δ} {fault : Fault δ} :
    (orComplain a offset e : Reading δ α) = .error fault ↔ a = none ∧ fault = ⟨some offset, .complaint e⟩ := by
  cases a <;> simp [orComplain, complain, eq_comm]

/-- A loop fails in one of its steps. -/
theorem exists_of_foldlM_error {step : β → α → Except ε β} {items : List α} {b : β} {e : ε}
    (h : items.foldlM step b = .error e) : ∃ b', ∃ a ∈ items, step b' a = .error e := by
  induction items generalizing b with
  | nil => cases h
  | cons a items ih =>
    rw [List.foldlM_cons, bind_eq_error] at h
    obtain h | ⟨next, -, h⟩ := h
    · exact ⟨b, a, List.mem_cons_self, h⟩
    · obtain ⟨b', a', ha, h⟩ := ih h
      exact ⟨b', a', List.mem_cons_of_mem _ ha, h⟩

/-- A loop over items fails at the first of them that does. -/
theorem mapM_eq_error_iff {f : α → Except ε β} {items : List α} {e : ε} :
    items.mapM f = .error e ↔
      ∃ before a after, items = before ++ a :: after ∧ (∀ a' ∈ before, ∃ b, f a' = .ok b) ∧ f a = .error e := by
  constructor
  · intro h
    induction items with
    | nil => cases h
    | cons first items ih =>
      rw [List.mapM_cons, bind_eq_error] at h
      obtain h | ⟨b, hb, h⟩ := h
      · exact ⟨[], first, items, rfl, nofun, h⟩
      · obtain h | ⟨_, -, h⟩ := bind_eq_error.1 h
        · obtain ⟨before, a, after, rfl, good, ha⟩ := ih h
          exact ⟨first :: before, a, after, rfl, List.forall_mem_cons.2 ⟨⟨b, hb⟩, good⟩, ha⟩
        · cases h
  · rintro ⟨before, a, after, rfl, good, ha⟩
    induction before with
    | nil =>
      rw [List.nil_append, List.mapM_cons, ha]
      rfl
    | cons first before ih =>
      obtain ⟨⟨b, hb⟩, good⟩ := List.forall_mem_cons.1 good
      rw [List.cons_append, List.mapM_cons, hb, bind_eq_error]
      exact .inr ⟨b, rfl, bind_eq_error.2 (.inl (ih good))⟩

/-! ## Readings that find what they ask for -/

/-- The reading does not fail for want of something in the tree. -/
def Supplied (x : Reading ε α) : Prop :=
  ∀ fault, x = .error fault → fault.cause.isShapeFault = false

section

@[simp] theorem supplied_ok (a : α) : Supplied (.ok a : Reading ε α) := nofun

@[simp] theorem supplied_pure (a : α) : Supplied (pure a : Reading ε α) := nofun

@[simp] theorem supplied_error (fault : Fault ε) :
    Supplied (.error fault : Reading ε α) ↔ fault.cause.isShapeFault = false :=
  ⟨fun h => h fault rfl, fun h _ e => Except.error.inj e ▸ h⟩

@[simp] theorem supplied_bind {x : Reading ε α} {f : α → Reading ε β} :
    Supplied (x >>= f) ↔ Supplied x ∧ ∀ a, x = .ok a → Supplied (f a) := by
  cases x with
  | ok a => exact ⟨fun h => ⟨nofun, fun _ e => Except.ok.inj e ▸ h⟩, fun h => h.2 a rfl⟩
  | error fault =>
    show Supplied (.error fault : Reading ε β) ↔ _
    simp

@[simp] theorem supplied_map {x : Reading ε α} {f : α → β} : Supplied (f <$> x) ↔ Supplied x := by
  cases x with
  | ok a => exact ⟨nofun, nofun⟩
  | error fault => exact (supplied_error fault).trans (supplied_error fault).symm

@[simp] theorem supplied_map' {x : Reading ε α} {f : α → β} : Supplied (x.map f) ↔ Supplied x :=
  supplied_map

@[simp] theorem supplied_ite {c : Prop} [Decidable c] {x y : Reading ε α} :
    Supplied (if c then x else y) ↔ (c → Supplied x) ∧ (¬ c → Supplied y) := by
  split <;> simp [*]

@[simp] theorem supplied_complain (offset : Nat) (e : ε) :
    Supplied (complain offset e : Reading ε α) :=
  (supplied_error _).2 rfl

@[simp] theorem supplied_orComplain (a : Option α) (offset : Nat) (e : ε) :
    Supplied (orComplain a offset e) := by
  cases a with
  | none => exact supplied_complain offset e
  | some a => exact supplied_ok a

theorem supplied_mapM {f : α → Reading ε β} {items : List α} (h : ∀ a ∈ items, Supplied (f a)) :
    Supplied (items.mapM f) := by
  induction items with
  | nil => simp
  | cons a items ih =>
    simpa [h a List.mem_cons_self] using
      fun _ _ => ih fun b hb => h b (List.mem_cons_of_mem _ hb)

theorem supplied_foldlM {step : β → α → Reading ε β} {items : List α}
    (h : ∀ a ∈ items, ∀ b, Supplied (step b a)) (b : β) : Supplied (items.foldlM step b) := by
  induction items generalizing b with
  | nil => simp
  | cons a items ih =>
    simpa [h a List.mem_cons_self b] using
      fun next _ => ih (fun a ha => h a (List.mem_cons_of_mem _ ha)) next

theorem supplied_forM {f : α → Reading ε Unit} {items : List α} (h : ∀ a ∈ items, Supplied (f a)) :
    Supplied (items.forM f) := by
  induction items with
  | nil => simp
  | cons a items ih =>
    simpa [h a List.mem_cons_self] using
      fun _ _ => ih fun b hb => h b (List.mem_cons_of_mem _ hb)

end

/-! ### Fields -/

section

variable (t : Tree) (field : String)

@[simp] theorem supplied_need : Supplied (t.need field : Reading ε Node) ↔ t.has field = true := by
  rw [← Tree.isSome_get?, Tree.need]
  cases t.get? field <;> simp [Cause.isShapeFault]

theorem need_of_not_has (h : t.has field = false) :
    (t.need field : Reading ε Node) =
      .error ⟨some t.span.offset, .missing field t.span.trimmed⟩ := by
  rw [← Tree.isSome_get?, Option.isSome_eq_false_iff, Option.isNone_iff_eq_none] at h
  rw [Tree.need, h]

@[simp] theorem supplied_needText :
    Supplied (t.needText field : Reading ε String) ↔ t.has field = true := by
  simp [Tree.needText]

@[simp] theorem supplied_needString :
    Supplied (t.needString field : Reading ε String) ↔ t.has field = true := by
  simp [Tree.needString]

@[simp] theorem supplied_needNumber (read? : String → Option α) :
    Supplied (t.needNumber read? field : Reading ε α) ↔ t.has field = true := by
  simp only [Tree.needNumber, supplied_bind, supplied_need, and_iff_left_iff_imp]
  intro _ node _
  cases read? (trim node.text) <;> simp [Cause.isShapeFault]

@[simp] theorem supplied_needGroup :
    Supplied (t.needGroup field : Reading ε Tree) ↔ ∃ group, t.tree? field = some group := by
  simp only [Tree.needGroup, Tree.need, Tree.tree?]
  rcases t.get? field with _ | ⟨_ | _ | _⟩ <;>
    simp [bind, Except.bind, Node.tree?, Cause.isShapeFault]

@[simp] theorem needGroup_eq_ok {group : Tree} :
    (t.needGroup field : Reading ε Tree) = .ok group ↔ t.tree? field = some group := by
  simp only [Tree.needGroup, Tree.need, Tree.tree?]
  rcases t.get? field with _ | ⟨_ | _ | _⟩ <;> simp [bind, Except.bind, Node.tree?]

/-- The texts of the fields of a tree. -/
def texts (t : Tree) : List (String × String) := t.fields.map fun (field, node) => (field, node.text)

theorem text?_eq_lookup : t.text? field = (texts t).lookup field := by
  obtain ⟨span, fields⟩ := t
  simp only [Tree.text?, Tree.get?, texts, Tree.fields]
  induction fields with
  | nil => rfl
  | cons first fields ih =>
    obtain ⟨name, node⟩ := first
    simp only [List.map_cons, List.lookup_cons]
    cases field == name
    · exact ih
    · rfl

theorem text?_of_texts {fields : List (String × String)} {found : Option String} (h : texts t = fields)
    (hfound : fields.lookup field = found) : t.text? field = found := by
  rw [← hfound, ← h, text?_eq_lookup]

theorem has_eq_isSome : t.has field = (t.text? field).isSome := by
  rw [← Tree.isSome_get?, Tree.text?, Option.isSome_map]

theorem filled?_of_none (h : t.text? field = none) : t.filled? field = none := by
  rw [Tree.filled?, Tree.trimmed?, h]
  rfl

theorem filled?_of_text? {text : String} (h : t.text? field = some text) (trimmed : trim text = text)
    (hne : text ≠ "") : t.filled? field = some text := by
  rw [Tree.filled?, Tree.trimmed?, h, Option.map_some, trimmed]
  simpa using hne

theorem needText_of_text? {text : String} (h : t.text? field = some text) (trimmed : trim text = text) :
    (t.needText field : Reading ε String) = .ok text := by
  obtain ⟨node, hnode, rfl⟩ := Option.map_eq_some_iff.1 h
  rw [Tree.needText, Tree.need, hnode]
  exact congrArg Except.ok trimmed

theorem needText_eq_ok {text : String} :
    (t.needText field : Reading ε String) = .ok text ↔ t.trimmed? field = some text := by
  rw [Tree.needText, Tree.need, Tree.trimmed?, Tree.text?]
  cases t.get? field with
  | none => exact ⟨nofun, nofun⟩
  | some node => exact ⟨fun h => congrArg some (Except.ok.inj h), fun h => congrArg Except.ok (Option.some.inj h)⟩

theorem exists_needText : (∃ text, (t.needText field : Reading ε String) = .ok text) ↔ t.has field = true := by
  simp only [needText_eq_ok]
  rw [has_eq_isSome, Option.isSome_iff_exists, Tree.trimmed?]
  simp

theorem exists_text_of_string? {s : String} (h : t.string? field = some s) :
    ∃ raw, t.text? field = some raw ∧ unquote (trim raw) = s := by
  obtain ⟨kept, hkept, rfl⟩ := Option.map_eq_some_iff.1 h
  obtain ⟨raw, hraw, rfl⟩ := Option.map_eq_some_iff.1 (Option.filter_eq_some_iff.1 hkept).1
  exact ⟨raw, hraw, rfl⟩

theorem has_of_filled {text : String} (h : t.filled? field = some text) : t.has field = true := by
  rw [← Tree.isSome_get?]
  cases hget : t.get? field with
  | none => simp [Tree.filled?, Tree.trimmed?, Tree.text?, hget] at h
  | some node => rfl

/-- Of two fields the second is there if the first, which is not blank, says nothing. -/
theorem has_of_string?_none {other : String} (hone : t.has field = true ∨ t.has other = true)
    (hinked : t.has field = true → ∃ text, t.filled? field = some text)
    (hnone : t.string? field = none) : t.has other = true := by
  refine hone.resolve_left fun hfield => ?_
  obtain ⟨text, hfilled⟩ := hinked hfield
  rw [Tree.string?, hfilled] at hnone
  cases hnone

/-- A number is left out only where nothing is filled in. -/
theorem filled?_of_number? {read? : String → Option α}
    (h : (t.number? read? field : Reading ε (Option α)) = .ok none) : t.filled? field = none := by
  unfold Tree.number? at h
  split at h
  · obtain ⟨a, -, e⟩ := map_eq_ok.1 h
    cases e
  · assumption

/-- A number that need not be there asks for nothing. -/
@[simp] theorem supplied_number? (read? : String → Option α) :
    Supplied (t.number? read? field : Reading ε (Option α)) := by
  unfold Tree.number?
  split
  · rename_i hfilled
    simpa using has_of_filled t field hfilled
  · simp

end

/-! ### Statements -/

section

variable {t : Tree}

theorem mem_place {entry : List String × (Tree → Reading ε α)} {signature : List String}
    {read : Tree → Reading ε α} {entries : List (List String × (Tree → Reading ε α))} :
    entry ∈ Shapes.place signature read entries ↔ entry = (signature, read) ∨ entry ∈ entries := by
  induction entries with
  | nil => simp [Shapes.place]
  | cons first rest ih =>
    rw [Shapes.place]
    split
    · simp
    · simp [ih, or_left_comm]

theorem mem_ofList {entry : List String × (Tree → Reading ε α)}
    {entries : List (List String × (Tree → Reading ε α))} :
    entry ∈ (Shapes.ofList entries).entries ↔ entry ∈ entries := by
  have placed (s : Shapes ε α) :
      entry ∈ (entries.foldl (fun s e => s.on e.1 e.2) s).entries ↔
        entry ∈ s.entries ∨ entry ∈ entries := by
    induction entries generalizing s with
    | nil => simp
    | cons first rest ih =>
      rw [List.foldl_cons, ih, List.mem_cons, ← or_assoc, or_comm (b := _ = _)]
      exact or_congr_left mem_place
  exact (placed {}).trans (by simp)

theorem read_of_find? {s : Shapes ε α} {entry : List String × (Tree → Reading ε α)}
    (h : (s.entries.find? fun entry => entry.1.all t.has) = some entry) : s.read t = entry.2 t := by
  rw [Shapes.read, h]

theorem readAll_cons {s : Shapes ε α} {ts : List Tree} {a : α} {as : List α} (h : s.read t = .ok a)
    (hs : s.readAll ts = .ok as) : s.readAll (t :: ts) = .ok (a :: as) := by
  rw [Shapes.readAll] at hs ⊢
  rw [List.mapM_cons, h, hs]
  rfl

theorem readPlaced_singleton {s : Shapes ε α} {a : α} (h : s.read t = .ok a) :
    s.readPlaced [t] = .ok [(t.span.offset, a)] := by
  rw [Shapes.readPlaced, List.mapM_cons, h]
  rfl

/-- Statements are read alike with and without their places. -/
theorem readAll_eq_ok {s : Shapes ε α} {ts : List Tree} {as : List α} :
    s.readAll ts = .ok as ↔ ∃ placed, s.readPlaced ts = .ok placed ∧ placed.map (·.2) = as := by
  rw [Shapes.readAll, Shapes.readPlaced]
  induction ts generalizing as with
  | nil => exact ⟨fun h => ⟨[], rfl, pure_eq_ok.1 h⟩, fun ⟨_, h, same⟩ => by cases h; exact pure_eq_ok.2 same⟩
  | cons t ts ih =>
    simp only [List.mapM_cons, bind_eq_ok, pure_eq_ok, ih]
    constructor
    · rintro ⟨a, ha, _, ⟨placed, hplaced, rfl⟩, rfl⟩
      exact ⟨_, ⟨_, ⟨a, ha, rfl⟩, placed, hplaced, rfl⟩, rfl⟩
    · rintro ⟨_, ⟨_, ⟨a, ha, rfl⟩, placed, hplaced, rfl⟩, rfl⟩
      exact ⟨a, ha, _, ⟨placed, hplaced, rfl⟩, rfl⟩

/-- A statement that is read is so by a shape that fits it. -/
theorem exists_shape {entries : List (List String × (Tree → Reading ε α))} {a : α}
    (h : (Shapes.ofList entries).read t = .ok a) :
    ∃ entry ∈ entries, entry.1.all t.has = true ∧ entry.2 t = .ok a := by
  rw [Shapes.read] at h
  split at h
  · rename_i signature read hfound
    have hfit : signature.all t.has = true := by simpa using List.find?_some hfound
    exact ⟨(signature, read), mem_ofList.1 (List.mem_of_find?_eq_some hfound), hfit, h⟩
  · cases h

/-- A statement that a shape fits is read as one of those says. -/
theorem exists_read_eq {entries : List (List String × (Tree → Reading ε α))}
    (hfits : ∃ signature ∈ entries.map (·.1), signature.all t.has = true) :
    ∃ entry ∈ entries, entry.1.all t.has = true ∧ (Shapes.ofList entries).read t = entry.2 t := by
  cases found : (Shapes.ofList entries).entries.find? fun entry => entry.1.all t.has with
  | none =>
    obtain ⟨signature, hsignature, hall⟩ := hfits
    obtain ⟨entry, hentry, rfl⟩ := List.mem_map.1 hsignature
    exact absurd hall (List.find?_eq_none.1 found entry (mem_ofList.2 hentry))
  | some entry =>
    have hfit : entry.1.all t.has = true := by simpa using List.find?_some found
    exact ⟨entry, mem_ofList.1 (List.mem_of_find?_eq_some found), hfit, read_of_find? found⟩

/-- A statement is supplied when a shape fits it and those that do are supplied. -/
theorem supplied_read {entries : List (List String × (Tree → Reading ε α))}
    (hfits : ∃ signature ∈ entries.map (·.1), signature.all t.has = true)
    (h : ∀ entry ∈ entries, entry.1.all t.has = true → Supplied (entry.2 t)) :
    Supplied ((Shapes.ofList entries).read t) := by
  obtain ⟨entry, hentry, hfit, e⟩ := exists_read_eq hfits
  rw [e]
  exact h entry hentry hfit

/-- A statement is read when a shape fits it and all shapes that do read it. -/
theorem exists_read {entries : List (List String × (Tree → Reading ε α))}
    (hfits : ∃ signature ∈ entries.map (·.1), signature.all t.has = true)
    (h : ∀ entry ∈ entries, entry.1.all t.has = true → ∃ a, entry.2 t = .ok a) :
    ∃ a, (Shapes.ofList entries).read t = .ok a := by
  obtain ⟨entry, hentry, hfit, e⟩ := exists_read_eq hfits
  rw [e]
  exact h entry hentry hfit

theorem exists_of_readAll {s : Shapes ε α} {ts : List Tree} {as : List α}
    (h : s.readAll ts = .ok as) : ∀ t ∈ ts, ∃ a, s.read t = .ok a :=
  exists_of_mapM h

theorem exists_of_readPlaced {s : Shapes ε α} {ts : List Tree} {placed : List (Nat × α)}
    (h : s.readPlaced ts = .ok placed) : ∀ t ∈ ts, ∃ a, s.read t = .ok a := by
  intro t ht
  obtain ⟨b, hb⟩ := exists_of_mapM h t ht
  obtain ⟨a, ha, -⟩ := bind_eq_ok.1 hb
  exact ⟨a, ha⟩

theorem supplied_readAll {s : Shapes ε α} {ts : List Tree} (h : ∀ t ∈ ts, Supplied (s.read t)) :
    Supplied (s.readAll ts) :=
  supplied_mapM h

theorem supplied_readPlaced {s : Shapes ε α} {ts : List Tree} (h : ∀ t ∈ ts, Supplied (s.read t)) :
    Supplied (s.readPlaced ts) :=
  supplied_mapM fun t ht => by simpa using h t ht

end

end DiagramText.Reading
