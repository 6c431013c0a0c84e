import DiagramText.Proofs.Peg.Outcome
import DiagramText.Proofs.Text.Blank

/-!
# Outlines of matches

What a rule can leave is known before any input is matched. An outline lists the fields that some
matches of a rule leave, each with the rule that its node is a match of, and says which of them every
such match leaves. `Rule.outlines` collects the outlines of a rule, and what any match leaves fits one
of them (`exists_fits`). Options and repetitions only make their fields unsure, so that the outlines of
a rule stay as few as its alternatives.

A reference needs the outlines of the rule that it stands for. Where that would go on for ever the
outline is left open: it then says which fields there are, but not that there are no others.

More can be read off a rule without matching it: that all of its matches end in plain fields and not in
the trees of a repetition (`Rule.isPlain`), that none of them is blank (`Rule.isInked`), of which rule
the trees of a repetition are matches (`Rule.round?`), and which rules the lines of a body may match
(`Rule.line?`, `Rule.members`).
-/

namespace DiagramText.Peg

variable {table : List (String × Rule)}

/-! ## What matches leave -/

namespace Rule

/-- Some match of the rule leaves these fields. -/
def Leaves (table : List (String × Rule)) (r : Rule) (fields : List (String × Node)) : Prop :=
  ∃ depth cur next fragment,
    r.outcome table depth cur = some (next, fragment) ∧ fragment.toFields = fields

/-- A capture of some match of the rule holds this node. -/
def Fills (table : List (String × Rule)) (r : Rule) (node : Node) : Prop :=
  ∃ depth cur next fragment,
    r.outcome table depth cur = some (next, fragment) ∧ fragment.toNode (cur.spanTo next) = node

end Rule

/-- A field that matches may leave: its name, the rule that fills it, and whether all of them do. -/
structure Piece where
  field : String
  rule : Rule
  sure : Bool

/-- What some matches leave; no other fields than those listed when the outline is closed. -/
structure Outline where
  pieces : List Piece := []
  closed : Bool := true

namespace Outline

/-- The fields are among those of the outline, and the sure ones are there. -/
structure Fits (table : List (String × Rule)) (o : Outline) (fields : List (String × Node)) :
    Prop where
  known : o.closed = true → ∀ field ∈ fields, ∃ p ∈ o.pieces,
    p.field = field.1 ∧ p.rule.Fills table field.2
  there : ∀ p ∈ o.pieces, p.sure = true → ∃ node, (p.field, node) ∈ fields

/-- What two matches leave, one after the other. -/
def append (a b : Outline) : Outline := ⟨a.pieces ++ b.pieces, a.closed && b.closed⟩

/-- What any number of matches leave. -/
def loosen (outlines : List Outline) : Outline :=
  ⟨(outlines.flatMap pieces).map ({ · with sure := false }), outlines.all closed⟩

/-- Nothing is known. -/
def unknown : Outline := ⟨[], false⟩

/-- Whether the field is always there. -/
def ensures (o : Outline) (field : String) : Bool := o.pieces.any fun p => p.sure && p.field == field

/-- Whether only rules of which `ok` holds fill the field. -/
def filledBy (o : Outline) (field : String) (ok : Rule → Bool) : Bool :=
  o.closed && o.pieces.all fun p => p.field != field || ok p.rule

/-- Whether the field is never there. -/
def excludes (o : Outline) (field : String) : Bool := o.filledBy field fun _ => false

/-- Whether only these fields are ever there. -/
def within (o : Outline) (fields : List String) : Bool :=
  o.closed && o.pieces.all fun p => fields.contains p.field

/-- Whether nothing is ever there. -/
def isEmpty (o : Outline) : Bool := o.within []

namespace Fits

variable {a b o : Outline} {fields more : List (String × Node)}

theorem nothing : Fits table {} [] := ⟨fun _ _ h => (nomatch h), fun _ h => nomatch h⟩

theorem unknown (fields : List (String × Node)) : Fits table .unknown fields :=
  ⟨nofun, fun _ h => nomatch h⟩

theorem append (h : a.Fits table fields) (h' : b.Fits table more) :
    (a.append b).Fits table (fields ++ more) where
  known hclosed field hfield := by
    obtain ⟨ha, hb⟩ := Bool.and_eq_true_iff.1 hclosed
    rcases List.mem_append.1 hfield with hfield | hfield
    · obtain ⟨p, hp, fills⟩ := h.known ha field hfield
      exact ⟨p, List.mem_append_left _ hp, fills⟩
    · obtain ⟨p, hp, fills⟩ := h'.known hb field hfield
      exact ⟨p, List.mem_append_right _ hp, fills⟩
  there p hp hsure := by
    rcases List.mem_append.1 hp with hp | hp
    · exact (h.there p hp hsure).imp fun _ => List.mem_append_left _
    · exact (h'.there p hp hsure).imp fun _ => List.mem_append_right _

theorem loosen_nil (outlines : List Outline) : (loosen outlines).Fits table [] where
  known _ _ h := nomatch h
  there p hp hsure := by
    obtain ⟨q, -, rfl⟩ := List.mem_map.1 hp
    cases hsure

/-- One more match changes nothing about what any number of matches leave. -/
theorem loosen_append {outlines : List Outline} (ho : o ∈ outlines) (h : o.Fits table fields)
    (h' : (loosen outlines).Fits table more) : (loosen outlines).Fits table (fields ++ more) where
  known hclosed field hfield := by
    rcases List.mem_append.1 hfield with hfield | hfield
    · obtain ⟨p, hp, fills⟩ := h.known (List.all_eq_true.1 hclosed o ho) field hfield
      exact ⟨_, List.mem_map.2 ⟨p, List.mem_flatMap.2 ⟨o, ho, hp⟩, rfl⟩, fills⟩
    · exact h'.known hclosed field hfield
  there p hp hsure := by
    obtain ⟨q, -, rfl⟩ := List.mem_map.1 hp
    cases hsure

theorem ensured (h : o.Fits table fields) {field : String} (he : o.ensures field = true) :
    ∃ node, (field, node) ∈ fields := by
  obtain ⟨p, hp, e⟩ := List.any_eq_true.1 he
  obtain ⟨hsure, hname⟩ := Bool.and_eq_true_iff.1 e
  exact eq_of_beq hname ▸ h.there p hp hsure

theorem filled (h : o.Fits table fields) {field : String} {ok : Rule → Bool}
    (hok : o.filledBy field ok = true) {node : Node} (hnode : (field, node) ∈ fields) :
    ∃ r, ok r = true ∧ r.Fills table node := by
  obtain ⟨hclosed, hall⟩ := Bool.and_eq_true_iff.1 hok
  obtain ⟨p, hp, rfl, fills⟩ := h.known hclosed _ hnode
  exact ⟨p.rule, by simpa using List.all_eq_true.1 hall p hp, fills⟩

theorem excluded (h : o.Fits table fields) {field : String} (he : o.excludes field = true)
    (node : Node) : (field, node) ∉ fields := by
  intro hnode
  obtain ⟨r, hfalse, -⟩ := h.filled he hnode
  cases hfalse

theorem mem_of_within (h : o.Fits table fields) {names : List String}
    (hw : o.within names = true) {field : String} {node : Node} (hnode : (field, node) ∈ fields) :
    field ∈ names := by
  obtain ⟨hclosed, hall⟩ := Bool.and_eq_true_iff.1 hw
  obtain ⟨p, hp, rfl, -⟩ := h.known hclosed _ hnode
  simpa using List.all_eq_true.1 hall p hp

theorem eq_nil (h : o.Fits table fields) (he : o.isEmpty = true) : fields = [] :=
  List.eq_nil_iff_forall_not_mem.2 fun _ hfield => List.not_mem_nil (h.mem_of_within he hfield)

end Fits

end Outline

/-! ## The outlines of a rule -/

namespace Rule

mutual

/-- The outlines of the rule, where `call` gives those of a name. -/
def outlines (call : String → List Outline) : Rule → List Outline
  | literal _ _ | chars _ | notAhead _ => [{}]
  | sequence rules => outlinesAll call rules
  | choice rules => outlinesAny call rules
  | repeated r _ _ | optional r => [.loosen (outlines call r)]
  | capture field r => [⟨[⟨field, r, true⟩], true⟩]
  | labelled _ r | quiet r => outlines call r
  | ref name => call name

/-- The outlines of the rules one after the other. -/
def outlinesAll (call : String → List Outline) : List Rule → List Outline
  | [] => [{}]
  | r :: rules => (outlines call r).flatMap fun a => (outlinesAll call rules).map a.append

/-- The outlines of one of the rules. -/
def outlinesAny (call : String → List Outline) : List Rule → List Outline
  | [] => []
  | r :: rules => outlines call r ++ outlinesAny call rules

end

/-- The outlines of a rule whose references are those of `table`; those inside of them stay open. -/
def outlinesIn (table : List (String × Rule)) (r : Rule) : List Outline :=
  r.outlines fun name => ((table.lookup name).map (outlines fun _ => [.unknown])).getD []

end Rule

section

variable {call : String → List Outline}

theorem mem_outlinesAny {rules : List Rule} {r : Rule} (hr : r ∈ rules) {o : Outline}
    (ho : o ∈ r.outlines call) : o ∈ Rule.outlinesAny call rules := by
  induction rules with
  | nil => cases hr
  | cons first rules ih =>
    rw [Rule.outlinesAny, List.mem_append]
    rcases List.mem_cons.1 hr with rfl | hr
    · exact .inl ho
    · exact .inr (ih hr)

/-- All that matches of the rule leave fits one of the outlines. -/
def Covers (table : List (String × Rule)) (r : Rule) (outlines : List Outline) : Prop :=
  ∀ fields, r.Leaves table fields → ∃ o ∈ outlines, o.Fits table fields

theorem covers_of_fragment {r : Rule} {outlines : List Outline}
    (h : ∀ depth cur next fragment, r.outcome table depth cur = some (next, fragment) →
      ∃ o ∈ outlines, o.Fits table fragment.toFields) : Covers table r outlines := by
  rintro _ ⟨depth, cur, next, fragment, hm, rfl⟩
  exact h depth cur next fragment hm

theorem sequence_covers {rules : List Rule} (h : ∀ r ∈ rules, Covers table r (r.outlines call)) :
    Covers table (.sequence rules) (Rule.outlinesAll call rules) := by
  induction rules with
  | nil =>
    refine covers_of_fragment fun depth cur next fragment hm => ?_
    obtain ⟨-, rfl⟩ := sequence_nil_eq_some.1 hm
    exact ⟨{}, List.mem_singleton.2 rfl, .nothing⟩
  | cons r rules ih =>
    refine covers_of_fragment fun depth cur next fragment hm => ?_
    obtain ⟨mid, a, b, ha, hb, rfl⟩ := sequence_cons_eq_some.1 hm
    obtain ⟨o, ho, fits⟩ := h r List.mem_cons_self _ ⟨depth, cur, mid, a, ha, rfl⟩
    obtain ⟨o', ho', fits'⟩ :=
      ih (fun r' h' => h r' (List.mem_cons_of_mem _ h')) _ ⟨depth, mid, next, b, hb, rfl⟩
    exact ⟨o.append o', List.mem_flatMap.2 ⟨o, ho, List.mem_map_of_mem ho'⟩, fits.append fits'⟩

theorem repeated_covers {r : Rule} {outlines : List Outline} (h : Covers table r outlines)
    (least : Nat) (most : Option Nat) :
    Covers table (.repeated r least most) [.loosen outlines] := by
  refine covers_of_fragment fun depth cur next fragment hm => ?_
  have round (cur mid : Cursor) (fragment : Fragment) (trees : List Tree)
      (hs : r.outcome table depth cur = some (mid, fragment))
      (fits : (Outline.loosen outlines).Fits table (trees.flatMap Tree.fields)) :
      (Outline.loosen outlines).Fits table
        ((fragment.round (cur.spanTo mid) ++ trees).flatMap Tree.fields) := by
    obtain ⟨o, ho, first⟩ := h _ ⟨depth, cur, mid, fragment, hs, rfl⟩
    rw [List.flatMap_append, Fragment.flatMap_round]
    exact first.loosen_append ho fits
  obtain ⟨trees, rfl, fits⟩ := repeated_ind
    (motive := fun _ _ trees => (Outline.loosen outlines).Fits table (trees.flatMap Tree.fields))
    (fun _ => .loosen_nil outlines)
    (fun cur fragment hs => by simpa using round cur cur fragment [] hs (.loosen_nil outlines))
    (fun cur mid _ fragment trees hs _ rest => round cur mid fragment trees hs rest) hm
  exact ⟨_, List.mem_singleton.2 rfl, fits⟩

theorem covers_of_refs (hcall : ∀ name, Covers table (.ref name) (call name)) (r : Rule) :
    Covers table r (r.outlines call) := by
  induction r using Rule.ind with
  | literal text anyCase =>
    refine covers_of_fragment fun depth cur next fragment hm => ?_
    rw [toFields_of_capturesNone rfl cur next fragment hm]
    exact ⟨{}, List.mem_singleton.2 rfl, .nothing⟩
  | chars set =>
    refine covers_of_fragment fun depth cur next fragment hm => ?_
    rw [toFields_of_capturesNone rfl cur next fragment hm]
    exact ⟨{}, List.mem_singleton.2 rfl, .nothing⟩
  | sequence rules ih => exact sequence_covers ih
  | choice rules ih =>
    refine covers_of_fragment fun depth cur next fragment hm => ?_
    obtain ⟨r, hr, hm⟩ := choice_eq_some hm
    obtain ⟨o, ho, fits⟩ := ih r hr _ ⟨depth, cur, next, fragment, hm, rfl⟩
    exact ⟨o, mem_outlinesAny hr ho, fits⟩
  | repeated r least most ih => exact repeated_covers ih least most
  | optional r ih =>
    refine covers_of_fragment fun depth cur next fragment hm => ⟨_, List.mem_singleton.2 rfl, ?_⟩
    rw [outcome_optional] at hm
    cases hs : r.outcome table depth cur with
    | none =>
      rw [hs] at hm
      obtain ⟨-, rfl⟩ := Prod.mk.inj (Option.some.inj hm)
      exact .loosen_nil _
    | some found =>
      rw [hs] at hm
      obtain ⟨o, ho, fits⟩ := ih _ ⟨depth, cur, next, fragment, hs.trans hm, rfl⟩
      simpa using fits.loosen_append ho (.loosen_nil _)
  | notAhead r ih =>
    refine covers_of_fragment fun depth cur next fragment hm => ⟨{}, List.mem_singleton.2 rfl, ?_⟩
    rw [outcome_notAhead, Option.ite_none_right_eq_some] at hm
    obtain ⟨-, rfl⟩ := Prod.mk.inj (Option.some.inj hm.2)
    exact .nothing
  | capture field r ih =>
    refine covers_of_fragment fun depth cur next fragment hm => ⟨_, List.mem_singleton.2 rfl, ?_⟩
    rw [outcome_capture, Option.map_eq_some_iff] at hm
    obtain ⟨⟨last, captured⟩, hs, e⟩ := hm
    obtain ⟨rfl, rfl⟩ := Prod.mk.inj e
    have fills : r.Fills table (captured.toNode (cur.spanTo last)) :=
      ⟨depth, cur, last, captured, hs, rfl⟩
    exact ⟨by simpa [Fragment.toFields] using fills, by simp [Fragment.toFields]⟩
  | labelled label r ih =>
    refine covers_of_fragment fun depth cur next fragment hm => ?_
    rw [outcome_labelled] at hm
    exact ih _ ⟨depth, cur, next, fragment, hm, rfl⟩
  | quiet r ih =>
    refine covers_of_fragment fun depth cur next fragment hm => ?_
    rw [outcome_quiet] at hm
    exact ih _ ⟨depth, cur, next, fragment, hm, rfl⟩
  | ref name => exact hcall name

/-- A name is covered by the outlines of the rule that it stands for. -/
theorem ref_covers {name : String} {outlines : Rule → List Outline}
    (h : ∀ r, Covers table r (outlines r)) :
    Covers table (.ref name) (((table.lookup name).map outlines).getD []) := by
  refine covers_of_fragment fun depth cur next fragment hm => ?_
  cases depth with
  | zero =>
    rw [outcome_ref_zero] at hm
    cases hm
  | succ depth =>
    rw [outcome_ref, Option.bind_eq_some_iff] at hm
    obtain ⟨r, hr, hm⟩ := hm
    rw [hr]
    exact h r _ ⟨depth, cur, next, fragment, hm, rfl⟩

/-- What a match leaves fits one of the outlines of its rule. -/
theorem exists_fits (r : Rule) : Covers table r (r.outlinesIn table) :=
  covers_of_refs (fun _ => ref_covers (covers_of_refs fun _ _ _ =>
    ⟨_, List.mem_singleton.2 rfl, .unknown _⟩)) r

end

/-! ## What captures hold -/

namespace Rule

mutual

/-- Whether every match of the rule leaves plain fields. -/
def isPlain : Rule → Bool
  | literal _ _ | chars _ | sequence _ | notAhead _ | capture _ _ => true
  | choice rules => isPlainAll rules
  | optional r | labelled _ r | quiet r => r.isPlain
  | repeated _ _ _ | ref _ => false

/-- Whether every match of each of the rules leaves plain fields. -/
def isPlainAll : List Rule → Bool
  | [] => true
  | r :: rules => r.isPlain && isPlainAll rules

end

end Rule

theorem isPlain_of_mem {rules : List Rule} (h : Rule.isPlainAll rules = true) {r : Rule}
    (hr : r ∈ rules) : r.isPlain = true := by
  induction rules with
  | nil => cases hr
  | cons first rules ih =>
    rw [Rule.isPlainAll, Bool.and_eq_true] at h
    rcases List.mem_cons.1 hr with rfl | hr
    · exact h.1
    · exact ih h.2 hr

theorem eq_fields_of_isPlain {depth : Nat} {r : Rule} (hr : r.isPlain = true) {cur next : Cursor}
    {fragment : Fragment} (hm : r.outcome table depth cur = some (next, fragment)) :
    fragment = .fields fragment.toFields := by
  induction r using Rule.ind generalizing cur next fragment with
  | literal text anyCase =>
    rw [outcome_literal] at hm
    obtain ⟨_, _, e⟩ := Option.map_eq_some_iff.1 hm
    obtain ⟨-, rfl⟩ := Prod.mk.inj e
    rfl
  | chars set =>
    rw [outcome_chars] at hm
    obtain ⟨_, _, e⟩ := Option.map_eq_some_iff.1 hm
    obtain ⟨-, rfl⟩ := Prod.mk.inj e
    rfl
  | sequence rules ih =>
    cases rules with
    | nil =>
      obtain ⟨-, rfl⟩ := sequence_nil_eq_some.1 hm
      rfl
    | cons r rules =>
      obtain ⟨mid, a, b, -, -, rfl⟩ := sequence_cons_eq_some.1 hm
      rfl
  | choice rules ih =>
    obtain ⟨r, hmem, hm⟩ := choice_eq_some hm
    rw [Rule.isPlain] at hr
    exact ih r hmem (isPlain_of_mem hr hmem) hm
  | repeated r least most ih => cases hr
  | optional r ih =>
    rw [outcome_optional] at hm
    cases hs : r.outcome table depth cur with
    | none =>
      rw [hs] at hm
      obtain ⟨-, rfl⟩ := Prod.mk.inj (Option.some.inj hm)
      rfl
    | some found =>
      rw [hs] at hm
      exact ih hr (hs.trans hm)
  | notAhead r ih =>
    rw [outcome_notAhead, Option.ite_none_right_eq_some] at hm
    obtain ⟨-, rfl⟩ := Prod.mk.inj (Option.some.inj hm.2)
    rfl
  | capture field r ih =>
    rw [outcome_capture, Option.map_eq_some_iff] at hm
    obtain ⟨_, -, e⟩ := hm
    obtain ⟨-, rfl⟩ := Prod.mk.inj e
    rfl
  | labelled label r ih =>
    rw [outcome_labelled] at hm
    exact ih hr hm
  | quiet r ih =>
    rw [outcome_quiet] at hm
    exact ih hr hm
  | ref name => cases hr

/-- A tree in a capture holds what the match left. -/
theorem Rule.Fills.leaves {r : Rule} {t : Tree} (h : r.Fills table (.tree t)) :
    r.Leaves table t.fields := by
  obtain ⟨depth, cur, next, fragment, hm, e⟩ := h
  refine ⟨depth, cur, next, fragment, hm, ?_⟩
  rcases fragment with ⟨_ | ⟨field, fields⟩⟩ | ⟨_ | ⟨first, trees⟩⟩ <;> cases e
  rfl

/-- A capture of plain fields holds a tree if there are any. -/
theorem Rule.Fills.tree {r : Rule} (hr : r.isPlain = true) {node : Node} (h : r.Fills table node)
    (hsome : ∀ fields, r.Leaves table fields → fields ≠ []) : ∃ t, node = .tree t := by
  obtain ⟨depth, cur, next, fragment, hm, rfl⟩ := h
  have hne := hsome _ ⟨depth, cur, next, fragment, hm, rfl⟩
  rw [eq_fields_of_isPlain hr hm]
  cases hf : fragment.toFields with
  | nil => exact absurd hf hne
  | cons field fields => exact ⟨.mk (cur.spanTo next) (field :: fields), rfl⟩

/-- The rule of the rounds of a repetition. -/
def Rule.round? : Rule → Option Rule
  | .repeated r _ _ => some r
  | _ => none

/-- The trees of a captured repetition are rounds that left something. -/
theorem Rule.Fills.list {r round : Rule} (hr : r.round? = some round) {trees : List Tree}
    (h : r.Fills table (.list trees)) :
    ∀ t ∈ trees, round.Leaves table t.fields ∧ t.fields ≠ [] := by
  obtain ⟨depth, cur, next, fragment, hm, e⟩ := h
  cases r with
  | repeated r least most =>
    obtain rfl : r = round := Option.some.inj hr
    have hround (cur next : Cursor) (fragment : Fragment)
        (hs : r.outcome table depth cur = some (next, fragment)) :
        ∀ t ∈ fragment.round (cur.spanTo next), r.Leaves table t.fields ∧ t.fields ≠ [] := by
      intro t ht
      unfold Fragment.round at ht
      split at ht
      · cases ht
      · rename_i hne
        obtain rfl := List.mem_singleton.1 ht
        exact ⟨⟨depth, cur, next, fragment, hs, rfl⟩, hne⟩
    obtain ⟨found, rfl, hall⟩ := repeated_ind
      (motive := fun _ _ trees => ∀ t ∈ trees, r.Leaves table t.fields ∧ t.fields ≠ [])
      (fun _ _ h => nomatch h) (fun cur fragment hs => hround cur cur fragment hs)
      (fun cur mid _ fragment _ hs _ rest t ht =>
        (List.mem_append.1 ht).elim (hround cur mid fragment hs t) (rest t)) hm
    cases found with
    | nil => cases e
    | cons t ts =>
      obtain rfl : t :: ts = trees := Node.list.inj e
      exact hall
  | literal | chars | sequence | choice | optional | notAhead | capture | labelled | quiet | ref =>
    cases hr

/-- The rule that stands between what captures nothing on the lines of a body. -/
def Rule.line? : Rule → Option Rule
  | .repeated (.choice [blank, .sequence [before, line, after]]) _ _ =>
    if blank.capturesNone && before.capturesNone && after.capturesNone then some line else none
  | _ => none

theorem Rule.Fills.line {r line : Rule} (hr : r.line? = some line) {trees : List Tree}
    (h : r.Fills table (.list trees)) : ∀ t ∈ trees, line.Leaves table t.fields := by
  intro t ht
  unfold Rule.line? at hr
  split at hr
  · rename_i blank before line' after least most
    obtain ⟨hnone, rfl⟩ : _ ∧ line' = line := by simpa using hr
    obtain ⟨⟨hblank, hbefore⟩, hafter⟩ := hnone
    obtain ⟨⟨depth, cur, next, fragment, hm, e⟩, hne⟩ := h.list rfl t ht
    obtain ⟨chosen, hmem, hchosen⟩ := choice_eq_some hm
    rcases List.mem_cons.1 hmem with rfl | hmem
    · exact absurd (e ▸ toFields_of_capturesNone hblank cur next fragment hchosen) hne
    · obtain rfl := List.mem_singleton.1 hmem
      obtain ⟨first, a, _, ha, hrest, rfl⟩ := sequence_cons_eq_some.1 hchosen
      obtain ⟨second, b, _, hb, hend, rfl⟩ := sequence_cons_eq_some.1 hrest
      obtain ⟨c, hc, rfl⟩ := sequence_singleton_eq_some.1 hend
      have hbefore := toFields_of_capturesNone hbefore cur first a ha
      have hafter := toFields_of_capturesNone hafter second _ c hc
      refine ⟨depth, first, second, b, hb, ?_⟩
      rw [← e]
      show b.toFields = a.toFields ++ (b.toFields ++ (c.toFields ++ []))
      rw [hbefore, hafter, List.nil_append, List.append_nil, List.append_nil]
  · cases hr

/-- The members of a choice; a rule of any other form is its only member. -/
def Rule.members : Rule → List Rule
  | .choice rules => rules
  | r => [r]

theorem Rule.Leaves.member {r : Rule} {fields : List (String × Node)} (h : r.Leaves table fields) :
    ∃ m ∈ r.members, m.Leaves table fields := by
  unfold Rule.members
  split
  · obtain ⟨depth, cur, next, fragment, hm, e⟩ := h
    obtain ⟨m, hmem, hm⟩ := choice_eq_some hm
    exact ⟨m, hmem, depth, cur, next, fragment, hm, e⟩
  · exact ⟨r, List.mem_singleton.2 rfl, h⟩

/-! ## Text that is not blank -/

/-- Whether all characters of the class are known to be visible. -/
def CharClass.isInked : CharClass → Bool
  | oneOf set => set.all (!isBlank ·)
  | range first last => '!' ≤ first && last ≤ '~'
  | any | noneOf _ | union _ | satisfying _ _ => false

theorem not_isBlank_of_isInked {set : CharClass} (h : set.isInked = true) {c : Char}
    (hc : set.contains c = true) : isBlank c = false := by
  cases set with
  | oneOf chars => simpa using List.all_eq_true.1 h c (by simpa [CharClass.contains] using hc)
  | range first last =>
    simp only [CharClass.isInked, CharClass.contains, Bool.and_eq_true, decide_eq_true_eq] at h hc
    have low : '!' ≤ c := Char.le_trans h.1 hc.1
    have high : c ≤ '~' := Char.le_trans hc.2 h.2
    have low : 33 ≤ c.toNat := low
    have high : c.toNat ≤ 126 := high
    simp only [isBlank, Bool.or_eq_false_iff, Bool.and_eq_false_iff, decide_eq_false_iff_not,
      beq_eq_false_iff_ne]
    omega
  | any | noneOf | union | satisfying => cases h

namespace Rule

mutual

/-- Whether no match of the rule is blank. -/
def isInked : Rule → Bool
  | literal text anyCase => !anyCase && text.toList.any (!isBlank ·)
  | chars set => set.isInked
  | sequence rules => anyInked rules
  | choice rules => allInked rules
  | repeated r least _ => 0 < least && r.isInked
  | capture _ r | labelled _ r | quiet r => r.isInked
  | optional _ | notAhead _ | ref _ => false

/-- Whether no match of the rules one after the other is blank. -/
def anyInked : List Rule → Bool
  | [] => false
  | r :: rules => r.isInked || anyInked rules

/-- Whether no match of any of the rules is blank. -/
def allInked : List Rule → Bool
  | [] => true
  | r :: rules => r.isInked && allInked rules

end

end Rule

/-- There is a character that is not blank between two positions. -/
def Cursor.Inked (cur next : Cursor) : Prop :=
  ∃ text, cur.Spans text next ∧ ∃ c ∈ text, isBlank c = false

namespace Cursor.Inked

variable {cur mid next : Cursor}

theorem of_reaches (h : cur.Inked mid) (h' : mid.Reaches next) : cur.Inked next := by
  obtain ⟨text, hs, c, hc, visible⟩ := h
  obtain ⟨more, hs'⟩ := h'
  exact ⟨text ++ more, hs.trans hs', c, List.mem_append_left _ hc, visible⟩

theorem after_reaches (h : cur.Reaches mid) (h' : mid.Inked next) : cur.Inked next := by
  obtain ⟨text, hs⟩ := h
  obtain ⟨more, hs', c, hc, visible⟩ := h'
  exact ⟨text ++ more, hs.trans hs', c, List.mem_append_right _ hc, visible⟩

/-- Trimming leaves something of such a text. -/
theorem trim_ne (h : cur.Inked next) : trim (cur.spanTo next).text ≠ "" := by
  obtain ⟨text, hs, c, hc, visible⟩ := h
  rw [hs.spanTo, trim, String.toList_ofList]
  intro e
  have : Chars.trim text = [] := by simpa using e
  exact absurd (Chars.all_isBlank_of_trim this c hc) (by simp [visible])

end Cursor.Inked

theorem sequence_inked {depth : Nat} {rules : List Rule} (hr : Rule.anyInked rules = true)
    (h : ∀ r ∈ rules, r.isInked = true → ∀ cur next fragment,
      r.outcome table depth cur = some (next, fragment) → cur.Inked next)
    {cur next : Cursor} {fragment : Fragment}
    (hm : (Rule.sequence rules).outcome table depth cur = some (next, fragment)) :
    cur.Inked next := by
  induction rules generalizing cur fragment with
  | nil => cases hr
  | cons r rules ih =>
    obtain ⟨mid, a, b, ha, hb, rfl⟩ := sequence_cons_eq_some.1 hm
    rw [Rule.anyInked, Bool.or_eq_true] at hr
    rcases hr with hr | hr
    · exact (h r List.mem_cons_self hr cur mid a ha).of_reaches (outcome_reaches hb)
    · exact .after_reaches (outcome_reaches ha)
        (ih hr (fun r' h' => h r' (List.mem_cons_of_mem _ h')) hb)

theorem isInked_of_mem {rules : List Rule} (h : Rule.allInked rules = true) {r : Rule}
    (hr : r ∈ rules) : r.isInked = true := by
  induction rules with
  | nil => cases hr
  | cons first rules ih =>
    rw [Rule.allInked, Bool.and_eq_true] at h
    rcases List.mem_cons.1 hr with rfl | hr
    · exact h.1
    · exact ih h.2 hr

theorem inked_of_isInked {depth : Nat} {r : Rule} (hr : r.isInked = true) :
    ∀ cur next fragment, r.outcome table depth cur = some (next, fragment) → cur.Inked next := by
  induction r using Rule.ind with
  | literal text anyCase =>
    intro cur next fragment hm
    obtain ⟨rfl, c, hc, visible⟩ : anyCase = false ∧ ∃ c ∈ text.toList, isBlank c = false := by
      simpa [Rule.isInked] using hr
    rw [outcome_literal] at hm
    obtain ⟨_, hs, e⟩ := Option.map_eq_some_iff.1 hm
    obtain ⟨rfl, -⟩ := Prod.mk.inj e
    obtain ⟨found, hf, hs⟩ := Cursor.skip?_eq_some.1 hs
    obtain rfl : found = text.toList := hf
    exact ⟨_, hs, c, hc, visible⟩
  | chars set =>
    intro cur next fragment hm
    rw [outcome_chars] at hm
    obtain ⟨_, hs, e⟩ := Option.map_eq_some_iff.1 hm
    obtain ⟨rfl, -⟩ := Prod.mk.inj e
    obtain ⟨c, hc, hs⟩ := Cursor.next?_eq_some.1 hs
    exact ⟨[c], hs, c, List.mem_singleton.2 rfl, not_isBlank_of_isInked hr hc⟩
  | sequence rules ih =>
    intro cur next fragment hm
    rw [Rule.isInked] at hr
    exact sequence_inked hr ih hm
  | choice rules ih =>
    intro cur next fragment hm
    obtain ⟨r, hmem, hm⟩ := choice_eq_some hm
    rw [Rule.isInked] at hr
    exact ih r hmem (isInked_of_mem hr hmem) cur next fragment hm
  | repeated r least most ih =>
    intro cur next fragment hm
    obtain ⟨hleast, hr⟩ : 0 < least ∧ r.isInked = true := by simpa [Rule.isInked] using hr
    have hleast : least ≠ 0 := Nat.ne_of_gt hleast
    rw [outcome_repeated] at hm
    cases hs : r.outcome table depth cur with
    | none => simp [hs, hleast] at hm
    | some found =>
      obtain ⟨mid, captured⟩ := found
      have first := ih hr cur mid captured hs
      simp only [hs, hleast, ↓reduceIte] at hm
      split at hm
      · cases hm
      · split at hm
        · rename_i e
          obtain ⟨-, rfl, -⟩ : _ ∧ mid = next ∧ _ := by simpa using hm
          exact first
        · obtain ⟨⟨last, rest⟩, hrest, e⟩ := Option.map_eq_some_iff.1 hm
          obtain ⟨rfl, -⟩ := Prod.mk.inj e
          exact first.of_reaches (outcome_reaches hrest)
  | optional r ih => cases hr
  | notAhead r ih => cases hr
  | capture field r ih =>
    intro cur next fragment hm
    rw [outcome_capture] at hm
    obtain ⟨⟨last, captured⟩, hs, e⟩ := Option.map_eq_some_iff.1 hm
    obtain ⟨rfl, -⟩ := Prod.mk.inj e
    exact ih hr cur last captured hs
  | labelled label r ih =>
    intro cur next fragment hm
    rw [outcome_labelled] at hm
    exact ih hr cur next fragment hm
  | quiet r ih =>
    intro cur next fragment hm
    rw [outcome_quiet] at hm
    exact ih hr cur next fragment hm
  | ref name => cases hr

/-- A capture without fields inside is not blank where its rule never is. -/
theorem Rule.Fills.trim_ne {r : Rule} {node : Node} (h : r.Fills table node)
    (hnone : r.capturesNone = true) (hinked : r.isInked = true) : trim node.text ≠ "" := by
  obtain ⟨depth, cur, next, fragment, hm, rfl⟩ := h
  have visible := inked_of_isInked hinked cur next fragment hm
  rcases eq_empty_of_capturesNone hnone cur next fragment hm with rfl | rfl <;>
    exact visible.trim_ne

end DiagramText.Peg
