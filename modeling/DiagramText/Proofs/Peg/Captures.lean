import DiagramText.Proofs.Peg.Grammar
import DiagramText.Proofs.Peg.Lexeme
import DiagramText.Proofs.Peg.Outline

/-!
# What holds of every capture

A condition on fields may hold of all fields of a tree, however deep they lie (`Tree.allFields`). It holds of
all fields of the syntax trees of a grammar when each capture of its rules guarantees it
(`allFields_of_parse`): whatever a match leaves was captured by one of them, in a round of a repetition or
behind a reference as well.

A capture guarantees that its text lies within one line when its rule takes no line feed
(`Rule.staysInLine`) and leaves no list of rounds, of which only the first would count as the text
(`isInLine_of_fills`).
-/

namespace DiagramText

/-! ## Conditions on all fields -/

mutual

/-- Whether `p` holds of every field of the trees of the node, and of the trees below them. -/
def Node.allFields (p : String → Node → Bool) : Node → Bool
  | .token _ => true
  | .tree t => t.allFields p
  | .list ts => allTrees p ts

/-- Whether `p` holds of every field of the tree, and of the trees below it. -/
def Tree.allFields (p : String → Node → Bool) : Tree → Bool
  | .mk _ fields => allFieldsOf p fields

/-- Whether `p` holds of every field of the trees, and of the trees below them. -/
def allTrees (p : String → Node → Bool) : List Tree → Bool
  | [] => true
  | t :: ts => t.allFields p && allTrees p ts

/-- Whether `p` holds of every one of the fields, and of those of the trees below them. -/
def allFieldsOf (p : String → Node → Bool) : List (String × Node) → Bool
  | [] => true
  | (field, node) :: fields => p field node && node.allFields p && allFieldsOf p fields

end

section

variable {p q : String → Node → Bool}

theorem allTrees_iff {ts : List Tree} : allTrees p ts = true ↔ ∀ t ∈ ts, t.allFields p = true := by
  induction ts with
  | nil => simp [allTrees]
  | cons t ts ih => simp [allTrees, ih]

theorem allFieldsOf_iff {fields : List (String × Node)} :
    allFieldsOf p fields = true ↔
      ∀ field node, (field, node) ∈ fields → p field node = true ∧ node.allFields p = true := by
  induction fields with
  | nil => simp [allFieldsOf]
  | cons first fields ih =>
    obtain ⟨name, node⟩ := first
    simp only [allFieldsOf, Bool.and_eq_true, ih, List.mem_cons, Prod.mk.injEq]
    constructor
    · rintro ⟨h, hrest⟩ field node' (⟨rfl, rfl⟩ | hmem)
      · exact h
      · exact hrest field node' hmem
    · exact fun h => ⟨h name node (.inl ⟨rfl, rfl⟩), fun field node' hmem => h field node' (.inr hmem)⟩

theorem Tree.allFields_iff {t : Tree} :
    t.allFields p = true ↔
      ∀ field node, (field, node) ∈ t.fields → p field node = true ∧ node.allFields p = true := by
  cases t with
  | mk span fields =>
    rw [Tree.allFields]
    exact allFieldsOf_iff

mutual

theorem Node.allFields_of_both {r : String → Node → Bool}
    (himp : ∀ field node, p field node = true → q field node = true → r field node = true) :
    ∀ {node : Node}, node.allFields p = true → node.allFields q = true → node.allFields r = true
  | .token _, _, _ => rfl
  | .tree _, h, h' => Tree.allFields_of_both himp h h'
  | .list _, h, h' => allTrees_of_both himp h h'

/-- What two conditions on a field imply holds of all fields when both do. -/
theorem Tree.allFields_of_both {r : String → Node → Bool}
    (himp : ∀ field node, p field node = true → q field node = true → r field node = true) :
    ∀ {t : Tree}, t.allFields p = true → t.allFields q = true → t.allFields r = true
  | .mk _ _, h, h' => allFieldsOf_of_both himp h h'

theorem allTrees_of_both {r : String → Node → Bool}
    (himp : ∀ field node, p field node = true → q field node = true → r field node = true) :
    ∀ {ts : List Tree}, allTrees p ts = true → allTrees q ts = true → allTrees r ts = true
  | [], _, _ => rfl
  | t :: ts, h, h' => by
    rw [allTrees, Bool.and_eq_true] at h h' ⊢
    exact ⟨Tree.allFields_of_both himp h.1 h'.1, allTrees_of_both himp h.2 h'.2⟩

theorem allFieldsOf_of_both {r : String → Node → Bool}
    (himp : ∀ field node, p field node = true → q field node = true → r field node = true) :
    ∀ {fields : List (String × Node)}, allFieldsOf p fields = true → allFieldsOf q fields = true →
      allFieldsOf r fields = true
  | [], _, _ => rfl
  | (field, node) :: fields, h, h' => by
    rw [allFieldsOf, Bool.and_eq_true, Bool.and_eq_true] at h h' ⊢
    exact ⟨⟨himp field node h.1.1 h'.1.1, Node.allFields_of_both himp h.1.2 h'.1.2⟩,
      allFieldsOf_of_both himp h.2 h'.2⟩

end

mutual

theorem Node.allFields_of_forall (h : ∀ field node, p field node = true) : ∀ node : Node, node.allFields p = true
  | .token _ => rfl
  | .tree t => Tree.allFields_of_forall h t
  | .list ts => allTrees_of_forall h ts

/-- What holds of every field holds of all fields of a tree. -/
theorem Tree.allFields_of_forall (h : ∀ field node, p field node = true) : ∀ t : Tree, t.allFields p = true
  | .mk _ fields => allFieldsOf_of_forall h fields

theorem allTrees_of_forall (h : ∀ field node, p field node = true) : ∀ ts : List Tree, allTrees p ts = true
  | [] => rfl
  | t :: ts => by rw [allTrees, Tree.allFields_of_forall h t, allTrees_of_forall h ts, Bool.and_self]

theorem allFieldsOf_of_forall (h : ∀ field node, p field node = true) :
    ∀ fields : List (String × Node), allFieldsOf p fields = true
  | [] => rfl
  | (field, node) :: fields => by
    rw [allFieldsOf, h, Node.allFields_of_forall h node, allFieldsOf_of_forall h fields, Bool.and_self,
      Bool.and_self]

end

theorem allFieldsOf_append {fields more : List (String × Node)} :
    allFieldsOf p (fields ++ more) = (allFieldsOf p fields && allFieldsOf p more) := by
  induction fields with
  | nil => rfl
  | cons first fields ih =>
    obtain ⟨name, node⟩ := first
    rw [List.cons_append, allFieldsOf, ih, allFieldsOf, ← Bool.and_assoc]

/-- What holds of all fields holds of a field that is looked up. -/
theorem allFields_get? {t : Tree} {field : String} {node : Node}
    (h : t.allFields p = true) (hnode : t.get? field = some node) :
    p field node = true ∧ node.allFields p = true :=
  Tree.allFields_iff.1 h field node (Peg.mem_of_lookup hnode)

/-- What holds of all fields holds of those of each round in a field. -/
theorem allFields_of_mem_list {t round : Tree} {field : String}
    (h : t.allFields p = true) (hround : round ∈ t.list field) : round.allFields p = true := by
  rw [Tree.list] at hround
  cases hnode : t.get? field with
  | none => simp [hnode] at hround
  | some node =>
    rw [hnode] at hround
    cases node with
    | list ts => exact allTrees_iff.1 (allFields_get? h hnode).2 round hround
    | _ => cases hround

/-- The text of the node does not go over the end of a line. -/
def Node.isInLine (node : Node) : Bool := !node.text.toList.contains '\n'

end

namespace Peg

variable {p : String → Node → Bool}

/-! ## Captures guarantee conditions -/

namespace Rule

mutual

/-- Whether `ok` holds of every capture in the rule, of its field and its rule. -/
def allCaptures (ok : String → Rule → Bool) : Rule → Bool
  | literal _ _ | chars _ | notAhead _ | ref _ => true
  | sequence rules | choice rules => allCapturesOf ok rules
  | repeated r _ _ | optional r | labelled _ r | quiet r => r.allCaptures ok
  | capture field r => ok field r && r.allCaptures ok

/-- Whether `ok` holds of every capture in the rules. -/
def allCapturesOf (ok : String → Rule → Bool) : List Rule → Bool
  | [] => true
  | r :: rules => r.allCaptures ok && allCapturesOf ok rules

end

end Rule

/-- Whether `ok` holds of every capture in the rules of the grammar. -/
def Grammar.allCaptures (ok : String → Rule → Bool) (g : Grammar) : Bool :=
  g.root.allCaptures ok && g.rules.all (·.2.allCaptures ok)

section

variable {ok : String → Rule → Bool} {table : List (String × Rule)} {depth : Nat} {r : Rule}
  {fragment : Fragment}

theorem allCaptures_of_mem {rules : List Rule} (h : Rule.allCapturesOf ok rules = true) (hr : r ∈ rules) :
    r.allCaptures ok = true := by
  induction rules with
  | nil => cases hr
  | cons first rules ih =>
    rw [Rule.allCapturesOf, Bool.and_eq_true] at h
    obtain rfl | hr := List.mem_cons.1 hr
    · exact h.1
    · exact ih h.2 hr

/-- The condition holds of all fields that a match leaves. -/
def Yields (p : String → Node → Bool) (table : List (String × Rule)) (depth : Nat) (r : Rule) : Prop :=
  ∀ cur next fragment, r.outcome table depth cur = some (next, fragment) →
    allFieldsOf p fragment.toFields = true

/-- A capture holds what was captured inside it. -/
theorem allFields_toNode (h : allFieldsOf p fragment.toFields = true) (span : Token) :
    (fragment.toNode span).allFields p = true := by
  rcases fragment with ⟨_ | ⟨field, fields⟩⟩ | ⟨_ | ⟨t, ts⟩⟩
  · rfl
  · exact h
  · rfl
  · refine allTrees_iff.2 fun t' ht' => Tree.allFields_iff.2 fun field node hmem => ?_
    exact allFieldsOf_iff.1 h field node (List.mem_flatMap.2 ⟨t', ht', hmem⟩)

theorem allFieldsOf_round (h : allFieldsOf p fragment.toFields = true) (span : Token) :
    allFieldsOf p (Fragment.items (fragment.round span)).toFields = true := by
  unfold Fragment.round
  split
  · rfl
  · rw [Fragment.toFields, List.flatMap_singleton]
    exact h

theorem repeated_yields (h : Yields p table depth r) (least : Nat) (most : Option Nat) :
    Yields p table depth (.repeated r least most) := by
  intro cur next fragment hm
  obtain ⟨trees, rfl, hall⟩ := @repeated_ind table depth r
    (fun _ _ trees => allFieldsOf p (Fragment.items trees).toFields = true)
    (fun _ => rfl) (fun cur fragment hs => allFieldsOf_round (h cur cur fragment hs) _)
    (fun cur mid _ fragment trees hs _ rest => by
      rw [Fragment.toFields, List.flatMap_append, allFieldsOf_append, Bool.and_eq_true]
      exact ⟨allFieldsOf_round (h cur mid fragment hs) _, rest⟩)
    _ _ _ _ _ hm
  exact hall

theorem sequence_yields {rules : List Rule} (h : ∀ r ∈ rules, Yields p table depth r) :
    Yields p table depth (.sequence rules) := by
  induction rules with
  | nil =>
    intro cur next fragment hm
    obtain ⟨-, rfl⟩ := sequence_nil_eq_some.1 hm
    rfl
  | cons r rules ih =>
    intro cur next fragment hm
    obtain ⟨mid, a, b, ha, hb, rfl⟩ := sequence_cons_eq_some.1 hm
    have hfirst := h r List.mem_cons_self cur mid a ha
    have hrest := ih (fun r' h' => h r' (List.mem_cons_of_mem _ h')) mid next b hb
    rw [Fragment.append, Fragment.toFields, allFieldsOf_append, hfirst, hrest]
    rfl

/-- What every capture guarantees holds of all that a match leaves, if it holds behind references. -/
theorem yields_of_refs (hok : ∀ field r node, ok field r = true → r.Fills table node → p field node = true)
    (hrefs : ∀ name, Yields p table depth (.ref name)) (r : Rule) (h : r.allCaptures ok = true) :
    Yields p table depth r := by
  induction r using Rule.ind with
  | literal text anyCase =>
    intro cur next fragment hm
    rw [toFields_of_capturesNone rfl cur next fragment hm]
    rfl
  | chars set =>
    intro cur next fragment hm
    rw [toFields_of_capturesNone rfl cur next fragment hm]
    rfl
  | sequence rules ih => exact sequence_yields fun r hr => ih r hr (allCaptures_of_mem h hr)
  | choice rules ih =>
    intro cur next fragment hm
    obtain ⟨r, hr, hm⟩ := choice_eq_some hm
    exact ih r hr (allCaptures_of_mem h hr) cur next fragment hm
  | repeated r least most ih => exact repeated_yields (ih h) least most
  | optional r ih =>
    intro cur next fragment hm
    rw [outcome_optional] at hm
    cases hs : r.outcome table depth cur with
    | none =>
      rw [hs] at hm
      obtain ⟨-, rfl⟩ := Prod.mk.inj (Option.some.inj hm)
      rfl
    | some found =>
      rw [hs] at hm
      exact ih h cur next fragment (hs.trans hm)
  | notAhead r ih =>
    intro cur next fragment hm
    rw [outcome_notAhead, Option.ite_none_right_eq_some] at hm
    obtain ⟨-, rfl⟩ := Prod.mk.inj (Option.some.inj hm.2)
    rfl
  | capture field r ih =>
    intro cur next fragment hm
    rw [Rule.allCaptures, Bool.and_eq_true] at h
    rw [outcome_capture, Option.map_eq_some_iff] at hm
    obtain ⟨⟨last, captured⟩, hs, e⟩ := hm
    obtain ⟨rfl, rfl⟩ := Prod.mk.inj e
    have hnode := hok field r _ h.1 ⟨depth, cur, last, captured, hs, rfl⟩
    have hinside := allFields_toNode (ih h.2 cur last captured hs) (cur.spanTo last)
    simp only [Fragment.toFields, allFieldsOf, hnode, hinside, Bool.and_self]
  | labelled label r ih =>
    intro cur next fragment hm
    rw [outcome_labelled] at hm
    exact ih h cur next fragment hm
  | quiet r ih =>
    intro cur next fragment hm
    rw [outcome_quiet] at hm
    exact ih h cur next fragment hm
  | ref name => exact hrefs name

theorem yields_of_allCaptures
    (hok : ∀ field r node, ok field r = true → r.Fills table node → p field node = true)
    (htable : ∀ entry ∈ table, entry.2.allCaptures ok = true) (depth : Nat) (r : Rule)
    (h : r.allCaptures ok = true) : Yields p table depth r := by
  induction depth generalizing r with
  | zero =>
    refine yields_of_refs hok (fun name cur next fragment hm => ?_) r h
    rw [outcome_ref_zero] at hm
    cases hm
  | succ depth below =>
    refine yields_of_refs hok (fun name cur next fragment hm => ?_) r h
    rw [outcome_ref, Option.bind_eq_some_iff] at hm
    obtain ⟨r', hr', hm⟩ := hm
    exact below r' (htable (name, r') (mem_of_lookup hr')) cur next fragment hm

/-- What each capture of a grammar guarantees holds of all fields of its syntax trees. -/
theorem allFields_of_parse {g : Grammar} (h : g.allCaptures ok = true)
    (hok : ∀ field r node, ok field r = true → r.Fills g.rules node → p field node = true)
    {depth : Nat} {input : String} {tree : Tree} (hparse : g.parse depth input = .ok tree) :
    tree.allFields p = true := by
  rw [Grammar.allCaptures, Bool.and_eq_true, List.all_eq_true] at h
  obtain ⟨next, fragment, hm, -, rfl⟩ := parse_eq_ok.1 hparse
  exact yields_of_allCaptures hok h.2 _ _ h.1 _ _ _ hm

end

/-! ## Captures within a line -/

namespace Rule

mutual

/-- Whether the rule does not take the character `c`, wherever it matches. -/
def avoids (c : Char) : Rule → Bool
  | literal text _ => !text.toList.contains c
  | chars set => !set.contains c
  | sequence rules | choice rules => allAvoid c rules
  | repeated r _ _ | optional r | capture _ r | labelled _ r | quiet r => r.avoids c
  | notAhead _ => true
  | ref _ => false

/-- Whether none of the rules takes the character `c`. -/
def allAvoid (c : Char) : List Rule → Bool
  | [] => true
  | r :: rules => r.avoids c && allAvoid c rules

end

mutual

/-- Whether the rule takes no line feed, wherever it matches. -/
def staysInLine : Rule → Bool
  | literal text _ => !text.toList.contains '\n'
  | chars set => !set.contains '\n'
  | sequence rules | choice rules => allStayInLine rules
  | repeated r _ _ | optional r | capture _ r | labelled _ r | quiet r => r.staysInLine
  | notAhead _ => true
  | ref _ => false

/-- Whether none of the rules takes a line feed. -/
def allStayInLine : List Rule → Bool
  | [] => true
  | r :: rules => r.staysInLine && allStayInLine rules

end

mutual

theorem staysInLine_eq : ∀ r : Rule, r.staysInLine = r.avoids '\n'
  | literal _ _ | chars _ | notAhead _ | ref _ => rfl
  | sequence rules | choice rules => allStayInLine_eq rules
  | repeated r _ _ | optional r | capture _ r | labelled _ r | quiet r => staysInLine_eq r

theorem allStayInLine_eq : ∀ rules : List Rule, allStayInLine rules = allAvoid '\n' rules
  | [] => rfl
  | r :: rules => by rw [allStayInLine, allAvoid, staysInLine_eq r, allStayInLine_eq rules]

end

/-- Whether what the rule captures is a token or a tree whose text lies within one line. -/
def fillsInLine (r : Rule) : Bool := r.staysInLine && (r.isPlain || r.capturesNone)

end Rule

/-- No character `c` stands between two positions. -/
def Cursor.Without (c : Char) (cur next : Cursor) : Prop := ∃ text, cur.Spans text next ∧ c ∉ text

namespace Cursor.Without

variable {c : Char} {cur mid next : Cursor}

theorem refl (cur : Cursor) : Without c cur cur := ⟨[], .refl cur, List.not_mem_nil⟩

theorem trans (h : Without c cur mid) (h' : Without c mid next) : Without c cur next := by
  obtain ⟨text, hs, htext⟩ := h
  obtain ⟨more, hs', hmore⟩ := h'
  exact ⟨text ++ more, hs.trans hs', fun hmem => (List.mem_append.1 hmem).elim htext hmore⟩

end Cursor.Without

/-- No line feed stands between two positions. -/
def Cursor.InLine (cur next : Cursor) : Prop := ∃ text, cur.Spans text next ∧ '\n' ∉ text

section

variable {table : List (String × Rule)} {depth : Nat} {r : Rule} {c : Char}

theorem avoids_of_mem {rules : List Rule} (h : Rule.allAvoid c rules = true) (hr : r ∈ rules) :
    r.avoids c = true := by
  induction rules with
  | nil => cases hr
  | cons first rules ih =>
    rw [Rule.allAvoid, Bool.and_eq_true] at h
    obtain rfl | hr := List.mem_cons.1 hr
    · exact h.1
    · exact ih h.2 hr

theorem sequence_without {rules : List Rule}
    (h : ∀ r ∈ rules, ∀ cur next fragment, r.outcome table depth cur = some (next, fragment) →
      cur.Without c next)
    {cur next : Cursor} {fragment : Fragment}
    (hm : (Rule.sequence rules).outcome table depth cur = some (next, fragment)) : cur.Without c next := by
  induction rules generalizing cur fragment with
  | nil =>
    obtain ⟨rfl, -⟩ := sequence_nil_eq_some.1 hm
    exact .refl cur
  | cons r rules ih =>
    obtain ⟨mid, a, b, ha, hb, rfl⟩ := sequence_cons_eq_some.1 hm
    exact (h r List.mem_cons_self cur mid a ha).trans
      (ih (fun r' h' => h r' (List.mem_cons_of_mem _ h')) hb)

/-- What a rule avoids stands nowhere in what it takes, if the case of letters does not matter for it. -/
theorem without_of_avoids (hc : c.isLower = false) (hlower : c.toLower = c) (h : r.avoids c = true) :
    ∀ cur next fragment, r.outcome table depth cur = some (next, fragment) → cur.Without c next := by
  induction r using Rule.ind with
  | literal text anyCase =>
    intro cur next fragment hm
    rw [outcome_literal] at hm
    obtain ⟨_, hs, e⟩ := Option.map_eq_some_iff.1 hm
    obtain ⟨rfl, -⟩ := Prod.mk.inj e
    obtain ⟨found, hfound, hs⟩ := Cursor.skip?_eq_some.1 hs
    exact ⟨found, hs, hfound.not_mem hc hlower (by simpa [Rule.avoids] using h)⟩
  | chars set =>
    intro cur next fragment hm
    rw [outcome_chars] at hm
    obtain ⟨_, hs, e⟩ := Option.map_eq_some_iff.1 hm
    obtain ⟨rfl, -⟩ := Prod.mk.inj e
    obtain ⟨d, hd, hs⟩ := Cursor.next?_eq_some.1 hs
    refine ⟨[d], hs, fun hmem => ?_⟩
    rw [← List.mem_singleton.1 hmem] at hd
    simp [Rule.avoids, hd] at h
  | sequence rules ih =>
    intro cur next fragment hm
    exact sequence_without (fun r hr => ih r hr (avoids_of_mem h hr)) hm
  | choice rules ih =>
    intro cur next fragment hm
    obtain ⟨r, hr, hm⟩ := choice_eq_some hm
    exact ih r hr (avoids_of_mem h hr) cur next fragment hm
  | repeated r least most ih =>
    intro cur next fragment hm
    exact @repeated_invariant table depth r (cur.Without c)
      (fun mid next fragment hmid hs => hmid.trans (ih h mid next fragment hs)) _ _ _ _ _ (.refl cur) hm
  | optional r ih =>
    intro cur next fragment hm
    rw [outcome_optional] at hm
    cases hs : r.outcome table depth cur with
    | none =>
      rw [hs] at hm
      obtain ⟨rfl, -⟩ := Prod.mk.inj (Option.some.inj hm)
      exact .refl cur
    | some found =>
      rw [hs] at hm
      exact ih h cur next fragment (hs.trans hm)
  | notAhead r ih =>
    intro cur next fragment hm
    rw [outcome_notAhead, Option.ite_none_right_eq_some] at hm
    obtain ⟨rfl, -⟩ := Prod.mk.inj (Option.some.inj hm.2)
    exact .refl cur
  | capture field r ih =>
    intro cur next fragment hm
    rw [outcome_capture, Option.map_eq_some_iff] at hm
    obtain ⟨⟨last, captured⟩, hs, e⟩ := hm
    obtain ⟨rfl, -⟩ := Prod.mk.inj e
    exact ih h cur last captured hs
  | labelled label r ih =>
    intro cur next fragment hm
    rw [outcome_labelled] at hm
    exact ih h cur next fragment hm
  | quiet r ih =>
    intro cur next fragment hm
    rw [outcome_quiet] at hm
    exact ih h cur next fragment hm
  | ref name => cases h

theorem inLine_of_staysInLine (h : r.staysInLine = true) :
    ∀ cur next fragment, r.outcome table depth cur = some (next, fragment) → cur.InLine next :=
  without_of_avoids rfl rfl (r.staysInLine_eq ▸ h)

/-- A match without rounds is captured with all of its text. -/
theorem text_toNode {cur next : Cursor} {fragment : Fragment} (h : (r.isPlain || r.capturesNone) = true)
    (hm : r.outcome table depth cur = some (next, fragment)) (span : Token) :
    (fragment.toNode span).text = span.text := by
  rw [Bool.or_eq_true] at h
  rcases h with h | h
  · rw [eq_fields_of_isPlain h hm]
    cases fragment.toFields <;> rfl
  · rcases eq_empty_of_capturesNone h cur next fragment hm with rfl | rfl <;> rfl

/-- A run of characters holds none that stops it. -/
theorem not_mem_of_fills {set : CharClass} {node : Node} {c : Char} (hc : set.contains c = false)
    (h : (Rule.quiet (many (.chars set))).Fills table node) : c ∉ node.text.toList := by
  obtain ⟨depth, cur, next, fragment, hm, rfl⟩ := h
  rw [text_toNode rfl hm]
  rw [outcome_quiet, outcome_many_chars] at hm
  obtain ⟨rfl, rfl⟩ := Prod.mk.inj (Option.some.inj hm)
  rw [(cur.spans_past _).spanTo, String.toList_ofList]
  intro mem
  have taken := List.all_eq_true.1 List.all_takeWhile c mem
  rw [hc] at taken
  cases taken

theorem isInLine_of_fills {node : Node} (hr : r.fillsInLine = true) (h : r.Fills table node) :
    node.isInLine = true := by
  rw [Rule.fillsInLine, Bool.and_eq_true] at hr
  obtain ⟨depth, cur, next, fragment, hm, rfl⟩ := h
  obtain ⟨text, hs, htext⟩ := inLine_of_staysInLine hr.1 cur next fragment hm
  rw [Node.isInLine, text_toNode hr.2 hm, hs.spanTo, String.toList_ofList]
  simpa using htext

end

end Peg

end DiagramText
