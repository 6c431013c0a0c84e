import DiagramText.Proofs.Peg.Outcome

/-!
# Spans of syntax trees

Every span of a syntax tree is the part of the input that stands at its offset (`Token.Within`). What
was captured inside a span lies inside it, one piece behind the other in the order of capture
(`Arranged`), and the trees of a list start at greater and greater offsets. `Tree.Laid` says so of a
tree and of everything in it.

Captures travel as fragments, which are joined, flattened from trees back to fields, and wrapped by the
next capture. `Fragment.Laid` is what all of these steps keep, and so the fragment of every match is
laid out between the ends of the match (`outcome_laid`). A failed parse is reported where it got
furthest, which is a position that it reached (`matchWithin_keeps`).
-/

namespace DiagramText

/-! ## Spans -/

/-- The span is a part of the input: its text stands at its offset. -/
def Token.Within (input : String) (t : Token) : Prop :=
  ∃ before after, input = before ++ t.text ++ after ∧ t.offset = before.utf8ByteSize

/-- A character of the input starts at the offset, or the input ends there. -/
def AtBoundary (input : String) (offset : Nat) : Prop :=
  ∃ before after, input = before ++ after ∧ offset = before.utf8ByteSize

theorem AtBoundary.le {input : String} {offset : Nat} (h : AtBoundary input offset) :
    offset ≤ input.utf8ByteSize := by
  obtain ⟨before, after, rfl, rfl⟩ := h
  rw [String.utf8ByteSize_append]
  exact Nat.le_add_right ..

/-- Spans that stand one behind the other between two offsets. -/
structure Arranged (first last : Nat) (spans : List Token) : Prop where
  le : first ≤ last
  inside : ∀ t ∈ spans, first ≤ t.offset ∧ t.stop ≤ last
  ordered : spans.Pairwise fun a b => a.stop ≤ b.offset

namespace Arranged

variable {first mid last : Nat} {spans more : List Token}

theorem nil (h : first ≤ last) : Arranged first last [] := ⟨h, by simp, .nil⟩

theorem singleton {t : Token} (hfirst : first ≤ t.offset) (hlast : t.stop ≤ last) :
    Arranged first last [t] where
  le := Nat.le_trans hfirst (Nat.le_trans (Nat.le_add_right ..) hlast)
  inside := by simpa using ⟨hfirst, hlast⟩
  ordered := List.pairwise_singleton ..

theorem append (h : Arranged first mid spans) (h' : Arranged mid last more) :
    Arranged first last (spans ++ more) where
  le := Nat.le_trans h.le h'.le
  inside t ht := by
    have := h.le
    have := h'.le
    rcases List.mem_append.1 ht with ht | ht
    · have := h.inside t ht
      omega
    · have := h'.inside t ht
      omega
  ordered := by
    refine List.pairwise_append.2 ⟨h.ordered, h'.ordered, fun a ha b hb => ?_⟩
    exact Nat.le_trans (h.inside a ha).2 (h'.inside b hb).1

/-- In place of each span, spans that are arranged inside it. -/
theorem flatMap {α : Type} {span : α → Token} {inner : α → List Token} {items : List α}
    (h : Arranged first last (items.map span))
    (hinner : ∀ a ∈ items, Arranged (span a).offset (span a).stop (inner a)) :
    Arranged first last (items.flatMap inner) where
  le := h.le
  inside t ht := by
    obtain ⟨a, ha, ht⟩ := List.mem_flatMap.1 ht
    have outer := h.inside _ (List.mem_map.2 ⟨a, ha, rfl⟩)
    have := (hinner a ha).inside t ht
    omega
  ordered := by
    refine List.pairwise_flatMap.2 ⟨fun a ha => (hinner a ha).ordered, ?_⟩
    refine (List.pairwise_map.1 h.ordered).imp_of_mem fun {a b} ha hb apart x hx y hy => ?_
    have := ((hinner a ha).inside x hx).2
    have := ((hinner b hb).inside y hy).1
    omega

end Arranged

/-! ## Trees -/

/-- The spans that a field stands for: one for each tree of a list. -/
def Node.spans : Node → List Token
  | token t => [t]
  | tree t => [t.span]
  | list ts => ts.map Tree.span

/-- The spans that fields stand for, in the order of capture. -/
def spansOf (fields : List (String × Node)) : List Token := fields.flatMap fun field => field.2.spans

mutual

/-- What a field holds is a part of the input, and the trees of a list start one behind the other. -/
inductive Node.Laid (input : String) : Node → Prop
  | token {t : Token} (within : t.Within input) : Node.Laid input (.token t)
  | tree {t : Tree} (laid : Tree.Laid input t) : Node.Laid input (.tree t)
  | list {ts : List Tree} (laid : ∀ t ∈ ts, Tree.Laid input t)
    (increasing : ts.Pairwise fun a b => a.span.offset < b.span.offset) : Node.Laid input (.list ts)

/-- A tree is a part of the input, and its fields stand inside it one behind the other. -/
inductive Tree.Laid (input : String) : Tree → Prop
  | mk {span : Token} {fields : List (String × Node)} (within : span.Within input)
    (arranged : Arranged span.offset span.stop (spansOf fields))
    (laid : ∀ field ∈ fields, Node.Laid input field.2) : Tree.Laid input (.mk span fields)

end

theorem Tree.Laid.arranged {input : String} {t : Tree} (h : t.Laid input) :
    Arranged t.span.offset t.span.stop (spansOf t.fields) := by
  cases h with
  | mk _ arranged _ => exact arranged

theorem Tree.Laid.fields {input : String} {t : Tree} (h : t.Laid input) :
    ∀ field ∈ t.fields, field.2.Laid input := by
  cases h with
  | mk _ _ laid => exact laid

namespace Peg

variable {input : String} {cur mid next : Cursor}

/-! ## Positions -/

theorem Cursor.Reaches.atBoundary (h : (Cursor.start input).Reaches cur) :
    AtBoundary input cur.offset := by
  obtain ⟨before, hspans⟩ := h
  refine ⟨String.ofList before, String.ofList cur.rest, ?_, ?_⟩
  · rw [← String.ofList_append, ← hspans.rest]
    exact String.ofList_toList.symm
  · rw [hspans.offset, Chars.utf8ByteSize_ofList]
    exact Nat.zero_add _

theorem Cursor.Reaches.stop_spanTo (h : cur.Reaches next) : (cur.spanTo next).stop = next.offset := by
  obtain ⟨text, hspans⟩ := h
  rw [hspans.spanTo, Token.stop, Chars.utf8ByteSize_ofList, hspans.offset]

/-- What lies between two positions that were reached is a part of the input. -/
theorem Cursor.Reaches.within (h : (Cursor.start input).Reaches cur) (h' : cur.Reaches next) :
    (cur.spanTo next).Within input := by
  obtain ⟨before, hbefore⟩ := h
  obtain ⟨text, htext⟩ := h'
  refine ⟨String.ofList before, String.ofList next.rest, ?_, ?_⟩
  · rw [htext.spanTo, ← String.ofList_append, ← String.ofList_append, List.append_assoc, ← htext.rest,
      ← hbefore.rest]
    exact String.ofList_toList.symm
  · rw [htext.spanTo, Chars.utf8ByteSize_ofList, hbefore.offset]
    exact Nat.zero_add _

/-! ## Fragments -/

/-- The fields or trees of a fragment are laid out between two positions. -/
def Fragment.Laid (input : String) (cur next : Cursor) : Fragment → Prop
  | fields fs =>
    Arranged cur.offset next.offset (spansOf fs) ∧ ∀ field ∈ fs, field.2.Laid input
  | items ts =>
    Arranged cur.offset next.offset (ts.map Tree.span) ∧ (∀ t ∈ ts, t.Laid input) ∧
      ts.Pairwise fun a b => a.span.offset < b.span.offset

namespace Fragment.Laid

variable {fragment a b : Fragment}

theorem empty (h : cur.Reaches next) : Fragment.empty.Laid input cur next :=
  ⟨.nil h.offset_le, by simp⟩

/-- The fields of the rounds of a repetition are laid out as the rounds are. -/
theorem toFields (h : fragment.Laid input cur next) :
    Arranged cur.offset next.offset (spansOf fragment.toFields) ∧
      ∀ field ∈ fragment.toFields, field.2.Laid input := by
  cases fragment with
  | fields fs => exact h
  | items ts =>
    obtain ⟨arranged, laid, -⟩ := h
    constructor
    · rw [Fragment.toFields, spansOf, List.flatMap_assoc]
      exact arranged.flatMap fun t ht => (laid t ht).arranged
    · intro field hfield
      obtain ⟨t, ht, hfield⟩ := List.mem_flatMap.1 hfield
      exact (laid t ht).fields field hfield

theorem append (ha : a.Laid input cur mid) (hb : b.Laid input mid next) :
    (a.append b).Laid input cur next := by
  obtain ⟨arranged, laid⟩ := ha.toFields
  obtain ⟨arranged', laid'⟩ := hb.toFields
  refine ⟨?_, fun field hfield => ?_⟩
  · rw [spansOf, List.flatMap_append]
    exact arranged.append arranged'
  · exact (List.mem_append.1 hfield).elim (laid field) (laid' field)

variable (hcur : (Cursor.start input).Reaches cur)
include hcur

theorem toTree (hnext : cur.Reaches next) (h : fragment.Laid input cur next) :
    (fragment.toTree (cur.spanTo next)).Laid input := by
  obtain ⟨arranged, laid⟩ := h.toFields
  refine .mk (hcur.within hnext) ?_ laid
  rw [hnext.stop_spanTo]
  exact arranged

theorem toNode (hnext : cur.Reaches next) (h : fragment.Laid input cur next) :
    (fragment.toNode (cur.spanTo next)).Laid input ∧
      Arranged cur.offset next.offset (fragment.toNode (cur.spanTo next)).spans := by
  have span : Arranged cur.offset next.offset [cur.spanTo next] :=
    .singleton (Nat.le_refl _) (Nat.le_of_eq hnext.stop_spanTo)
  cases fragment with
  | fields fs =>
    cases fs with
    | nil => exact ⟨.token (hcur.within hnext), span⟩
    | cons field fs => exact ⟨.tree (h.toTree hcur hnext), span⟩
  | items ts =>
    cases ts with
    | nil => exact ⟨.token (hcur.within hnext), span⟩
    | cons t ts => exact ⟨.list h.2.1 h.2.2, h.1⟩

/-- A capture holds what is laid out inside it. -/
theorem capture (hnext : cur.Reaches next) (field : String) (h : fragment.Laid input cur next) :
    (Fragment.fields [(field, fragment.toNode (cur.spanTo next))]).Laid input cur next := by
  obtain ⟨laid, arranged⟩ := h.toNode hcur hnext
  exact ⟨by simpa [spansOf] using arranged, by simpa using laid⟩

/-- A round that stays where it is can only be the last one. -/
theorem round (hnext : cur.Reaches next) (h : fragment.Laid input cur next) :
    (Fragment.items (fragment.round (cur.spanTo next))).Laid input cur next := by
  unfold Fragment.round
  split
  · exact ⟨.nil hnext.offset_le, by simp, .nil⟩
  · refine ⟨.singleton (Nat.le_refl _) (Nat.le_of_eq hnext.stop_spanTo), ?_, by simp⟩
    simpa using h.toTree hcur hnext

/-- The rounds behind one that moved on start behind it. -/
theorem round_append {trees : List Tree} (hmid : cur.Reaches mid) (hne : mid ≠ cur)
    (h : fragment.Laid input cur mid) (hrest : (Fragment.items trees).Laid input mid next) :
    (Fragment.items (fragment.round (cur.spanTo mid) ++ trees)).Laid input cur next := by
  obtain ⟨arranged, laid, increasing⟩ := h.round hcur hmid
  obtain ⟨arranged', laid', increasing'⟩ := hrest
  refine ⟨?_, fun t ht => (List.mem_append.1 ht).elim (laid t) (laid' t), ?_⟩
  · rw [List.map_append]
    exact arranged.append arranged'
  · refine List.pairwise_append.2 ⟨increasing, increasing', fun a ha b hb => ?_⟩
    have start : a.span.offset = cur.offset := by
      unfold Fragment.round at ha
      split at ha
      · cases ha
      · rw [List.mem_singleton.1 ha]
        rfl
    have behind := (arranged'.inside _ (List.mem_map.2 ⟨b, hb, rfl⟩)).1
    have moved : mid.offset ≠ cur.offset := fun e => hne (hmid.eq_of_offset e)
    have := hmid.offset_le
    omega

end Fragment.Laid

/-! ## Matches -/

/-- A rule lays out what it captures, from every position of an input. -/
def Lays (input : String) (table : List (String × Rule)) (depth : Nat) (r : Rule) : Prop :=
  ∀ cur next fragment, (Cursor.start input).Reaches cur →
    r.outcome table depth cur = some (next, fragment) → fragment.Laid input cur next

section

variable {table : List (String × Rule)} {depth : Nat}

theorem repeated_lays {r : Rule} (h : Lays input table depth r) (least : Nat) (most : Option Nat) :
    Lays input table depth (.repeated r least most) := by
  intro cur next fragment hcur hm
  obtain ⟨trees, rfl, laid⟩ := repeated_ind
    (motive := fun cur next trees =>
      (Cursor.start input).Reaches cur → (Fragment.items trees).Laid input cur next)
    (fun cur _ => ⟨.nil (Nat.le_refl _), by simp, .nil⟩)
    (fun cur fragment hs hcur => (h cur cur fragment hcur hs).round hcur (.refl cur))
    (fun cur mid _ fragment _ hs hne rest hcur =>
      have hmid := outcome_reaches hs
      (h cur mid fragment hcur hs).round_append hcur hmid hne (rest (hcur.trans hmid)))
    hm
  exact laid hcur

theorem sequence_lays {rules : List Rule} (h : ∀ r ∈ rules, Lays input table depth r) :
    Lays input table depth (.sequence rules) := by
  induction rules with
  | nil =>
    intro cur next fragment _ hm
    obtain ⟨rfl, rfl⟩ := sequence_nil_eq_some.1 hm
    exact .empty (.refl cur)
  | cons r rules ih =>
    intro cur next fragment hcur hm
    obtain ⟨mid, a, b, ha, hb, rfl⟩ := sequence_cons_eq_some.1 hm
    have first := h r List.mem_cons_self cur mid a hcur ha
    have rest := ih (fun r' h' => h r' (List.mem_cons_of_mem _ h')) mid next b
      (hcur.trans (outcome_reaches ha)) hb
    exact first.append rest

/-- A rule lays out what it captures if the rules that it refers to do. -/
theorem lays_of_refs (href : ∀ name, Lays input table depth (.ref name)) (r : Rule) :
    Lays input table depth r := by
  induction r using Rule.ind with
  | literal text anyCase =>
    intro cur next fragment _ hm
    have hnext := outcome_reaches hm
    rw [outcome_literal] at hm
    obtain ⟨_, _, e⟩ := Option.map_eq_some_iff.1 hm
    obtain ⟨-, rfl⟩ := Prod.mk.inj e
    exact .empty hnext
  | chars set =>
    intro cur next fragment _ hm
    have hnext := outcome_reaches hm
    rw [outcome_chars] at hm
    obtain ⟨_, _, e⟩ := Option.map_eq_some_iff.1 hm
    obtain ⟨-, rfl⟩ := Prod.mk.inj e
    exact .empty hnext
  | sequence rules ih => exact sequence_lays ih
  | choice rules ih =>
    intro cur next fragment hcur hm
    obtain ⟨r, hmem, hm⟩ := choice_eq_some hm
    exact ih r hmem cur next fragment hcur hm
  | repeated r least most ih => exact repeated_lays ih least most
  | optional r ih =>
    intro cur next fragment hcur hm
    rw [outcome_optional] at hm
    cases hs : r.outcome table depth cur with
    | none =>
      rw [hs] at hm
      obtain ⟨rfl, rfl⟩ := Prod.mk.inj (Option.some.inj hm)
      exact .empty (.refl cur)
    | some found =>
      rw [hs] at hm
      exact ih cur next fragment hcur (hs.trans hm)
  | notAhead r ih =>
    intro cur next fragment _ hm
    rw [outcome_notAhead, Option.ite_none_right_eq_some] at hm
    obtain ⟨rfl, rfl⟩ := Prod.mk.inj (Option.some.inj hm.2)
    exact .empty (.refl cur)
  | capture field r ih =>
    intro cur next fragment hcur hm
    have hnext := outcome_reaches hm
    rw [outcome_capture] at hm
    obtain ⟨⟨last, inner⟩, hs, e⟩ := Option.map_eq_some_iff.1 hm
    obtain ⟨rfl, rfl⟩ := Prod.mk.inj e
    exact (ih cur last inner hcur hs).capture hcur hnext field
  | labelled label r ih =>
    intro cur next fragment hcur hm
    rw [outcome_labelled] at hm
    exact ih cur next fragment hcur hm
  | quiet r ih =>
    intro cur next fragment hcur hm
    rw [outcome_quiet] at hm
    exact ih cur next fragment hcur hm
  | ref name => exact href name

end

/-- The fragment of a match is laid out between its ends. -/
theorem outcome_laid (table : List (String × Rule)) (depth : Nat) (r : Rule) :
    Lays input table depth r := by
  induction depth generalizing r with
  | zero =>
    refine lays_of_refs (fun name cur next fragment _ hm => ?_) r
    rw [outcome_ref_zero] at hm
    cases hm
  | succ depth ih =>
    refine lays_of_refs (fun name cur next fragment hcur hm => ?_) r
    rw [outcome_ref] at hm
    obtain ⟨r', -, hm⟩ := Option.bind_eq_some_iff.1 hm
    exact ih r' cur next fragment hcur hm

/-! ## The frontier -/

/-- The frontier is at a position of the input. -/
def Frontier.Reached (input : String) (f : Frontier) : Prop :=
  ∃ cur, (Cursor.start input).Reaches cur ∧ f.offset = cur.offset

/-- A matcher leaves the frontier at a position of the input. -/
def Keeps (input : String) (m : Matcher) : Prop :=
  ∀ silent cur f, (Cursor.start input).Reaches cur → f.Reached input →
    (m silent cur f).2.Reached input

theorem Frontier.Reached.add {f : Frontier} (h : f.Reached input)
    (hcur : (Cursor.start input).Reaches cur) (description : String) :
    (f.add cur.offset description).Reached input := by
  have offset : (f.add cur.offset description).offset = f.offset ∨
      (f.add cur.offset description).offset = cur.offset := by
    unfold Frontier.add
    split
    · exact .inl rfl
    · split
      · exact .inr rfl
      · split <;> exact .inl rfl
  rcases offset with same | moved
  · obtain ⟨before, hbefore, e⟩ := h
    exact ⟨before, hbefore, same.trans e⟩
  · exact ⟨cur, hcur, moved⟩

theorem miss_keeps (describe : Unit → String) : Keeps input (miss describe) := by
  intro silent cur f hcur hf
  unfold miss
  split
  · exact hf
  · exact hf.add hcur _

section

variable {call : String → Matcher}

theorem rounds_keeps {step : Cursor → Frontier → Outcome × Frontier} {most : Option Nat}
    (hreach : ∀ cur f next fragment, (step cur f).1 = some (next, fragment) → cur.Reaches next)
    (hstep : ∀ cur f, (Cursor.start input).Reaches cur → f.Reached input →
      (step cur f).2.Reached input)
    (clock : List Char) (count : Nat) (cur : Cursor) (trees : List Tree) (f : Frontier)
    (hcur : (Cursor.start input).Reaches cur) (hf : f.Reached input) :
    (rounds step most clock count cur trees f).2.Reached input := by
  fun_induction rounds step most clock count cur trees f with
  | case1 _ count cur trees f _ f' hs => exact (hs ▸ hstep cur f hcur hf :)
  | case2 _ count cur trees f _ next fragment f' hs => exact (hs ▸ hstep cur f hcur hf :)
  | case3 count cur trees f _ next fragment f' hs => exact (hs ▸ hstep cur f hcur hf :)
  | case4 count cur trees f _ next fragment f' hs _ _ _ _ ih =>
    exact ih (hcur.trans (hreach cur f next fragment (by rw [hs]))) (hs ▸ hstep cur f hcur hf :)
  | case5 => exact hf

theorem matchAll_keeps {rules : List Rule} (hreach : ∀ r ∈ rules, Advances (r.matchWith call))
    (h : ∀ r ∈ rules, Keeps input (r.matchWith call)) (silent : Bool) (fragment : Fragment)
    (cur : Cursor) (f : Frontier) (hcur : (Cursor.start input).Reaches cur)
    (hf : f.Reached input) : (Rule.matchAll call rules silent fragment cur f).2.Reached input := by
  induction rules generalizing fragment cur f with
  | nil => exact hf
  | cons r rules ih =>
    have first := h r List.mem_cons_self silent cur f hcur hf
    rw [Rule.matchAll]
    split
    · rename_i f' hr
      exact (hr ▸ first :)
    · rename_i next here f' hr
      have hnext := hreach r List.mem_cons_self silent cur f next here (by rw [hr])
      exact ih (fun r' h' => hreach r' (List.mem_cons_of_mem _ h'))
        (fun r' h' => h r' (List.mem_cons_of_mem _ h')) _ next f' (hcur.trans hnext) (hr ▸ first :)

theorem matchAny_keeps {rules : List Rule} (h : ∀ r ∈ rules, Keeps input (r.matchWith call)) :
    Keeps input (Rule.matchAny call rules) := by
  intro silent cur f hcur hf
  induction rules generalizing f with
  | nil => exact hf
  | cons r rules ih =>
    have first := h r List.mem_cons_self silent cur f hcur hf
    rw [Rule.matchAny]
    split
    · rename_i f' hr
      exact ih (fun r' h' => h r' (List.mem_cons_of_mem _ h')) f' (hr ▸ first :)
    · exact first

/-- A rule leaves the frontier at a position of the input if the rules that it refers to do. -/
theorem matchWith_keeps (hreach : ∀ name, Advances (call name)) (h : ∀ name, Keeps input (call name))
    (r : Rule) : Keeps input (r.matchWith call) := by
  induction r using Rule.ind with
  | literal text anyCase =>
    intro silent cur f hcur hf
    rw [Rule.matchWith]
    split
    · exact hf
    · exact miss_keeps _ silent cur f hcur hf
  | chars set =>
    intro silent cur f hcur hf
    rw [Rule.matchWith]
    split
    · exact hf
    · exact miss_keeps _ silent cur f hcur hf
  | sequence rules ih =>
    intro silent cur f hcur hf
    rw [Rule.matchWith]
    exact matchAll_keeps (fun r _ => matchWith_reaches hreach r) ih silent .empty cur f hcur hf
  | choice rules ih =>
    intro silent cur f hcur hf
    rw [Rule.matchWith]
    exact matchAny_keeps ih silent cur f hcur hf
  | repeated r least most ih =>
    intro silent cur f hcur hf
    have hrounds := @rounds_keeps input _ most (matchWith_reaches hreach r silent) (ih silent)
      cur.rest 0 cur [] f hcur hf
    rw [Rule.matchWith]
    split
    rename_i hs
    exact (hs ▸ hrounds :)
  | optional r ih =>
    intro silent cur f hcur hf
    have inner := ih silent cur f hcur hf
    rw [Rule.matchWith]
    split
    · rename_i hs
      exact (hs ▸ inner :)
    · exact inner
  | notAhead r ih =>
    intro silent cur f hcur hf
    have inner := ih true cur f hcur hf
    rw [Rule.matchWith]
    split
    · rename_i hs
      exact (hs ▸ inner :)
    · rename_i hs
      exact (hs ▸ inner :)
  | capture field r ih =>
    intro silent cur f hcur hf
    have inner := ih silent cur f hcur hf
    rw [Rule.matchWith]
    split
    · rename_i hs
      exact (hs ▸ inner :)
    · rename_i hs
      exact (hs ▸ inner :)
  | labelled label r ih =>
    intro silent cur f hcur hf
    have inner := ih silent cur f hcur hf
    rw [Rule.matchWith]
    split
    · rename_i f' hs
      split
      · exact (hs ▸ inner :)
      · exact hf.add hcur label
    · exact inner
  | quiet r ih =>
    intro silent cur f hcur hf
    rw [Rule.matchWith]
    exact ih true cur f hcur hf
  | ref name =>
    intro silent cur f hcur hf
    rw [Rule.matchWith]
    exact h name silent cur f hcur hf

end

theorem callWithin_keeps (table : List (String × Rule)) (depth : Nat) (name : String) :
    Keeps input (Rule.callWithin table depth name) := by
  induction depth generalizing name with
  | zero =>
    intro silent cur f hcur hf
    exact (miss_keeps (fun _ => "less deeply nested input") silent cur f hcur hf :)
  | succ depth ih =>
    intro silent cur f hcur hf
    cases hl : table.lookup name with
    | some r =>
      simp only [Rule.callWithin, hl]
      exact matchWith_keeps (callWithin_reaches table depth) ih r silent cur f hcur hf
    | none =>
      simp only [Rule.callWithin, hl]
      exact hf

/-- A run leaves the frontier at a position of the input. -/
theorem matchWithin_keeps (table : List (String × Rule)) (depth : Nat) (r : Rule) :
    Keeps input (r.matchWithin table depth) :=
  matchWith_keeps (callWithin_reaches table depth) (callWithin_keeps table depth) r

/-! ## Parses -/

theorem parseWithin_ok_laid {g : Grammar} {depth : Nat} {rule : Rule} {tree : Tree}
    (h : g.parseWithin depth rule input = .ok tree) : tree.span = ⟨input, 0⟩ ∧ tree.Laid input := by
  obtain ⟨next, fragment, hm, hrest, rfl⟩ := parseWithin_eq_ok.1 h
  have hnext := outcome_reaches hm
  have span : (Cursor.start input).spanTo next = ⟨input, 0⟩ := by
    obtain ⟨text, hspans⟩ := hnext
    have all : input.toList = text := by simpa [Cursor.start, hrest] using hspans.rest
    rw [hspans.spanTo, ← all, String.ofList_toList]
    rfl
  have laid := (outcome_laid g.rules depth rule _ _ _ (.refl _) hm).toTree (.refl _) hnext
  rw [span] at laid
  exact ⟨rfl, laid⟩

theorem parseWithin_error_reached {g : Grammar} {depth : Nat} {rule : Rule} {failure : Failure}
    (h : g.parseWithin depth rule input = .error failure) : AtBoundary input failure.offset := by
  have hstart : (Cursor.start input).Reaches (.start input) := .refl _
  have hkeeps := matchWithin_keeps g.rules depth rule false _ {} hstart ⟨_, hstart, rfl⟩
  have hreach := @matchWithin_reaches g.rules depth rule false (.start input) {}
  have reached {f : Frontier} (hf : f.Reached input) : AtBoundary input f.failure.offset := by
    obtain ⟨cur, hcur, e⟩ := hf
    rw [Frontier.failure, e]
    exact hcur.atBoundary
  rw [Grammar.parseWithin] at h
  revert h hkeeps hreach
  rcases rule.matchWithin g.rules depth false (.start input) {} with
    ⟨_ | ⟨⟨consumed, _ | ⟨c, rest⟩⟩, fragment⟩, f⟩
  · rintro ⟨⟩ hkeeps -
    exact reached hkeeps
  · rintro ⟨⟩
  · rintro ⟨⟩ hkeeps hreach
    exact reached (hkeeps.add (hreach _ _ rfl) "end of input")

/-- A parse that succeeds gives a tree over the whole input that is laid out in it, and one that fails
is reported at a position of the input. This holds of every rule that a parse may start with and of
every limit on the nesting. -/
theorem parseWithin_laid (g : Grammar) (depth : Nat) (rule : Rule) (input : String) :
    (∀ tree, g.parseWithin depth rule input = .ok tree →
      tree.span = ⟨input, 0⟩ ∧ tree.Laid input) ∧
    ∀ failure, g.parseWithin depth rule input = .error failure →
      failure.offset ≤ input.utf8ByteSize ∧ AtBoundary input failure.offset :=
  ⟨fun _ h => parseWithin_ok_laid h,
    fun _ h => ⟨(parseWithin_error_reached h).le, parseWithin_error_reached h⟩⟩

end Peg

end DiagramText
