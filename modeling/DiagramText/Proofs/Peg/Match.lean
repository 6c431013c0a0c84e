import DiagramText.Peg.Match

/-!
# How a match moves

A match moves a cursor forward over some text (`Cursor.Spans`, `Cursor.Reaches`); a cursor that was
reached is determined by its offset. What a literal and a character class move over is said by
`skip?_eq_some` and `next?_eq_some`, and when they fail by `skip?_eq_none` and `next?_eq_none`.

`Rule.ind` is the induction on rules in which the rules of a sequence or a choice are members of a
list. With it `matchWith_reaches` says that every match moves forward, and `matchWith_repeated`
unrolls a repetition by one round. The clock of `rounds` has no part in what it gives
(`rounds_clock`), because a round which consumes something leaves fewer characters.
-/

namespace DiagramText

namespace Chars

theorem utf8Size_toLower (c : Char) : c.toLower.utf8Size = c.utf8Size := by
  unfold Char.toLower Char.utf8Size
  grind

/-- Only a capital letter has a lower case of its own. -/
theorem eq_of_toLower {c d : Char} (hd : d.isLower = false) (h : c.toLower = d) : c = d := by
  unfold Char.toLower at h
  split at h
  · rename_i hc
    rw [← h] at hd
    unfold Char.isLower at hd
    have hfirst : ('A'.val).toNat = 65 ∧ ('a'.val).toNat = 97 := ⟨rfl, rfl⟩
    have hlast : ('Z'.val).toNat = 90 ∧ ('z'.val).toNat = 122 := ⟨rfl, rfl⟩
    have hshift : ('a'.val - 'A'.val).toNat = 32 := rfl
    simp only [Bool.and_eq_false_iff, decide_eq_false_iff_not, ge_iff_le, UInt32.le_iff_toNat_le,
      UInt32.toNat_add] at hc hd
    omega
  · exact h

theorem byteSize_map_toLower (cs : List Char) : byteSize (cs.map Char.toLower) = byteSize cs := by
  induction cs with
  | nil => rfl
  | cons c cs ih => rw [List.map_cons, byteSize_cons, byteSize_cons, utf8Size_toLower, ih]

theorem utf8ByteSize_ofList (cs : List Char) : (String.ofList cs).utf8ByteSize = byteSize cs := by
  induction cs with
  | nil => rfl
  | cons c cs ih =>
    rw [String.ofList_cons, String.utf8ByteSize_append, String.utf8ByteSize_singleton, ih,
      byteSize_cons]

theorem byteSize_toList (s : String) : byteSize s.toList = s.utf8ByteSize := by
  rw [← utf8ByteSize_ofList, String.ofList_toList]

/-- Only the empty text takes no bytes. -/
theorem byteSize_eq_zero {cs : List Char} : byteSize cs = 0 ↔ cs = [] := by
  cases cs with
  | nil => simp
  | cons c cs =>
    have := Char.utf8Size_pos c
    simp only [byteSize_cons, reduceCtorEq, iff_false]
    omega

theorem dropStart?_eq_some {start cs rest : List Char} :
    dropStart? start cs = some rest ↔ cs = start ++ rest := by
  induction start generalizing cs with
  | nil => simp [dropStart?]
  | cons a start ih =>
    cases cs with
    | nil => simp [dropStart?]
    | cons c cs =>
      simp only [dropStart?, List.cons_append, List.cons.injEq]
      split
      · rename_i h
        rw [ih]
        exact ⟨fun e => ⟨h.symm, e⟩, fun e => e.2⟩
      · rename_i h
        exact ⟨nofun, fun e => absurd e.1.symm h⟩

theorem dropStartAnyCase?_eq_some {start cs rest : List Char} :
    dropStartAnyCase? start cs = some rest ↔
      ∃ found, found.map Char.toLower = start.map Char.toLower ∧ cs = found ++ rest := by
  induction start generalizing cs with
  | nil => simp [dropStartAnyCase?]
  | cons a start ih =>
    cases cs with
    | nil =>
      refine ⟨nofun, ?_⟩
      rintro ⟨found, hf, e⟩
      obtain ⟨rfl, -⟩ := List.nil_eq_append_iff.1 e
      simp at hf
    | cons c cs =>
      simp only [dropStartAnyCase?]
      split
      · rename_i h
        rw [ih]
        constructor
        · rintro ⟨found, hf, rfl⟩
          exact ⟨c :: found, by simp [h, hf], rfl⟩
        · rintro ⟨found, hf, e⟩
          cases found with
          | nil => simp at hf
          | cons b found =>
            simp only [List.map_cons, List.cons.injEq, List.cons_append] at hf e
            exact ⟨found, hf.2, e.2⟩
      · rename_i h
        refine ⟨nofun, ?_⟩
        rintro ⟨found, hf, e⟩
        cases found with
        | nil => simp at hf
        | cons b found =>
          simp only [List.map_cons, List.cons.injEq, List.cons_append] at hf e
          exact absurd (e.1 ▸ hf.1).symm h

end Chars

namespace Peg

/-- `found` is an occurrence of `text`, the case of ASCII letters aside if `anyCase` holds. -/
def Spells (text : String) (anyCase : Bool) (found : List Char) : Prop :=
  if anyCase then found.map Char.toLower = text.toList.map Char.toLower else found = text.toList

instance (text : String) (anyCase : Bool) (found : List Char) :
    Decidable (Spells text anyCase found) :=
  inferInstanceAs (Decidable (if anyCase then _ else _))

theorem Spells.map_toLower {text : String} {anyCase : Bool} {found : List Char}
    (h : Spells text anyCase found) : found.map Char.toLower = text.toList.map Char.toLower := by
  cases anyCase with
  | true => exact h
  | false => rw [(h : found = text.toList)]

/-- A text without a character that is no letter has none where it is found, whatever the case of its letters. -/
theorem Spells.not_mem {text : String} {anyCase : Bool} {found : List Char} (h : Spells text anyCase found) {c : Char}
    (hc : c.isLower = false) (hlower : c.toLower = c) (htext : c ∉ text.toList) : c ∉ found := by
  intro hfound
  have hmem : c ∈ text.toList.map Char.toLower :=
    h.map_toLower ▸ hlower ▸ List.mem_map_of_mem (f := Char.toLower) hfound
  obtain ⟨d, hd, e⟩ := List.mem_map.1 hmem
  exact htext (Chars.eq_of_toLower hc e ▸ hd)

theorem Spells.byteSize {text : String} {anyCase : Bool} {found : List Char}
    (h : Spells text anyCase found) : Chars.byteSize found = text.utf8ByteSize := by
  rw [← Chars.byteSize_map_toLower, h.map_toLower, Chars.byteSize_map_toLower,
    Chars.byteSize_toList]

/-- Two occurrences at the same place are the same. -/
theorem Spells.unique {text : String} {anyCase : Bool} {found found' rest rest' : List Char}
    (h : Spells text anyCase found) (h' : Spells text anyCase found')
    (e : found ++ rest = found' ++ rest') : found = found' ∧ rest = rest' := by
  have len : found.length = found'.length := by
    simpa using congrArg List.length (h.map_toLower.trans h'.map_toLower.symm)
  exact List.append_inj e len

namespace Cursor

/-- `next` lies behind `text`, which stands at `cur`. -/
structure Spans (cur : Cursor) (text : List Char) (next : Cursor) : Prop where
  rest : cur.rest = text ++ next.rest
  offset : next.offset = cur.offset + Chars.byteSize text

/-- `next` is `cur` or lies behind it in the same text. -/
def Reaches (cur next : Cursor) : Prop := ∃ text, cur.Spans text next

theorem Spans.reaches {cur next : Cursor} {text : List Char} (h : cur.Spans text next) :
    cur.Reaches next :=
  ⟨text, h⟩

theorem Spans.refl (cur : Cursor) : cur.Spans [] cur := ⟨rfl, rfl⟩

theorem Spans.trans {cur mid next : Cursor} {text more : List Char} (h : cur.Spans text mid)
    (h' : mid.Spans more next) : cur.Spans (text ++ more) next :=
  ⟨by rw [h.rest, h'.rest, List.append_assoc],
    by rw [h'.offset, h.offset, Chars.byteSize_append, Nat.add_assoc]⟩

theorem Spans.unique {cur next next' : Cursor} {text : List Char} (h : cur.Spans text next)
    (h' : cur.Spans text next') : next' = next := by
  have hrest := List.append_cancel_left (h.rest ▸ h'.rest)
  have hoffset := h.offset.trans h'.offset.symm
  cases next; cases next'
  simp_all

/-- The span between two positions is the text between them. -/
theorem Spans.spanTo {cur next : Cursor} {text : List Char} (h : cur.Spans text next) :
    cur.spanTo next = ⟨String.ofList text, cur.offset⟩ := by
  rw [Cursor.spanTo, h.offset, h.rest, Nat.add_sub_cancel_left, Chars.takeBytes_append]

theorem Reaches.refl (cur : Cursor) : cur.Reaches cur := ⟨[], Spans.refl cur⟩

theorem Reaches.trans {cur mid next : Cursor} (h : cur.Reaches mid) (h' : mid.Reaches next) :
    cur.Reaches next := by
  obtain ⟨text, h⟩ := h
  obtain ⟨more, h'⟩ := h'
  exact ⟨text ++ more, h.trans h'⟩

theorem Reaches.offset_le {cur next : Cursor} (h : cur.Reaches next) : cur.offset ≤ next.offset := by
  obtain ⟨text, h⟩ := h
  have := h.offset
  omega

/-- A position that was reached is known by its offset. -/
theorem Reaches.eq_of_offset {cur next : Cursor} (h : cur.Reaches next)
    (e : next.offset = cur.offset) : next = cur := by
  obtain ⟨text, h⟩ := h
  have hsize := h.offset
  have : text = [] := Chars.byteSize_eq_zero.1 (by omega)
  subst this
  have hrest := h.rest
  cases cur; cases next
  simp_all

theorem Reaches.offset_eq_iff {cur next : Cursor} (h : cur.Reaches next) :
    next.offset = cur.offset ↔ next = cur :=
  ⟨h.eq_of_offset, fun e => e ▸ rfl⟩

/-- Whatever moves on leaves fewer characters. -/
theorem Reaches.length_lt {cur next : Cursor} (h : cur.Reaches next) (hne : next ≠ cur) :
    next.rest.length < cur.rest.length := by
  obtain ⟨text, hs⟩ := h
  have htext : text ≠ [] := by
    rintro rfl
    exact hne (Reaches.eq_of_offset ⟨[], hs⟩ (by simpa using hs.offset))
  have hpos := List.length_pos_iff.2 htext
  have := congrArg List.length hs.rest
  rw [List.length_append] at this
  omega

theorem Reaches.length_le {cur next : Cursor} (h : cur.Reaches next) : next.rest.length ≤ cur.rest.length := by
  obtain ⟨text, hs⟩ := h
  rw [hs.rest, List.length_append]
  exact Nat.le_add_left _ _

theorem skip?_eq_some {cur next : Cursor} {text : String} {anyCase : Bool} :
    cur.skip? text anyCase = some next ↔
      ∃ found, Spells text anyCase found ∧ cur.Spans found next := by
  have key : cur.skip? text anyCase = some next ↔
      ∃ found, Spells text anyCase found ∧ cur.rest = found ++ next.rest ∧
        next.offset = cur.offset + text.utf8ByteSize := by
    obtain ⟨offset, rest⟩ := next
    cases anyCase with
    | false =>
      simp only [skip?, Bool.false_eq_true, ↓reduceIte, Option.map_eq_some_iff,
        Chars.dropStart?_eq_some, mk.injEq, Spells, exists_eq_left]
      constructor
      · rintro ⟨_, e, ho, rfl⟩
        exact ⟨e, ho.symm⟩
      · rintro ⟨e, ho⟩
        exact ⟨rest, e, ho.symm, rfl⟩
    | true =>
      simp only [skip?, ↓reduceIte, Option.map_eq_some_iff, Chars.dropStartAnyCase?_eq_some, mk.injEq,
        Spells]
      constructor
      · rintro ⟨_, ⟨found, hf, e⟩, ho, rfl⟩
        exact ⟨found, hf, e, ho.symm⟩
      · rintro ⟨found, hf, e, ho⟩
        exact ⟨rest, ⟨found, hf, e⟩, ho.symm, rfl⟩
  rw [key]
  constructor
  · rintro ⟨found, hf, hr, ho⟩
    exact ⟨found, hf, hr, by rw [ho, hf.byteSize]⟩
  · rintro ⟨found, hf, hs⟩
    exact ⟨found, hf, hs.rest, by rw [hs.offset, hf.byteSize]⟩

theorem skip?_eq_none {cur : Cursor} {text : String} {anyCase : Bool} :
    cur.skip? text anyCase = none ↔
      ∀ found rest, Spells text anyCase found → cur.rest ≠ found ++ rest := by
  rw [Option.eq_none_iff_forall_ne_some]
  constructor
  · intro h found rest hf e
    exact h ⟨cur.offset + Chars.byteSize found, rest⟩ (skip?_eq_some.2 ⟨found, hf, e, rfl⟩)
  · intro h next e
    obtain ⟨found, hf, hs⟩ := skip?_eq_some.1 e
    exact h found next.rest hf hs.rest

theorem next?_eq_some {cur next : Cursor} {set : CharClass} :
    cur.next? set = some next ↔ ∃ c, set.contains c = true ∧ cur.Spans [c] next := by
  obtain ⟨offset, rest⟩ := cur
  obtain ⟨offset', rest'⟩ := next
  cases rest with
  | nil =>
    refine ⟨nofun, ?_⟩
    rintro ⟨c, -, hs⟩
    exact absurd hs.rest (by simp)
  | cons c rest =>
    simp only [next?, Option.ite_none_right_eq_some, Option.some.injEq, mk.injEq]
    constructor
    · rintro ⟨hc, rfl, rfl⟩
      exact ⟨c, hc, rfl, rfl⟩
    · rintro ⟨c', hc, hs⟩
      obtain ⟨rfl, rfl⟩ : c = c' ∧ rest = rest' := by simpa using hs.rest
      exact ⟨hc, hs.offset.symm, rfl⟩

theorem next?_eq_none {cur : Cursor} {set : CharClass} :
    cur.next? set = none ↔ ∀ c rest, cur.rest = c :: rest → set.contains c = false := by
  obtain ⟨offset, rest⟩ := cur
  cases rest with
  | nil => simp [next?]
  | cons c rest => simp [next?]

end Cursor

/-! ## Induction on rules -/

/-- The induction on rules in which the hypothesis for a sequence or a choice is that for each of its
members. -/
@[elab_as_elim]
theorem Rule.ind {motive : Rule → Prop}
    (literal : ∀ text anyCase, motive (.literal text anyCase))
    (chars : ∀ set, motive (.chars set))
    (sequence : ∀ rules, (∀ r ∈ rules, motive r) → motive (.sequence rules))
    (choice : ∀ rules, (∀ r ∈ rules, motive r) → motive (.choice rules))
    (repeated : ∀ r least most, motive r → motive (.repeated r least most))
    (optional : ∀ r, motive r → motive (.optional r))
    (notAhead : ∀ r, motive r → motive (.notAhead r))
    (capture : ∀ field r, motive r → motive (.capture field r))
    (labelled : ∀ label r, motive r → motive (.labelled label r))
    (quiet : ∀ r, motive r → motive (.quiet r))
    (ref : ∀ name, motive (.ref name)) (r : Rule) : motive r :=
  @Rule.rec motive (fun rules => ∀ r ∈ rules, motive r) literal chars sequence choice
    (fun r least most => repeated r least most) optional notAhead capture labelled quiet ref
    (fun _ h => nomatch h) (fun _ _ hr hrs _ h => by
      rcases List.mem_cons.1 h with rfl | h
      · exact hr
      · exact hrs _ h) r

/-! ## Matches move forward -/

/-- Every match moves forward. -/
def Advances (m : Matcher) : Prop :=
  ∀ silent cur f next fragment, (m silent cur f).1 = some (next, fragment) → cur.Reaches next

variable {call : String → Matcher}

theorem rounds_reaches {step : Cursor → Frontier → Outcome × Frontier} {most : Option Nat}
    (hstep : ∀ cur f next fragment, (step cur f).1 = some (next, fragment) → cur.Reaches next)
    (clock : List Char) (count : Nat) (cur : Cursor) (trees : List Tree) (f : Frontier) :
    cur.Reaches (rounds step most clock count cur trees f).1.2.1 := by
  fun_induction rounds step most clock count cur trees f with
  | case1 => exact .refl _
  | case2 _ count cur trees f _ next fragment f' hs =>
    exact hstep cur f next fragment (by rw [hs])
  | case3 count cur trees f _ next fragment f' hs =>
    exact hstep cur f next fragment (by rw [hs])
  | case4 count cur trees f _ next fragment f' hs _ _ _ _ ih =>
    exact (hstep cur f next fragment (by rw [hs])).trans ih
  | case5 => exact .refl _

theorem matchAll_reaches {rules : List Rule} (h : ∀ r ∈ rules, Advances (r.matchWith call))
    (silent : Bool) (fragment : Fragment) (cur : Cursor) (f : Frontier) (next : Cursor)
    (captured : Fragment)
    (hm : (Rule.matchAll call rules silent fragment cur f).1 = some (next, captured)) :
    cur.Reaches next := by
  induction rules generalizing fragment cur f with
  | nil =>
    simp only [Rule.matchAll, Option.some.injEq, Prod.mk.injEq] at hm
    exact hm.1 ▸ .refl _
  | cons r rules ih =>
    rw [Rule.matchAll] at hm
    split at hm
    · cases hm
    · rename_i mid here f' hr
      exact (h r List.mem_cons_self silent cur f mid here (by rw [hr])).trans
        (ih (fun r' h' => h r' (List.mem_cons_of_mem _ h')) _ mid f' hm)

theorem matchAny_reaches {rules : List Rule} (h : ∀ r ∈ rules, Advances (r.matchWith call)) :
    Advances (Rule.matchAny call rules) := by
  intro silent cur f next fragment hm
  induction rules generalizing f with
  | nil => simp [Rule.matchAny] at hm
  | cons r rules ih =>
    rw [Rule.matchAny] at hm
    split at hm
    · exact ih (fun r' h' => h r' (List.mem_cons_of_mem _ h')) _ hm
    · exact h r List.mem_cons_self silent cur f next fragment hm

/-- A rule moves forward if the rules that it refers to do. -/
theorem matchWith_reaches (hcall : ∀ name, Advances (call name)) (r : Rule) :
    Advances (r.matchWith call) := by
  induction r using Rule.ind with
  | literal text anyCase =>
    intro silent cur f next fragment hm
    rw [Rule.matchWith] at hm
    split at hm
    · rename_i next' hs
      obtain ⟨found, -, hspan⟩ := Cursor.skip?_eq_some.1 hs
      obtain ⟨rfl, -⟩ : next' = next ∧ _ := by simpa using hm
      exact hspan.reaches
    · unfold miss at hm
      split at hm <;> cases hm
  | chars set =>
    intro silent cur f next fragment hm
    rw [Rule.matchWith] at hm
    split at hm
    · rename_i next' hs
      obtain ⟨c, -, hspan⟩ := Cursor.next?_eq_some.1 hs
      obtain ⟨rfl, -⟩ : next' = next ∧ _ := by simpa using hm
      exact hspan.reaches
    · unfold miss at hm
      split at hm <;> cases hm
  | sequence rules ih =>
    intro silent cur f next fragment hm
    rw [Rule.matchWith] at hm
    exact matchAll_reaches ih silent .empty cur f next fragment hm
  | choice rules ih =>
    intro silent cur f next fragment hm
    rw [Rule.matchWith] at hm
    exact matchAny_reaches ih silent cur f next fragment hm
  | repeated r least most ih =>
    intro silent cur f next fragment hm
    have hr := @rounds_reaches _ most (fun cur f next fragment => ih silent cur f next fragment)
      cur.rest 0 cur [] f
    rw [Rule.matchWith] at hm
    split at hm
    rename_i count next' trees f' hs
    rw [hs] at hr
    split at hm
    · cases hm
    · obtain ⟨rfl, -⟩ : next' = next ∧ _ := by simpa using hm
      exact hr
  | optional r ih =>
    intro silent cur f next fragment hm
    rw [Rule.matchWith] at hm
    split at hm
    · obtain ⟨rfl, -⟩ : cur = next ∧ _ := by simpa using hm
      exact .refl _
    · exact ih silent cur f next fragment hm
  | notAhead r ih =>
    intro silent cur f next fragment hm
    rw [Rule.matchWith] at hm
    split at hm
    · obtain ⟨rfl, -⟩ : cur = next ∧ _ := by simpa using hm
      exact .refl _
    · cases hm
  | capture field r ih =>
    intro silent cur f next fragment hm
    rw [Rule.matchWith] at hm
    split at hm
    · cases hm
    · rename_i next' captured f' hs
      obtain ⟨rfl, -⟩ : next' = next ∧ _ := by simpa using hm
      exact ih silent cur f next' captured (by rw [hs])
  | labelled label r ih =>
    intro silent cur f next fragment hm
    rw [Rule.matchWith] at hm
    split at hm
    · split at hm <;> cases hm
    · exact ih silent cur f next fragment hm
  | quiet r ih =>
    intro silent cur f next fragment hm
    rw [Rule.matchWith] at hm
    exact ih true cur f next fragment hm
  | ref name =>
    intro silent cur f next fragment hm
    rw [Rule.matchWith] at hm
    exact hcall name silent cur f next fragment hm

theorem callWithin_reaches (table : List (String × Rule)) (depth : Nat) (name : String) :
    Advances (Rule.callWithin table depth name) := by
  induction depth generalizing name with
  | zero =>
    intro silent cur f next fragment hm
    simp only [Rule.callWithin, Rule.refuse, miss] at hm
    split at hm <;> cases hm
  | succ depth ih =>
    intro silent cur f next fragment hm
    cases hl : table.lookup name with
    | some r =>
      simp only [Rule.callWithin, hl] at hm
      exact matchWith_reaches ih r silent cur f next fragment hm
    | none => simp [Rule.callWithin, hl] at hm

/-- A match against a table of rules moves forward. -/
theorem matchWithin_reaches (table : List (String × Rule)) (depth : Nat) (r : Rule) :
    Advances (r.matchWithin table depth) :=
  matchWith_reaches (callWithin_reaches table depth) r

/-! ## Repetitions -/

/-- What a round over `span` adds to the trees of a repetition. -/
def Fragment.round (fragment : Fragment) (span : Token) : List Tree :=
  if fragment.toFields = [] then [] else [fragment.toTree span]

@[simp] theorem Fragment.reverse_round (fragment : Fragment) (span : Token) :
    (fragment.round span).reverse = fragment.round span := by
  unfold round
  split <;> rfl

@[simp] theorem Fragment.flatMap_round (fragment : Fragment) (span : Token) :
    (fragment.round span).flatMap Tree.fields = fragment.toFields := by
  unfold round
  split
  · rename_i h
    exact h.symm
  · simp [toTree, Tree.fields]

/-- The fragment of a repetition with the trees of an earlier round. -/
def Fragment.behind (earlier : List Tree) : Fragment → Fragment
  | items trees => items (earlier ++ trees)
  | fragment => fragment

theorem rounds_eq (step : Cursor → Frontier → Outcome × Frontier) (most : Option Nat)
    (clock : List Char) (count : Nat) (cur : Cursor) (trees : List Tree) (f : Frontier) :
    rounds step most clock count cur trees f =
      if most.all (count < ·) then
        match step cur f with
        | (none, f) => ((count, cur, trees), f)
        | (some (next, fragment), f) =>
          let trees := fragment.round (cur.spanTo next) ++ trees
          if next.offset = cur.offset ∨ clock = [] then ((count + 1, next, trees), f)
          else rounds step most clock.tail (count + 1) next trees f
      else ((count, cur, trees), f) := by
  cases clock with
  | nil =>
    rw [rounds]
    rcases step cur f with ⟨_ | ⟨next, fragment⟩, f'⟩
    · rfl
    · cases h : fragment.toFields <;> simp [Fragment.round, Fragment.toTree, h]
  | cons c clock =>
    rw [rounds]
    rcases step cur f with ⟨_ | ⟨next, fragment⟩, f'⟩
    · rfl
    · cases h : fragment.toFields <;> simp [Fragment.round, Fragment.toTree, h]

/-- The clock of a repetition has no part in what it gives, if there is enough of it. -/
theorem rounds_clock {step : Cursor → Frontier → Outcome × Frontier} {most : Option Nat}
    (hstep : ∀ cur f next fragment, (step cur f).1 = some (next, fragment) → cur.Reaches next)
    {clock clock' : List Char} {cur : Cursor} (h : cur.rest.length ≤ clock.length)
    (h' : cur.rest.length ≤ clock'.length) (count : Nat) (trees : List Tree) (f : Frontier) :
    rounds step most clock count cur trees f = rounds step most clock' count cur trees f := by
  induction clock generalizing clock' cur count trees f with
  | nil =>
    rw [rounds_eq, rounds_eq step most clock']
    split
    · split
      · rfl
      · rename_i next fragment f' hs
        -- nothing is left, so that a round cannot move on
        have hnext : next = cur := by
          refine Classical.byContradiction fun hne => ?_
          have := (hstep cur f next fragment (by rw [hs])).length_lt hne
          simp only [List.length_nil] at h
          omega
        simp only [hnext, true_or, ↓reduceIte]
    · rfl
  | cons c clock ih =>
    rw [rounds_eq, rounds_eq step most clock']
    split
    · split
      · rfl
      · rename_i next fragment f' hs
        by_cases hne : next.offset = cur.offset
        · simp only [hne, true_or, ↓reduceIte]
        · have hlt := (hstep cur f next fragment (by rw [hs])).length_lt fun e => hne (e ▸ rfl)
          have hclock : clock' ≠ [] := by
            rintro rfl
            simp only [List.length_nil] at h'
            omega
          simp only [hne, false_or, hclock, reduceCtorEq, ↓reduceIte, List.tail_cons]
          simp only [List.length_cons] at h
          exact ih (by omega) (by rw [List.length_tail]; omega) _ _ _
    · rfl

/-- Rounds that were already made are only counted, and their trees kept. -/
theorem rounds_after {step : Cursor → Frontier → Outcome × Frontier} (most : Option Nat)
    (clock : List Char) (before count : Nat) (cur : Cursor) (trees earlier : List Tree)
    (f : Frontier) :
    rounds step most clock (count + before) cur (trees ++ earlier) f =
      let ((n, next, found), f') := rounds step (most.map (· - before)) clock count cur trees f
      ((n + before, next, found ++ earlier), f') := by
  have hmost (n : Nat) : most.all (n + before < ·) = (most.map (· - before)).all (n < ·) := by
    cases most with
    | none => rfl
    | some m => simp only [Option.all_some, Option.map_some, decide_eq_decide]; omega
  induction clock generalizing count cur trees f with
  | nil =>
    rw [rounds_eq, rounds_eq step (most.map _), hmost]
    split
    · split <;> simp [Nat.add_right_comm]
    · rfl
  | cons c clock ih =>
    rw [rounds_eq, rounds_eq step (most.map _), hmost]
    split
    · split
      · rfl
      · rename_i next fragment f' hs
        simp only [reduceCtorEq, or_false, List.tail_cons]
        split
        · simp [Nat.add_right_comm]
        · rw [← List.append_assoc, Nat.add_right_comm]
          exact ih _ _ _ _
    · rfl

/-- A repetition is a round and the repetition of what is then still asked for and allowed. -/
theorem matchWith_repeated {r : Rule} (hr : Advances (r.matchWith call)) (least : Nat)
    (most : Option Nat) (silent : Bool) (cur : Cursor) (f : Frontier) :
    (Rule.repeated r least most).matchWith call silent cur f =
      if most = some 0 then (if least = 0 then some (cur, .items []) else none, f)
      else match r.matchWith call silent cur f with
        | (none, f) => (if least = 0 then some (cur, .items []) else none, f)
        | (some (next, fragment), f) =>
          let trees := fragment.round (cur.spanTo next)
          if next = cur then (if least ≤ 1 then some (next, .items trees) else none, f)
          else
            match (Rule.repeated r (least - 1) (most.map (· - 1))).matchWith call silent next f with
            | (outcome, f) => (outcome.map fun (last, rest) => (last, rest.behind trees), f) := by
  have hmost : most.all (0 < ·) = true ↔ most ≠ some 0 := by
    cases most with
    | none => simp
    | some m => simp; omega
  rw [Rule.matchWith, rounds_eq]
  by_cases hm : most = some 0
  · simp [hm, Nat.pos_iff_ne_zero]
  · simp only [hmost.2 hm, ↓reduceIte, hm]
    rcases hs : r.matchWith call silent cur f with ⟨_ | ⟨next, fragment⟩, f'⟩
    · simp [Nat.pos_iff_ne_zero]
    · have hreach := hr silent cur f next fragment (by rw [hs])
      simp only [List.append_nil, hreach.offset_eq_iff]
      by_cases hne : next = cur
      · simp only [hne, true_or, ↓reduceIte, ← Nat.not_le]
        by_cases hl : least ≤ 1
        · simp [hl]
        · simp [hl]
      · have hlt := hreach.length_lt hne
        have hrest : cur.rest ≠ [] := by
          intro e
          simp [e] at hlt
        have hafter := @rounds_after (fun cur f => r.matchWith call silent cur f) most
          cur.rest.tail 1 0 next [] (fragment.round (cur.spanTo next)) f'
        rw [Nat.zero_add, List.nil_append] at hafter
        simp only [hne, hrest, or_self, ↓reduceIte, Nat.zero_add, hafter, Rule.matchWith]
        have htail : next.rest.length ≤ cur.rest.tail.length := by
          rw [List.length_tail]
          omega
        rw [rounds_clock (hr silent) htail (Nat.le_refl _)]
        rcases rounds _ _ next.rest 0 next [] f' with ⟨⟨count, last, trees⟩, f''⟩
        simp only [List.reverse_append, Fragment.reverse_round]
        by_cases hl : count < least - 1
        · have hl' : count + 1 < least := by omega
          simp [hl, hl']
        · have hl' : ¬ count + 1 < least := by omega
          simp [hl, hl', Fragment.behind]

/-- At the end of the input no round matches, and the repetition captures nothing. -/
example : (Rule.sequence [many (.choice [anyChar])]).matchWith call true ⟨0, []⟩ {} = (some (⟨0, []⟩, .empty), {}) := by
  cbv

end DiagramText.Peg
