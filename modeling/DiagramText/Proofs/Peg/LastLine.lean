import DiagramText.Proofs.Peg.Grammar
import DiagramText.Proofs.Peg.Lexeme

/-!
# Getting past the last line

Whether a grammar takes a text may be known from the last line of the text alone. A `LastLine` says how
that line starts; a `Place` is a position relative to it, and `Rule.places` computes where a match that
starts at a place may end. It asks for little: what stands before the last line is not known, and a
repetition may stop after any of its rounds. So it gives at least the places where matches end
(`places_sound`), and when the root has no such place no text with this last line is taken
(`parse_error_of_stuck`).

References stop where `stops` says; for every rule of the grammar this has to be checked once.
-/

namespace DiagramText.Peg

/-- What is known of the last line of a text: how it starts, and whether that is all of it. -/
structure LastLine where
  known : List Char
  closed : Bool

/-- A last line that begins as a comment does. -/
def commentLine : LastLine := ⟨['%', '%'], false⟩

/-- A position in a text with a last line: before the line feed in front of it, or behind so many of
the characters that are known of it. -/
inductive Place where
  | before
  | within (count : Nat)
deriving DecidableEq

/-- Ordinary characters end neither a line nor a text in braces. -/
def ordinary (c : Char) : Bool := c != '\n' && c != '\r' && c != '\x7d'

namespace LastLine

/-- What the last line may hold besides what is known of it. -/
def Tail (l : LastLine) (later : List Char) : Prop :=
  (∀ c ∈ later, ordinary c = true) ∧ (l.closed = true → later = [])

/-- All places. -/
def places (l : LastLine) : List Place :=
  .before :: (List.range (l.known.length + 1)).map .within

/-- Where an occurrence of `text`, written in lower case, may end in the last line behind `count` known
characters; `known` are those which follow. -/
def along (l : LastLine) : List Char → List Char → Nat → List Place
  | [], _, count => [.within count]
  | a :: text, [], count =>
    if l.closed || (a :: text).any (!ordinary ·) then [] else [.within count]
  | a :: text, c :: known, count => if a = c.toLower then l.along text known (count + 1) else []

/-- Where a match of a literal may end. -/
def skip (l : LastLine) (text : String) : Place → List Place
  | .before =>
    let text := text.toList.map Char.toLower
    if '\n' ∉ text then [.before]
    else if '\n' ∉ text.dropLast then [.before, .within 0]
    else l.places
  | .within count => l.along (text.toList.map Char.toLower) (l.known.drop count) count

/-- Where a match of a character class may end. -/
def next (l : LastLine) (set : CharClass) : Place → List Place
  | .before => if set.contains '\n' then [.before, .within 0] else [.before]
  | .within count =>
    match l.known.drop count with
    | [] => if l.closed then [] else [.within count]
    | c :: _ => if set.contains c then [.within (count + 1)] else []

/-- Whether some character certainly follows. -/
def followed (l : LastLine) : Place → Bool
  | .before => true
  | .within count => count < l.known.length

/-- Where statements stop that read up to `most` of the known characters of a last line. -/
def stopsWithin (l : LastLine) (most : Nat) : Place → List Place
  | .before => [.before]
  | .within count =>
    if count < l.known.length then ((List.range (most + 1)).filter (count < ·)).map .within
    else [.within count]

end LastLine

/-- How a text whose last line ends with `tail` goes on from a place. Behind all known characters it
may be anywhere in the tail. -/
def Place.Holds (l : LastLine) (tail : List Char) : Place → List Char → Prop
  | before, rest => ∃ earlier, rest = earlier ++ '\n' :: (l.known ++ tail)
  | within count, rest =>
    count ≤ l.known.length ∧ ∃ later, later <:+ tail ∧ (count < l.known.length → later = tail) ∧
      rest = l.known.drop count ++ later

/-- The places of `from` and all that `step` leads to from them; all places if `bound` steps do not
reach them. -/
def closure (step : Place → List Place) (all : List Place) : Nat → List Place → List Place
  | 0, start => if ∀ p ∈ start, ∀ q ∈ step p, q ∈ start then start else all
  | bound + 1, start => closure step all bound (start ++ start.flatMap step).eraseDups

namespace Rule

/-- Whether the rule takes any one character. -/
def isAnyChar : Rule → Bool
  | chars .any => true
  | _ => false

section

variable (l : LastLine) (stops : Place → List Place)

mutual

/-- Where a match that starts at a place may end, when references end where `stops` says. -/
def places : Rule → Place → List Place
  | literal text _, p => l.skip text p
  | chars set, p => l.next set p
  | sequence rules, p => placesAll rules p
  | choice rules, p => placesAny rules p
  | repeated r least _, p =>
    closure (fun q => places r q) l.places l.places.length
      (if least = 0 then [p] else (places r p).eraseDups)
  | optional r, p => (p :: places r p).eraseDups
  | notAhead r, p => if r.isAnyChar && l.followed p then [] else [p]
  | capture _ r, p | labelled _ r, p | quiet r, p => places r p
  | ref _, p => stops p

/-- Where the rules may end one after the other. -/
def placesAll : List Rule → Place → List Place
  | [], p => [p]
  | r :: rules, p => ((places r p).eraseDups.flatMap fun q => placesAll rules q).eraseDups

/-- Where one of the rules may end. -/
def placesAny : List Rule → Place → List Place
  | [], _ => []
  | r :: rules, p => (places r p ++ placesAny rules p).eraseDups

end

end

end Rule

/-- The references of a grammar stop where `stops` says, and its root nowhere at all. -/
structure Grammar.Stuck (g : Grammar) (l : LastLine) (stops : Place → List Place) : Prop where
  rules : ∀ entry ∈ g.rules, ∀ p ∈ l.places, ∀ q ∈ entry.2.places l stops p, q ∈ stops p
  root : g.root.places l stops .before = []

instance (g : Grammar) (l : LastLine) (stops : Place → List Place) : Decidable (g.Stuck l stops) :=
  decidable_of_iff ((∀ entry ∈ g.rules, ∀ p ∈ l.places, ∀ q ∈ entry.2.places l stops p, q ∈ stops p) ∧
    g.root.places l stops .before = []) ⟨fun h => ⟨h.1, h.2⟩, fun h => ⟨h.rules, h.root⟩⟩

/-! ## Places hold -/

section

variable {l : LastLine} {tail : List Char}

theorem mem_places {count : Nat} (h : count ≤ l.known.length) : .within count ∈ l.places :=
  List.mem_cons_of_mem _ (List.mem_map.2 ⟨count, List.mem_range.2 (Nat.lt_succ_of_le h), rfl⟩)

theorem Place.Holds.mem_places {p : Place} {rest : List Char} (h : p.Holds l tail rest) :
    p ∈ l.places := by
  cases p with
  | before => exact List.mem_cons_self
  | within count => exact Peg.mem_places h.1

/-- Behind the start of a comment any ordinary characters may stand. -/
theorem tail_commentLine (h : ∀ c ∈ tail, ordinary c = true) : commentLine.Tail tail :=
  ⟨h, fun hclosed => Bool.noConfusion hclosed⟩

theorem LastLine.Tail.of_suffix {later : List Char} (h : l.Tail tail) (hs : later <:+ tail) :
    l.Tail later :=
  ⟨fun c hc => h.1 c (hs.subset hc), fun hl => List.suffix_nil.1 (h.2 hl ▸ hs)⟩

/-- A line that is known as a whole has no tail. -/
theorem LastLine.Tail.not_closed {c : Char} {later : List Char} (h : l.Tail tail)
    (hs : (c :: later) <:+ tail) : l.closed = false := by
  cases hclosed : l.closed with
  | false => rfl
  | true => cases (h.of_suffix hs).2 hclosed

/-- The line feed leads to the start of the known characters. -/
theorem Place.holds_start : Place.Holds l tail (.within 0) (l.known ++ tail) :=
  ⟨Nat.zero_le _, tail, List.suffix_refl _, fun _ => rfl, rfl⟩

/-- Behind the known characters one place holds of all that may be left. -/
theorem Place.holds_of_drop_nil {count : Nat} (hcount : count ≤ l.known.length)
    (hk : l.known.drop count = []) {later : List Char} (hs : later <:+ tail) :
    Place.Holds l tail (.within count) later :=
  ⟨hcount, later, hs, fun h => absurd (List.drop_eq_nil_iff.1 hk) (Nat.not_le.2 h), by rw [hk]; rfl⟩

/-- Behind the line feed every position is at some place. -/
theorem exists_place {start rest : List Char} (e : l.known ++ tail = start ++ rest) :
    ∃ p ∈ l.places, p.Holds l tail rest := by
  rcases List.append_eq_append_iff.1 e with ⟨mid, -, rfl⟩ | ⟨mid, hknown, rfl⟩
  · exact ⟨.within l.known.length, Peg.mem_places (Nat.le_refl _),
      Place.holds_of_drop_nil (Nat.le_refl _) List.drop_length (List.suffix_append ..)⟩
  · have hle : start.length ≤ l.known.length := by
      rw [hknown, List.length_append]
      omega
    refine ⟨.within start.length, Peg.mem_places hle, hle, tail, List.suffix_refl _, fun _ => rfl, ?_⟩
    rw [hknown, List.drop_left]

theorem ordinary_of_toLower {c : Char} (h : ordinary c = true) : ordinary c.toLower = true := by
  rw [ordinary, Bool.and_eq_true, Bool.and_eq_true, bne_iff_ne, bne_iff_ne, bne_iff_ne] at h ⊢
  obtain ⟨⟨hnewline, hreturn⟩, hbrace⟩ := h
  exact ⟨⟨fun e => hnewline (Chars.eq_of_toLower rfl e), fun e => hreturn (Chars.eq_of_toLower rfl e)⟩,
    fun e => hbrace (Chars.eq_of_toLower rfl e)⟩

theorem lt_length_of_drop {c : Char} {known : List Char} {count : Nat}
    (h : l.known.drop count = c :: known) : count < l.known.length := by
  refine Classical.byContradiction fun hnot => ?_
  rw [List.drop_eq_nil_of_le (Nat.not_lt.1 hnot)] at h
  cases h

theorem drop_succ_of_drop {c : Char} {known : List Char} {count : Nat}
    (h : l.known.drop count = c :: known) : l.known.drop (count + 1) = known := by
  rw [← List.drop_drop, h]
  rfl

theorem along_sound (htail : l.Tail tail) {known later : List Char} {count : Nat}
    (hk : l.known.drop count = known) (hcount : count ≤ l.known.length) (hs : later <:+ tail)
    (hlater : count < l.known.length → later = tail) {text found rest : List Char}
    (hf : found.map Char.toLower = text) (e : known ++ later = found ++ rest) :
    ∃ p ∈ l.along text known count, p.Holds l tail rest := by
  induction text generalizing known count found with
  | nil =>
    obtain rfl := List.map_eq_nil_iff.1 hf
    exact ⟨.within count, List.mem_singleton.2 rfl, hcount, later, hs, hlater, by rw [hk]; exact e.symm⟩
  | cons a text ih =>
    cases found with
    | nil => cases hf
    | cons b found =>
      obtain ⟨rfl, hfound⟩ := List.cons.inj hf
      cases known with
      | nil =>
        rw [List.nil_append] at e
        have hord : ∀ c ∈ b :: found, ordinary c = true := fun c hc =>
          htail.1 c (hs.subset (by rw [e]; exact List.mem_append_left _ hc))
        have hopen : l.closed = false := htail.not_closed (e ▸ hs)
        have hall : (b.toLower :: text).any (!ordinary ·) = false := by
          rw [List.any_eq_false, ← hfound]
          intro c hc
          obtain ⟨c', hc', rfl⟩ := List.mem_map.1 (show c ∈ (b :: found).map Char.toLower from hc)
          rw [ordinary_of_toLower (hord c' hc')]
          decide
        refine ⟨.within count, ?_, Place.holds_of_drop_nil hcount hk (.trans ⟨b :: found, e.symm⟩ hs)⟩
        rw [LastLine.along, hopen, hall]
        exact List.mem_singleton.2 rfl
      | cons c known =>
        obtain ⟨rfl, hrest⟩ := List.cons.inj e
        have hlt := lt_length_of_drop hk
        rw [LastLine.along, if_pos rfl]
        exact ih (drop_succ_of_drop hk) hlt (fun _ => hlater hlt) hfound hrest

theorem before_mem_skip (l : LastLine) (text : String) : .before ∈ l.skip text .before := by
  rw [LastLine.skip]
  split
  · exact List.mem_cons_self
  · split
    · exact List.mem_cons_self
    · exact List.mem_cons_self

theorem skip_sound (htail : l.Tail tail) {text : String} {anyCase : Bool} {found : List Char}
    (hf : Spells text anyCase found) {p : Place} {rest : List Char}
    (h : p.Holds l tail (found ++ rest)) : ∃ q ∈ l.skip text p, q.Holds l tail rest := by
  have hlower := hf.map_toLower
  cases p with
  | within count =>
    obtain ⟨hcount, later, hs, hlater, e⟩ := h
    exact along_sound htail rfl hcount hs hlater hlower e.symm
  | before =>
    obtain ⟨earlier, e⟩ := h
    have hmem : '\n' ∈ found → '\n' ∈ text.toList.map Char.toLower := fun hm => by
      rw [← hlower]
      exact List.mem_map.2 ⟨'\n', hm, rfl⟩
    rcases List.append_eq_append_iff.1 e with ⟨mid, rfl, rfl⟩ | ⟨mid, rfl, hmid⟩
    · exact ⟨.before, before_mem_skip l text, mid, rfl⟩
    · cases mid with
      | nil => exact ⟨.before, before_mem_skip l text, [], hmid.symm⟩
      | cons c mid =>
        obtain ⟨rfl, hknown⟩ := List.cons.inj hmid
        rw [LastLine.skip, if_neg fun hnot => hnot (hmem (List.mem_append_right _ List.mem_cons_self))]
        split
        · rename_i hlast
          -- the line feed ends the literal
          have hend : mid = [] := by
            cases mid with
            | nil => rfl
            | cons b mid =>
              refine absurd ?_ hlast
              rw [← hlower, ← List.map_dropLast, List.dropLast_append_of_ne_nil (by simp)]
              exact List.mem_map.2 ⟨'\n', by simp, rfl⟩
          subst hend
          obtain rfl : rest = l.known ++ tail := hknown.symm
          exact ⟨_, List.mem_cons_of_mem _ List.mem_cons_self, Place.holds_start⟩
        · exact exists_place hknown

theorem next_sound (htail : l.Tail tail) {set : CharClass} {c : Char} (hc : set.contains c = true)
    {p : Place} {rest : List Char} (h : p.Holds l tail (c :: rest)) :
    ∃ q ∈ l.next set p, q.Holds l tail rest := by
  cases p with
  | before =>
    obtain ⟨earlier, e⟩ := h
    rw [LastLine.next]
    cases earlier with
    | nil =>
      obtain ⟨rfl, rfl⟩ := List.cons.inj e
      rw [if_pos hc]
      exact ⟨_, List.mem_cons_of_mem _ List.mem_cons_self, Place.holds_start⟩
    | cons a earlier =>
      obtain ⟨rfl, rfl⟩ := List.cons.inj e
      have hbefore : Place.Holds l tail .before (earlier ++ '\n' :: (l.known ++ tail)) := ⟨earlier, rfl⟩
      split
      · exact ⟨_, List.mem_cons_self, hbefore⟩
      · exact ⟨_, List.mem_cons_self, hbefore⟩
  | within count =>
    obtain ⟨hcount, later, hs, hlater, e⟩ := h
    rw [LastLine.next]
    cases hk : l.known.drop count with
    | nil =>
      rw [hk, List.nil_append] at e
      have hopen : l.closed = false := htail.not_closed (e ▸ hs)
      refine ⟨.within count, ?_, Place.holds_of_drop_nil hcount hk (.trans ⟨[c], e⟩ hs)⟩
      simp only [hopen]
      exact List.mem_singleton.2 rfl
    | cons a known =>
      rw [hk] at e
      obtain ⟨rfl, rfl⟩ := List.cons.inj e
      have hlt := lt_length_of_drop hk
      refine ⟨.within (count + 1), ?_, hlt, later, hs, fun _ => hlater hlt, ?_⟩
      · simp only [hc, ↓reduceIte]
        exact List.mem_singleton.2 rfl
      · rw [drop_succ_of_drop hk]
        rfl

theorem followed_sound {p : Place} {rest : List Char} (h : p.Holds l tail rest)
    (hp : l.followed p = true) : rest ≠ [] := by
  rintro rfl
  cases p with
  | before =>
    obtain ⟨earlier, e⟩ := h
    cases earlier <;> cases e
  | within count =>
    obtain ⟨-, later, -, -, e⟩ := h
    have hlt : count < l.known.length := of_decide_eq_true hp
    have := List.drop_eq_nil_iff.1 (List.append_eq_nil_iff.1 e.symm).1
    omega

/-- What a closure starts from is part of it, and steps do not lead out of it to a place that holds. -/
theorem closure_sound (step : Place → List Place) (bound : Nat) (start : List Place) :
    (∀ p ∈ start, ∀ rest, p.Holds l tail rest → p ∈ closure step l.places bound start) ∧
      ∀ p ∈ closure step l.places bound start, ∀ q ∈ step p, ∀ rest, q.Holds l tail rest →
        q ∈ closure step l.places bound start := by
  induction bound generalizing start with
  | zero =>
    rw [closure]
    split
    · rename_i hclosed
      exact ⟨fun p hp _ _ => hp, fun p hp q hq _ _ => hclosed p hp q hq⟩
    · exact ⟨fun p _ rest h => h.mem_places, fun p _ q _ rest h => h.mem_places⟩
  | succ bound ih =>
    obtain ⟨hstart, hstep⟩ := ih (start ++ start.flatMap step).eraseDups
    exact ⟨fun p hp => hstart p (List.mem_eraseDups.2 (List.mem_append_left _ hp)), hstep⟩

end

/-! ## Matches end at places -/

section

variable {table : List (String × Rule)} {l : LastLine} {tail : List Char} {stops : Place → List Place}

/-- A matcher ends at the places that are given for it. -/
def EndsAt (l : LastLine) (tail : List Char) (m : Cursor → Outcome) (ends : Place → List Place) : Prop :=
  ∀ p cur next fragment, p.Holds l tail cur.rest → m cur = some (next, fragment) →
    ∃ q ∈ ends p, q.Holds l tail next.rest

variable {depth : Nat}

theorem sequence_endsAt {rules : List Rule}
    (h : ∀ r ∈ rules, EndsAt l tail (r.outcome table depth) (r.places l stops)) :
    EndsAt l tail ((Rule.sequence rules).outcome table depth) (Rule.placesAll l stops rules) := by
  induction rules with
  | nil =>
    intro p cur next fragment hp hm
    obtain ⟨rfl, -⟩ := sequence_nil_eq_some.1 hm
    exact ⟨p, List.mem_singleton.2 rfl, hp⟩
  | cons r rules ih =>
    intro p cur next fragment hp hm
    obtain ⟨mid, a, b, hr, hrest, -⟩ := sequence_cons_eq_some.1 hm
    obtain ⟨q, hq, hmid⟩ := h r List.mem_cons_self p cur mid a hp hr
    obtain ⟨q', hq', hnext⟩ := ih (fun r' h' => h r' (List.mem_cons_of_mem _ h')) q mid next b hmid hrest
    refine ⟨q', ?_, hnext⟩
    rw [Rule.placesAll, List.mem_eraseDups, List.mem_flatMap]
    exact ⟨q, List.mem_eraseDups.2 hq, hq'⟩

theorem mem_placesAny {rules : List Rule} {r : Rule} (hr : r ∈ rules) {p q : Place}
    (hq : q ∈ r.places l stops p) : q ∈ Rule.placesAny l stops rules p := by
  induction rules with
  | nil => cases hr
  | cons first rules ih =>
    rw [Rule.placesAny, List.mem_eraseDups, List.mem_append]
    rcases List.mem_cons.1 hr with rfl | hr
    · exact .inl hq
    · exact .inr (ih hr)

/-- A repetition ends in the closure of where its rounds end. -/
theorem repeated_endsAt {r : Rule} (h : EndsAt l tail (r.outcome table depth) (r.places l stops))
    (least : Nat) (most : Option Nat) :
    EndsAt l tail ((Rule.repeated r least most).outcome table depth)
      ((Rule.repeated r least most).places l stops) := by
  intro p cur next fragment hp hm
  rw [Rule.places]
  have hclosure (start : List Place) : ∀ cur next fragment,
      (∃ q ∈ closure (r.places l stops) l.places l.places.length start, q.Holds l tail cur.rest) →
      r.outcome table depth cur = some (next, fragment) →
      ∃ q ∈ closure (r.places l stops) l.places l.places.length start, q.Holds l tail next.rest := by
    rintro cur next fragment ⟨q, hq, hcur⟩ hround
    obtain ⟨q', hq', hnext⟩ := h q cur next fragment hcur hround
    exact ⟨q', (closure_sound _ _ start).2 q hq q' hq' _ hnext, hnext⟩
  split
  · exact repeated_invariant (hclosure _)
      ⟨p, (closure_sound _ _ [p]).1 p (List.mem_singleton.2 rfl) _ hp, hp⟩ hm
  · rename_i hleast
    -- the first round is not optional
    rw [outcome_repeated, if_neg hleast] at hm
    split at hm
    · cases hm
    · split at hm
      · cases hm
      · rename_i mid captured hs
        obtain ⟨q, hq, hmid⟩ := h p cur mid captured hp hs
        have hfirst := (closure_sound (r.places l stops) l.places.length _).1 q
          (List.mem_eraseDups.2 hq) _ hmid
        dsimp only at hm
        split at hm
        · rename_i hne
          split at hm
          · obtain ⟨rfl, -⟩ := Prod.mk.inj (Option.some.inj hm)
            exact ⟨q, hfirst, hmid⟩
          · cases hm
        · obtain ⟨⟨last, rest⟩, hrest, e⟩ := Option.map_eq_some_iff.1 hm
          obtain ⟨rfl, -⟩ := Prod.mk.inj e
          exact repeated_invariant (hclosure _) ⟨q, hfirst, hmid⟩ hrest

/-- Matches end at the places of their rule, if those of references do. -/
theorem places_sound (htail : l.Tail tail)
    (hrefs : ∀ name, EndsAt l tail ((Rule.ref name).outcome table depth) stops) (r : Rule) :
    EndsAt l tail (r.outcome table depth) (r.places l stops) := by
  induction r using Rule.ind with
  | literal text anyCase =>
    intro p cur next fragment hp hm
    obtain ⟨found, hf, hs⟩ := literal_spans hm
    rw [Rule.places]
    exact skip_sound htail hf (hs.rest ▸ hp)
  | chars set =>
    intro p cur next fragment hp hm
    rw [outcome_chars] at hm
    obtain ⟨next', hn, e⟩ := Option.map_eq_some_iff.1 hm
    obtain ⟨rfl, -⟩ := Prod.mk.inj e
    obtain ⟨c, hc, hs⟩ := Cursor.next?_eq_some.1 hn
    rw [Rule.places]
    rw [hs.rest] at hp
    exact next_sound htail hc hp
  | sequence rules ih => exact sequence_endsAt ih
  | choice rules ih =>
    intro p cur next fragment hp hm
    obtain ⟨r, hr, hm⟩ := choice_eq_some hm
    obtain ⟨q, hq, hnext⟩ := ih r hr p cur next fragment hp hm
    exact ⟨q, mem_placesAny hr hq, hnext⟩
  | repeated r least most ih => exact repeated_endsAt ih least most
  | optional r ih =>
    intro p cur next fragment hp hm
    rw [outcome_optional] at hm
    rw [Rule.places]
    cases hr : r.outcome table depth cur with
    | none =>
      rw [hr] at hm
      obtain ⟨rfl, -⟩ := Prod.mk.inj (Option.some.inj hm)
      exact ⟨p, List.mem_eraseDups.2 List.mem_cons_self, hp⟩
    | some found =>
      rw [hr] at hm
      obtain rfl : found = (next, fragment) := Option.some.inj hm
      obtain ⟨q, hq, hnext⟩ := ih p cur next fragment hp hr
      exact ⟨q, List.mem_eraseDups.2 (List.mem_cons_of_mem _ hq), hnext⟩
  | notAhead r ih =>
    intro p cur next fragment hp hm
    rw [outcome_notAhead, Option.ite_none_right_eq_some] at hm
    obtain ⟨hnone, e⟩ := hm
    obtain ⟨rfl, -⟩ := Prod.mk.inj (Option.some.inj e)
    rw [Rule.places]
    split
    · rename_i hany
      rw [Bool.and_eq_true] at hany
      refine absurd ?_ (followed_sound hp hany.2)
      match r, hany.1 with
      | .chars .any, _ =>
        rw [outcome_chars, Option.map_eq_none_iff] at hnone
        cases hrest : cur.rest with
        | nil => rfl
        | cons c rest => cases Cursor.next?_eq_none.1 hnone c rest hrest
    · exact ⟨p, List.mem_singleton.2 rfl, hp⟩
  | capture field r ih =>
    intro p cur next fragment hp hm
    rw [outcome_capture] at hm
    obtain ⟨⟨next', captured⟩, hr, e⟩ := Option.map_eq_some_iff.1 hm
    obtain ⟨rfl, -⟩ := Prod.mk.inj e
    rw [Rule.places]
    exact ih p cur next' captured hp hr
  | labelled label r ih =>
    intro p cur next fragment hp hm
    rw [outcome_labelled] at hm
    rw [Rule.places]
    exact ih p cur next fragment hp hm
  | quiet r ih =>
    intro p cur next fragment hp hm
    rw [outcome_quiet] at hm
    rw [Rule.places]
    exact ih p cur next fragment hp hm
  | ref name =>
    intro p cur next fragment hp hm
    rw [Rule.places]
    exact hrefs name p cur next fragment hp hm

/-- References stop where they are said to, if all rules of the table do. -/
theorem ref_endsAt (htail : l.Tail tail)
    (htable : ∀ entry ∈ table, ∀ p ∈ l.places, ∀ q ∈ entry.2.places l stops p, q ∈ stops p)
    (depth : Nat) (name : String) : EndsAt l tail ((Rule.ref name).outcome table depth) stops := by
  induction depth generalizing name with
  | zero =>
    intro p cur next fragment hp hm
    rw [outcome_ref_zero] at hm
    cases hm
  | succ depth ih =>
    intro p cur next fragment hp hm
    rw [outcome_ref] at hm
    obtain ⟨r, hl, hr⟩ := Option.bind_eq_some_iff.1 hm
    obtain ⟨q, hq, hnext⟩ := places_sound htail ih r p cur next fragment hp hr
    exact ⟨q, htable _ (mem_of_lookup hl) p hp.mem_places q hq, hnext⟩

end

/-- A grammar that gets stuck at a last line takes no text that ends with it. -/
theorem parse_error_of_stuck {depth : Nat} {g : Grammar} {l : LastLine} {stops : Place → List Place}
    (hg : g.Stuck l stops) {tail : List Char} (htail : l.Tail tail) {input : String}
    (hp : Place.Holds l tail .before input.toList) : ∃ failure, g.parse depth input = .error failure := by
  cases h : g.parse depth input with
  | error failure => exact ⟨failure, rfl⟩
  | ok tree =>
    obtain ⟨next, fragment, hm, -, -⟩ := parse_eq_ok.1 h
    obtain ⟨q, hq, -⟩ := places_sound htail (ref_endsAt htail hg.rules depth) g.root
      .before (.start input) next fragment hp hm
    rw [hg.root] at hq
    cases hq

end DiagramText.Peg
