import DiagramText.Proofs.Text.Separated
import DiagramText.Style

/-!
# The text of a style

Reading a style keeps of each property the name and the value without the blanks around them, and the text of a style
puts them together again with nothing around them. What a value needs to be read up to its end is that its commas lie
inside of parentheses that match (`Closed`), and a value keeps that when its blanks are cut off. So the properties of
a style that was read are read again from its text (`text_read_again`), all but the semicolons at the end: those count
as the end of the text, though the last value of a text that goes on with a comma or a blank keeps its own.
-/

namespace DiagramText

open Chars

namespace Separated

/-! ## Values -/

section Values

variable {inside : Bool} {c : Char} {text cs rest : List Char}

/-- Whether a text is a value up to its end: its commas lie inside of parentheses, and these match. It may begin
`inside` of parentheses. -/
def Closed (inside : Bool) (text : List Char) : Prop := propertyValue inside text = some (text, [])

/-- Whether parentheses are open behind a character of a value. -/
def opens (inside : Bool) (c : Char) : Bool := if inside then c != ')' else c == '('

/-- Outside of parentheses a value does not go on with a comma or with parentheses that are closed. -/
theorem propertyValue_cons (h : inside = false → c ≠ ',' ∧ c ≠ ')') :
    propertyValue inside (c :: cs) = (propertyValue (opens inside c) cs).map fun (text, rest) => (c :: text, rest) := by
  cases inside
  · simp [propertyValue, opens, h rfl]
  · simp [propertyValue, opens]

theorem closed_nil : Closed inside [] ↔ inside = false := by
  cases inside <;> simp [Closed, propertyValue]

theorem closed_cons :
    Closed inside (c :: text) ↔ (inside = false → c ≠ ',' ∧ c ≠ ')') ∧ Closed (opens inside c) text := by
  cases inside
  · by_cases comma : c = ','
    · simp [Closed, propertyValue, comma]
    · by_cases closing : c = ')' <;> simp [Closed, propertyValue, opens, comma, closing]
  · simp [Closed, propertyValue, opens]

theorem propertyValue_append (h : Closed inside text) (hrest : ∀ c ∈ rest.head?, c = ',') :
    propertyValue inside (text ++ rest) = some (text, rest) := by
  induction text generalizing inside with
  | nil =>
    obtain rfl := closed_nil.1 h
    cases rest with
    | nil => rfl
    | cons c rest =>
      obtain rfl := hrest c rfl
      rfl
  | cons c text ih =>
    obtain ⟨plain, tail⟩ := closed_cons.1 h
    rw [List.cons_append, propertyValue_cons plain, ih tail]
    rfl

/-- A value goes on up to the first comma outside of parentheses. -/
theorem of_propertyValue (h : propertyValue inside cs = some (text, rest)) :
    cs = text ++ rest ∧ Closed inside text ∧ ∀ c ∈ rest.head?, c = ',' := by
  induction cs generalizing inside text with
  | nil =>
    cases inside <;> cases h
    exact ⟨rfl, rfl, nofun⟩
  | cons c cs ih =>
    by_cases plain : inside = false → c ≠ ',' ∧ c ≠ ')'
    · rw [propertyValue_cons plain, Option.map_eq_some_iff] at h
      obtain ⟨⟨tail, more⟩, found, e⟩ := h
      obtain ⟨rfl, rfl⟩ := Prod.mk.inj e
      obtain ⟨rfl, closed, hrest⟩ := ih found
      exact ⟨rfl, closed_cons.2 ⟨plain, closed⟩, hrest⟩
    · obtain ⟨rfl, stop⟩ := Classical.not_imp.1 plain
      by_cases comma : c = ','
      · subst comma
        cases h
        exact ⟨rfl, rfl, fun c hc => (Option.some.inj hc).symm⟩
      · simp_all [propertyValue]

/-- Parentheses that are open have to be closed. -/
theorem not_closed (h : ')' ∉ text) : ¬ Closed true text := by
  induction text with
  | nil => exact fun closed => Bool.noConfusion (closed_nil.1 closed)
  | cons c text ih =>
    rw [List.mem_cons, not_or] at h
    have still : opens true c = true := bne_iff_ne.2 (Ne.symm h.1)
    exact fun closed => ih h.2 (still ▸ (closed_cons.1 closed).2)

/-- A value stays one without an end that closes no parentheses. -/
theorem closed_of_append (h : Closed inside (text ++ rest)) (hrest : ')' ∉ rest) : Closed inside text := by
  induction text generalizing inside with
  | nil => exact closed_nil.2 (Bool.eq_false_iff.2 fun inside => not_closed hrest (inside ▸ h))
  | cons c text ih =>
    obtain ⟨plain, tail⟩ := closed_cons.1 h
    exact closed_cons.2 ⟨plain, ih tail⟩

theorem Closed.trimEndBy {p : Char → Bool} (h : Closed inside text) (hp : p ')' = false) :
    Closed inside (Chars.trimEndBy p text) := by
  obtain ⟨tail, e, htail⟩ := exists_append_trimEndBy p text
  rw [e] at h
  refine closed_of_append h fun closing => ?_
  rw [htail _ closing] at hp
  cases hp

theorem Closed.trimStart (h : Closed false text) : Closed false (Chars.trimStart text) := by
  induction text with
  | nil => exact h
  | cons c text ih =>
    by_cases blank : isBlank c = true
    · have still : opens false c = false := beq_eq_false_iff_ne.2 fun e => by rw [e] at blank; cases blank
      rw [Chars.trimStart, trimStartBy, List.dropWhile_cons_of_pos blank]
      exact ih (still ▸ (closed_cons.1 h).2)
    · rwa [trimStart_cons_of_not_blank (Bool.not_eq_true _ ▸ blank)]

theorem Closed.trim (h : Closed false text) : Closed false (Chars.trim text) := h.trimStart.trimEndBy rfl

end Values

/-! ## Properties -/

/-- The two sides of the colon of a property that begins with something else than a blank. -/
structure Fits (name value : List Char) : Prop where
  head : ∃ c ∈ name.head?, isBlank c = false
  apart : ∀ c ∈ name, (c != ':' && c != ',') = true
  closed : Closed false value

/-- A property with the blanks around its name and its value left out. -/
def entry (sides : List Char × List Char) : String × String :=
  (String.ofList (Chars.trim sides.1), String.ofList (Chars.trim sides.2))

theorem Fits.trimStart {name value : List Char} (h : Fits name value) (rest : List Char) :
    Chars.trimStart (name ++ rest) = name ++ rest := by
  obtain ⟨c, hc, full⟩ := h.head
  cases name with
  | nil => cases hc
  | cons first name =>
    obtain rfl := Option.some.inj hc
    exact trimStart_cons_of_not_blank full _

theorem Fits.trim {name value : List Char} (h : Fits name value) : Fits (Chars.trim name) (Chars.trim value) := by
  refine ⟨?_, fun c hc => h.apart c (mem_of_mem_trim hc), h.closed.trim⟩
  obtain ⟨c, hc, full⟩ := h.head
  cases name with
  | nil => cases hc
  | cons first name =>
    obtain rfl := Option.some.inj hc
    refine ⟨first, ?_, full⟩
    rw [trim_cons_of_not_blank full]
    rfl

section

variable {name value rest cs : List Char}

theorem property_append (h : Fits name value) (hrest : ∀ c ∈ rest.head?, c = ',') :
    property (name ++ ':' :: (value ++ rest)) = some (entry (name, value), rest) := by
  have cut : (name ++ ':' :: (value ++ rest)).span (fun c => c != ':' && c != ',') = (name, ':' :: (value ++ rest)) :=
    span_eq_iff.2 ⟨rfl, h.apart, fun c hc => by obtain rfl := Option.some.inj hc; rfl⟩
  obtain ⟨c, hc, -⟩ := h.head
  cases name with
  | nil => cases hc
  | cons first name =>
    simp only [property, cut, propertyValue_append h.closed hrest]
    rfl

theorem of_property {found : String × String} (hcs : Chars.trimStart cs = cs) (h : property cs = some (found, rest)) :
    ∃ name value, cs = name ++ ':' :: (value ++ rest) ∧ Fits name value ∧ (∀ c ∈ rest.head?, c = ',') ∧
      found = entry (name, value) := by
  rw [property] at h
  split at h
  · rename_i first name more cut
    obtain ⟨rfl, apart, -⟩ := span_eq_iff.1 cut
    obtain ⟨⟨value, rest⟩, hvalue, e⟩ := Option.map_eq_some_iff.1 h
    obtain ⟨rfl, rfl⟩ := Prod.mk.inj e
    obtain ⟨rfl, closed, hrest⟩ := of_propertyValue hvalue
    exact ⟨_, value, rfl, ⟨⟨first, rfl, head_of_trimStart hcs first rfl⟩, apart, closed⟩, hrest, rfl⟩
  · cases h

end

/-! ## Lists of properties -/

section

variable {properties : List (List Char × List Char)}

/-- Properties with commas between them. -/
def joined (properties : List (List Char × List Char)) : List Char :=
  [','].intercalate (properties.map fun (name, value) => name ++ ':' :: value)

theorem joined_singleton (name value : List Char) : joined [(name, value)] = name ++ ':' :: value := by
  simp [joined]

theorem joined_cons (name value : List Char) (h : properties ≠ []) :
    joined ((name, value) :: properties) = name ++ ':' :: (value ++ ',' :: joined properties) := by
  cases properties with
  | nil => exact absurd rfl h
  | cons next properties => simp [joined]

theorem trimStart_joined (h : ∀ p ∈ properties, Fits p.1 p.2) :
    Chars.trimStart (joined properties) = joined properties := by
  match properties, h with
  | [], _ => rfl
  | [(name, value)], h =>
    rw [joined_singleton]
    exact (h _ List.mem_cons_self).trimStart _
  | (name, value) :: next :: properties, h =>
    rw [joined_cons name value (List.cons_ne_nil next properties)]
    exact (h _ List.mem_cons_self).trimStart _

theorem separated_joined (h : ∀ p ∈ properties, Fits p.1 p.2) {clock : List Char}
    (hclock : properties.length ≤ clock.length + 1) :
    separated property (skipPadded ',') true clock (joined properties) = (properties.map entry, []) := by
  induction properties generalizing clock with
  | nil => rw [separated]; rfl
  | cons p properties ih =>
    obtain ⟨name, value⟩ := p
    obtain ⟨fits, others⟩ := List.forall_mem_cons.1 h
    cases properties with
    | nil =>
      have read := @property_append name value [] fits (by simp)
      rw [List.append_nil] at read
      rw [joined_singleton]
      exact separated_last read rfl
    | cons next properties =>
      have read := @property_append name value (',' :: joined (next :: properties)) fits (by simp)
      cases clock with
      | nil => simp at hclock
      | cons tick clock =>
        have go : skipPadded ',' (',' :: joined (next :: properties)) = some (joined (next :: properties)) := by
          rw [skipPadded, skipChar_first rfl, Option.map_some, trimStart_joined others]
        rw [joined_cons name value (List.cons_ne_nil next properties)]
        exact separated_more read go (ih others (by simpa using hclock))

theorem length_le_joined (properties : List (List Char × List Char)) :
    properties.length ≤ (joined properties).length := by
  induction properties with
  | nil => exact Nat.le_refl 0
  | cons p properties ih =>
    obtain ⟨name, value⟩ := p
    cases properties with
    | nil =>
      simp [joined_singleton]
      omega
    | cons next properties =>
      rw [joined_cons name value (List.cons_ne_nil next properties)]
      simp only [List.length_append, List.length_cons] at ih ⊢
      omega

/-- Properties are read from their text. -/
theorem whole_joined (h : ∀ p ∈ properties, Fits p.1 p.2) :
    whole property (skipPadded ',') true (joined properties) = some (properties.map entry) := by
  rw [whole]
  simp only [trimStart_joined h, separated_joined h (Nat.le_succ_of_le (length_le_joined properties))]
  rfl

/-- What is read are properties without the blanks around their names and values. -/
theorem exists_of_whole {cs : List Char} {entries : List (String × String)}
    (h : whole property (skipPadded ',') true cs = some entries) :
    ∀ e ∈ entries, ∃ name value, Fits name value ∧ e = entry (name, value) := by
  have hsep (cs next : List Char) (hnext : skipPadded ',' cs = some next) : Chars.trimStart next = next := by
    obtain ⟨rest, -, rfl⟩ := Option.map_eq_some_iff.1 hnext
    exact trimStart_trimStart rest
  have hitem (cs : List Char) (e : String × String) (rest : List Char) (hcs : Chars.trimStart cs = cs)
      (he : property cs = some (e, rest)) : ∃ name value, Fits name value ∧ e = entry (name, value) := by
    obtain ⟨name, value, -, fits, -, rfl⟩ := of_property hcs he
    exact ⟨name, value, fits, rfl⟩
  rw [whole] at h
  simp only [Option.ite_none_right_eq_some] at h
  obtain ⟨-, h⟩ := h
  obtain rfl := Option.some.inj h
  exact forall_mem_separated hsep hitem (trimStart_trimStart cs)

/-- The properties when the end of the last value is cut off. -/
def cutLast (p : Char → Bool) : List (List Char × List Char) → List (List Char × List Char)
  | [] => []
  | [(name, value)] => [(name, Chars.trimEndBy p value)]
  | sides :: next :: properties => sides :: cutLast p (next :: properties)

/-- What holds no colon and no comma is cut off from the last value. -/
theorem trimEndBy_joined {p : Char → Bool} (colon : p ':' = false) (comma : p ',' = false)
    (properties : List (List Char × List Char)) :
    Chars.trimEndBy p (joined properties) = joined (cutLast p properties) := by
  fun_induction cutLast p properties with
  | case1 => rfl
  | case2 name value => rw [joined_singleton, joined_singleton, trimEndBy_append_cons name colon]
  | case3 sides next properties ih =>
    obtain ⟨name, value⟩ := sides
    have some_left : cutLast p (next :: properties) ≠ [] := by
      cases properties <;> nofun
    rw [joined_cons name value (List.cons_ne_nil next properties), joined_cons name value some_left,
      trimEndBy_append_cons name colon, trimEndBy_append_cons value comma, ih]

theorem cutLast_eq_self {p : Char → Bool}
    (h : ∀ sides ∈ properties, Chars.trimEndBy p sides.2 = sides.2) : cutLast p properties = properties := by
  fun_induction cutLast p properties with
  | case1 => rfl
  | case2 name value => rw [h (name, value) List.mem_cons_self]
  | case3 sides next properties ih => rw [ih fun sides hs => h sides (List.mem_cons_of_mem _ hs)]

/-- The end of a value may be cut off, as long as it closes no parentheses. -/
theorem fits_cutLast {p : Char → Bool} (hp : p ')' = false)
    (h : ∀ sides ∈ properties, Fits sides.1 sides.2) : ∀ sides ∈ cutLast p properties, Fits sides.1 sides.2 := by
  fun_induction cutLast p properties with
  | case1 => exact h
  | case2 name value =>
    have fits := h (name, value) List.mem_cons_self
    exact List.forall_mem_singleton.2 ⟨fits.head, fits.apart, fits.closed.trimEndBy hp⟩
  | case3 sides next properties ih =>
    obtain ⟨fits, others⟩ := List.forall_mem_cons.1 h
    exact List.forall_mem_cons.2 ⟨fits, ih others⟩

theorem map_entry_cutLast_eq_iff {p : Char → Bool}
    (h : ∀ sides ∈ properties, Chars.trim sides.2 = sides.2) :
    (cutLast p properties).map entry = properties.map entry ↔
      ∀ sides ∈ properties.getLast?, ∀ c ∈ sides.2.getLast?, p c = false := by
  fun_induction cutLast p properties with
  | case1 => simp
  | case2 name value =>
    have trimmed := h (name, value) List.mem_cons_self
    simp only [List.map_cons, List.map_nil, entry, List.cons.injEq, Prod.mk.injEq, String.ofList_inj, trimmed,
      List.getLast?_singleton, Option.mem_def, Option.some.injEq, forall_eq', true_and, and_true]
    exact (trim_trimEndBy_eq_iff trimmed).trans trimEndBy_eq_self_iff
  | case3 sides next properties ih =>
    simpa using ih fun sides hs => h sides (List.mem_cons_of_mem _ hs)

end

end Separated

/-! ## Styles -/

namespace Style

open Separated

/-- The names and the values of a style. -/
def sides (s : Style) : List (List Char × List Char) :=
  s.properties.map fun (name, value) => (name.toList, value.toList)

theorem toList_text (s : Style) : s.text.toList = joined s.sides := by
  rw [text, String.toList_intercalate, List.map_map, joined, sides, List.map_map]
  congr 1
  refine List.map_congr_left fun property _ => ?_
  simp

/-- The style that is read from the text of a style: semicolons at its end are none of the last value. -/
def readAgain (s : Style) : Style := ⟨(cutLast (· == ';') s.sides).map entry⟩

/-- A style that was read has no blanks around its names and values. -/
theorem sides_of_ofText? {raw : String} {s : Style} (h : ofText? raw = some s) :
    ∀ sides ∈ s.sides, Fits sides.1 sides.2 ∧ Chars.trim sides.1 = sides.1 ∧ Chars.trim sides.2 = sides.2 := by
  obtain ⟨entries, hentries, rfl⟩ := Option.map_eq_some_iff.1 h
  intro p hp
  obtain ⟨e, he, rfl⟩ := List.mem_map.1 hp
  obtain ⟨name, value, fits, rfl⟩ := exists_of_whole hentries e he
  simpa [entry, Chars.trim_trim] using fits.trim

section

variable {raw : String} {s : Style} (h : ofText? raw = some s)
include h

/-- The text of a style that was read is a style again. -/
theorem ofText?_text : ofText? s.text = some s.readAgain := by
  have sides := sides_of_ofText? h
  have fits : ∀ p ∈ s.sides, Fits p.1 p.2 := fun p hp => (sides p hp).1
  have stripped : Chars.trimEndBy (· == ';') (Chars.trim s.text.toList) = joined (cutLast (· == ';') s.sides) := by
    rw [toList_text, Chars.trim, trimStart_joined fits, Chars.trimEnd, trimEndBy_joined rfl rfl,
      cutLast_eq_self fun p hp => (trim_eq_iff.1 (sides p hp).2.2).2, trimEndBy_joined rfl rfl]
  rw [ofText?, styleProperties?, stripped, whole_joined (fits_cutLast rfl fits)]
  rfl

theorem map_entry_sides : s.sides.map entry = s.properties := by
  rw [sides, List.map_map]
  refine (List.map_congr_left fun property hp => ?_).trans (List.map_id _)
  obtain ⟨-, name, value⟩ := sides_of_ofText? h _ (List.mem_map_of_mem hp)
  simp only [Function.comp_apply, entry, name, value, String.ofList_toList, id_eq]

theorem readAgain_eq_iff :
    s.readAgain = s ↔ ∀ property ∈ s.properties.getLast?, property.2.toList.getLast? ≠ some ';' := by
  have cut := map_entry_cutLast_eq_iff (p := (· == ';')) fun p hp => (sides_of_ofText? h p hp).2.2
  rw [map_entry_sides h] at cut
  obtain ⟨properties⟩ := s
  rw [readAgain, mk.injEq, cut, sides, List.getLast?_map]
  cases properties.getLast? with
  | none => simp
  | some property => cases h : property.2.toList.getLast? <;> simp [h]

end

/-- A style that was read is read again from its text, all of it unless its last value ends with a semicolon. -/
theorem text_read_again {raw : String} {s : Style} (h : ofText? raw = some s) :
    ofText? s.text = some s.readAgain ∧
      (ofText? s.text = some s ↔ ∀ property ∈ s.properties.getLast?, property.2.toList.getLast? ≠ some ';') := by
  refine ⟨ofText?_text h, ?_⟩
  rw [ofText?_text h, Option.some.injEq]
  exact readAgain_eq_iff h

/-- Names and values may have blanks around them, and values may hold colons and commas. -/
theorem text_read_again_of_blanks :
    ∃ s, ofText? "fill : rgb(1, 2, 3) ,link:a:b,; " = some s ∧ ofText? s.text = some s := by
  have read : ofText? "fill : rgb(1, 2, 3) ,link:a:b,; " = some ⟨[("fill", "rgb(1, 2, 3)"), ("link", "a:b")]⟩ := by
    decide
  exact ⟨_, read, (text_read_again read).2.2 (by decide)⟩

/-- A semicolon in front of the last comma belongs to the value, and the text of the style ends with it. -/
theorem exists_text_not_read_again :
    ∃ s, ofText? "a:b;," = some s ∧ s.get? "a" = some "b;" ∧ s.text = "a:b;" ∧
      ∃ again, ofText? s.text = some again ∧ again.get? "a" = some "b" := by
  refine ⟨⟨[("a", "b;")]⟩, ?_, ?_, ?_, ⟨[("a", "b")]⟩, ?_⟩
  all_goals decide

end Style

end DiagramText
