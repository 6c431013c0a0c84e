import DiagramText.Flowchart.Arrow

/-!
# The tokens of arrows

The token of an arrow puts its tail in front of its line and its head behind it, and a label inside cuts it in two
(`Arrow.token`, `Arrow.opening`, `Arrow.closing`). The line has as many characters more than it needs as the arrow
spans ranks, where a head stands for one of them. So the arrow can be told from its first and its last character and
from how often the character of its line comes (`Arrow.ofToken_token`, `Arrow.ofToken_opening`).
-/

namespace DiagramText.Flowchart

/-- The character of a head. At the start of an arrow it points the other way. -/
def Head.mark (point : Char) : Head → List Char
  | none => []
  | arrow => [point]
  | circle => ['o']
  | cross => ['x']

/-- The line of an arrow over `n` ranks with its head, and one more character of the line where it has none. -/
def Head.line (h : Head) (c : Char) (n : Nat) : List Char :=
  List.replicate (n + 1) c ++ if h = .none then [c] else h.mark '>'

namespace Arrow

/-- Whether the line of an arrow is drawn, over one rank at least. -/
def IsDrawn (a : Arrow) : Prop := a.stroke ≠ .invisible ∧ 1 ≤ a.length

/-- The part of the token behind the label inside an arrow, which shows how long the arrow is. -/
def closing (a : Arrow) : List Char :=
  match a.stroke with
  | .dashed => List.replicate a.length '.' ++ '-' :: a.head.mark '>'
  | .thick => a.head.line '=' a.length
  | _ => a.head.line '-' a.length

/-- What the line of an arrow begins with when a label follows. -/
def start (a : Arrow) : List Char :=
  match a.stroke with
  | .dashed => ['-', '.']
  | .thick => ['=', '=']
  | _ => ['-', '-']

/-- The part of the token in front of the label inside an arrow. -/
def opening (a : Arrow) : List Char := a.tail.mark '<' ++ a.start

/-- The line of an arrow without a label inside, with its head. -/
def body (a : Arrow) : List Char := (if a.stroke = .dashed then ['-'] else []) ++ a.closing

/-- The token of an arrow without a label inside. -/
def token (a : Arrow) : List Char := a.tail.mark '<' ++ a.body

end Arrow

theorem Head.ofChar_mark (h : Head) {c : Char} (hc : Head.ofChar c = .none) (front : List Char) :
    Head.ofChar ((front ++ c :: h.mark '>').getLast?.getD '-') = h := by
  cases h with
  | none => simpa [mark] using hc
  | _ => simp [mark, ofChar]

theorem Head.ofChar_line (h : Head) {c : Char} (hc : Head.ofChar c = .none) (front : List Char) (n : Nat) :
    Head.ofChar ((front ++ h.line c n).getLast?.getD '-') = h := by
  cases h with
  | none => simpa [line] using hc
  | _ => simp [line, mark, ofChar]

theorem Head.mark_subset (h : Head) (point : Char) : h.mark point ⊆ [point, 'o', 'x'] := by
  cases h <;> simp [mark]

theorem Head.line_subset (h : Head) (c : Char) (n : Nat) : h.line c n ⊆ [c, '>', 'o', 'x'] := by
  refine List.append_subset.2 ⟨fun d hd => ?_, ?_⟩
  · rw [List.eq_of_mem_replicate hd]
    exact List.mem_cons_self
  · split
    · simp
    · exact List.subset_cons_of_subset c (h.mark_subset '>')

/-- As many ranks as the line of an arrow spans, it has more characters than an arrow needs at least. -/
theorem Head.count_line (h : Head) {c : Char} (hc : c ∉ ['>', 'o', 'x']) (n : Nat) :
    (h.line c n).count c - (if h = .none then 2 else 1) = n := by
  have mark := List.count_eq_zero.2 (mt (@h.mark_subset '>' c) hc)
  by_cases bare : h = .none <;> simp [line, bare, mark]

namespace Arrow

section

variable {opening : Option String} {token : List Char} {head tail : Head} {n : Nat}
  (htail : Head.ofChar ((opening.getD (String.ofList token)).toList.head?.getD '-') = tail)
  (hhead : Head.ofChar (token.getLast?.getD '-') = head) (hn : 1 ≤ n)
include htail hhead hn

theorem ofToken_solid (no : ∀ c ∈ ['~', '.', '='], c ∉ token)
    (length : token.count '-' - (if head = .none then 2 else 1) = n) :
    ofToken opening (String.ofList token) = ⟨.solid, head, tail, n⟩ := by
  obtain ⟨h1, h2, h3⟩ : '~' ∉ token ∧ '.' ∉ token ∧ '=' ∉ token := by simpa using no
  subst htail hhead length
  simp [ofToken, h1, h2, h3, Nat.max_eq_left hn]

theorem ofToken_thick (no : ∀ c ∈ ['~', '.'], c ∉ token)
    (length : token.count '=' - (if head = .none then 2 else 1) = n) :
    ofToken opening (String.ofList token) = ⟨.thick, head, tail, n⟩ := by
  obtain ⟨h1, h2⟩ : '~' ∉ token ∧ '.' ∉ token := by simpa using no
  have h3 : '=' ∈ token := List.count_pos_iff.1 (by omega)
  subst htail hhead length
  simp [ofToken, h1, h2, h3, Nat.max_eq_left hn]

theorem ofToken_dashed (no : '~' ∉ token) (length : token.count '.' = n) :
    ofToken opening (String.ofList token) = ⟨.dashed, head, tail, n⟩ := by
  have h : '.' ∈ token := List.count_pos_iff.1 (by omega)
  subst htail hhead length
  simp [ofToken, no, h]

end

/-- What closes an arrow shows all of it but its tail, whatever stands in front. -/
theorem ofToken_closing {a : Arrow} (ha : a.IsDrawn) {opening : Option String} {front : List Char}
    (hfront : ∀ c ∈ front, c ∈ ['<', 'o', 'x'] ∨ a.stroke = .dashed ∧ c = '-')
    (htail : Head.ofChar ((opening.getD (String.ofList (front ++ a.closing))).toList.head?.getD '-') = a.tail) :
    ofToken opening (String.ofList (front ++ a.closing)) = a := by
  obtain ⟨stroke, head, tail, length⟩ := a
  obtain ⟨hstroke, hlength⟩ := ha
  have absent (c : Char) (hc : c ∉ ['-', '<', 'o', 'x']) : c ∉ front := fun hm =>
    hc ((hfront c hm).elim (List.mem_cons_of_mem _) fun h => h.2 ▸ List.mem_cons_self)
  have unlike {c : Char} (hc : c ∉ ['<', 'o', 'x']) (solid : stroke ≠ .dashed) : c ∉ front := fun hm =>
    (hfront c hm).elim hc fun h => solid h.1
  cases stroke with
  | solid =>
    refine ofToken_solid htail (head.ofChar_line rfl front length) hlength (fun c hc => ?_) ?_
    · have apart : ∀ c ∈ ['~', '.', '='], c ∉ ['-', '<', 'o', 'x'] ∧ c ∉ ['-', '>', 'o', 'x'] := by simp
      exact List.not_mem_append (absent c (apart c hc).1) (mt (@head.line_subset _ length c) (apart c hc).2)
    · rw [List.count_append, List.count_eq_zero.2 (unlike (by decide) nofun), Nat.zero_add]
      exact head.count_line (by decide) length
  | dashed =>
    have shape : front ++ closing ⟨.dashed, head, tail, length⟩ =
        front ++ List.replicate length '.' ++ '-' :: head.mark '>' := (List.append_assoc ..).symm
    rw [shape] at htail ⊢
    have squiggle : '~' ∉ '-' :: head.mark '>' :=
      List.not_mem_cons_of_ne_of_not_mem (by decide) (mt (@head.mark_subset '>' _) (by decide))
    refine ofToken_dashed htail (head.ofChar_mark rfl _) hlength ?_ ?_
    · exact List.not_mem_append (List.not_mem_append (absent _ (by decide)) (by simp)) squiggle
    · have dots : (head.mark '>').count '.' = 0 := List.count_eq_zero.2 (mt (@head.mark_subset '>' _) (by decide))
      simp [List.count_eq_zero.2 (absent '.' (by decide)), dots]
  | thick =>
    refine ofToken_thick htail (head.ofChar_line rfl front length) hlength (fun c hc => ?_) ?_
    · have apart : ∀ c ∈ ['~', '.'], c ∉ ['-', '<', 'o', 'x'] ∧ c ∉ ['=', '>', 'o', 'x'] := by simp
      exact List.not_mem_append (absent c (apart c hc).1) (mt (@head.line_subset _ length c) (apart c hc).2)
    · rw [List.count_append, List.count_eq_zero.2 (unlike (by decide) nofun), Nat.zero_add]
      exact head.count_line (by decide) length
  | invisible => exact absurd rfl hstroke

/-- The token of an arrow shows the arrow. -/
theorem ofToken_token {a : Arrow} (ha : a.IsDrawn) : ofToken none (String.ofList a.token) = a := by
  rw [token, body, ← List.append_assoc]
  refine ofToken_closing ha (fun c hc => ?_) ?_
  · obtain hc | hc := List.mem_append.1 hc
    · exact .inl (a.tail.mark_subset '<' hc)
    · split at hc
      · exact .inr ⟨‹_›, List.mem_singleton.1 hc⟩
      · cases hc
  · obtain ⟨stroke, head, tail, length⟩ := a
    cases stroke <;> cases tail <;> simp [closing, Head.line, Head.mark, Head.ofChar, List.replicate_succ]

/-- A token that a label cuts in two shows the arrow. -/
theorem ofToken_opening {a : Arrow} (ha : a.IsDrawn) :
    ofToken (some (String.ofList a.opening)) (String.ofList a.closing) = a := by
  refine @ofToken_closing a ha _ [] nofun ?_
  obtain ⟨stroke, head, tail, length⟩ := a
  cases stroke <;> cases tail <;> simp [opening, start, Head.mark, Head.ofChar]

end Arrow

end DiagramText.Flowchart
