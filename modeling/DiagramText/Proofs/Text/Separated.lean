import DiagramText.Proofs.Text.Blank
import DiagramText.Text.Separated

/-!
# Lists inside a text

A list is read item by item. It goes on behind a separator that another item follows (`separated_more`). It ends with
an item that no separator follows (`separated_last`), or with a separator that no item follows where one may trail
(`separated_trailing`). What every item read is true of is true of the items of the list (`forall_mem_separated`).
-/

namespace DiagramText.Separated

open Chars

theorem skipChar_first {c : Char} (full : isBlank c = false) (rest : List Char) :
    skipChar c (Chars.trimStart (c :: rest)) = some rest := by
  rw [trimStart_cons_of_not_blank full, skipChar, if_pos rfl]

variable {α : Type} {item : Reader α} {separator : List Char → Option (List Char)} {trailing : Bool} {a b : α}
  {as : List α} {tick : Char} {clock cs rest next last : List Char}

theorem separated_last (read : item cs = some (a, rest)) (stop : separator rest = none) :
    separated item separator trailing clock cs = ([a], rest) := by
  simp only [separated_of_some read, stop]

theorem separated_trailing (read : item cs = some (a, rest)) (go : separator rest = some next)
    (stop : item next = none) : separated item separator true (tick :: clock) cs = ([a], next) := by
  have none_left : separated item separator true clock next = ([], next) := by
    rw [separated, stop]
  simp only [separated_of_some read, go, none_left]
  rfl

theorem separated_more (read : item cs = some (a, rest)) (go : separator rest = some next)
    (more : separated item separator trailing clock next = (b :: as, last)) :
    separated item separator trailing (tick :: clock) cs = (a :: b :: as, last) := by
  simp only [separated_of_some read, go, more]

/-- Every item of a list was read somewhere, and where it was read may be told from what separators lead to. -/
theorem forall_mem_separated {Start : List Char → Prop} {P : α → Prop}
    (hsep : ∀ cs next, separator cs = some next → Start next)
    (hitem : ∀ cs a rest, Start cs → item cs = some (a, rest) → P a) (hcs : Start cs) :
    ∀ a ∈ (separated item separator trailing clock cs).1, P a := by
  fun_induction separated item separator trailing clock cs with
  | case1 => nofun
  | case2 cs a rest hread =>
    intro b hb
    obtain rfl := List.mem_singleton.1 hb
    exact hitem cs b rest hcs hread
  | case3 cs a rest hread next _ clock hnext as _ _ hread' ih =>
    intro b hb
    rw [hread'] at ih
    obtain rfl | hb := List.mem_cons.1 hb
    · exact hitem cs b rest hcs hread
    · exact ih (hsep rest next hnext) b hb
  | case4 _ cs a rest hread =>
    intro b hb
    obtain rfl := List.mem_singleton.1 hb
    exact hitem cs b rest hcs hread

end DiagramText.Separated
