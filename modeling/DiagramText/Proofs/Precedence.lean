/-!
# What stands before what

`Precedes p q items` says that in a list an item with `p` stands somewhere before an item with `q`. For two
lists one after the other it holds in one of them, or of an item in the first and an item in the second
(`precedes_append`), so that it can be followed through a list that grows at its end.
-/

namespace DiagramText

open List

/-- Whether an item with the first property stands before an item with the second. -/
def Precedes (p q : α → Prop) (items : List α) : Prop := ∃ a b, [a, b] <+ items ∧ p a ∧ q b

variable {p q : α → Prop} {items more : List α}

theorem Precedes.of_sublist (h : Precedes p q items) (part : items <+ more) : Precedes p q more := by
  obtain ⟨a, b, pair, ha, hb⟩ := h
  exact ⟨a, b, pair.trans part, ha, hb⟩

theorem Precedes.exists_mem (h : Precedes p q items) : ∃ a ∈ items, p a := by
  obtain ⟨a, b, pair, ha, -⟩ := h
  exact ⟨a, pair.subset (by simp), ha⟩

theorem not_precedes_nil : ¬ Precedes p q [] := by
  rintro ⟨a, b, pair, -, -⟩
  cases pair

theorem not_precedes_singleton (item : α) : ¬ Precedes p q [item] := by
  rintro ⟨a, b, pair, -, -⟩
  exact absurd pair.length_le (by simp)

theorem precedes_append : Precedes p q (items ++ more) ↔
    Precedes p q items ∨ Precedes p q more ∨ (∃ a ∈ items, p a) ∧ ∃ b ∈ more, q b := by
  constructor
  · rintro ⟨a, b, pair, ha, hb⟩
    obtain ⟨first, second, split, hfirst, hsecond⟩ := sublist_append_iff.1 pair
    match first, second, split with
    | [], _, rfl => exact .inr (.inl ⟨a, b, hsecond, ha, hb⟩)
    | [_], _, rfl =>
      exact .inr (.inr ⟨⟨a, hfirst.subset (by simp), ha⟩, b, hsecond.subset (by simp), hb⟩)
    | [_, _], _, rfl => exact .inl ⟨a, b, hfirst, ha, hb⟩
  · rintro (h | h | ⟨⟨a, hitems, ha⟩, b, hmore, hb⟩)
    · exact h.of_sublist (sublist_append_left _ _)
    · exact h.of_sublist (sublist_append_right _ _)
    · exact ⟨a, b, (singleton_sublist.2 hitems).append (singleton_sublist.2 hmore), ha, hb⟩

end DiagramText
