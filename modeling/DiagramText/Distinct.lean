/-!
# Lists without repetitions

Adding an item to a list leaves the list alone when it already holds the item.
-/

namespace DiagramText.Distinct

variable [BEq α]

/-- The list with the item at its end, unless it holds the item already. -/
def add (items : List α) (item : α) : List α :=
  if items.contains item then items else items ++ [item]

/-- The list with each of the items that it does not hold yet. -/
def addAll (items more : List α) : List α := more.foldl add items

variable [LawfulBEq α]

theorem mem_add {items : List α} {item a : α} : a ∈ add items item ↔ a ∈ items ∨ a = item := by
  unfold add
  split
  · rename_i present
    rw [List.contains_iff_mem] at present
    exact ⟨.inl, fun h => h.elim id fun same => same ▸ present⟩
  · simp

theorem mem_addAll {items more : List α} {a : α} : a ∈ addAll items more ↔ a ∈ items ∨ a ∈ more := by
  induction more generalizing items with
  | nil => simp [addAll]
  | cons item more ih =>
    have := @ih (add items item)
    rw [addAll] at this ⊢
    rw [List.foldl_cons, this, mem_add, List.mem_cons, or_assoc]

/-- Adding an item repeats none. -/
theorem one_lt_count_add {items : List α} {item a : α} :
    1 < (add items item).count a ↔ 1 < items.count a := by
  unfold add
  split
  · rfl
  · rename_i absent
    rw [List.contains_iff_mem] at absent
    rw [List.count_append, List.count_singleton]
    split
    · rename_i same
      rw [beq_iff_eq] at same
      simp [← same, List.count_eq_zero_of_not_mem absent]
    · rfl

theorem count_addAll_of_not_mem {items more : List α} {a : α} (h : a ∉ more) :
    (addAll items more).count a = items.count a := by
  induction more generalizing items with
  | nil => rfl
  | cons item more ih =>
    rw [List.mem_cons, not_or] at h
    have rest := @ih (add items item) h.2
    rw [addAll] at rest ⊢
    rw [List.foldl_cons, rest, add]
    split
    · rfl
    · simp [Ne.symm h.1]

/-- Adding items keeps a list free of repetitions. -/
theorem nodup_add {items : List α} (h : items.Nodup) (item : α) :
    (add items item).Nodup := by
  unfold add
  split
  · exact h
  · rename_i absent
    rw [List.nodup_append]
    refine ⟨h, by simp, ?_⟩
    rintro a ha b hb rfl
    simp_all

theorem nodup_addAll {items : List α} (h : items.Nodup) (more : List α) : (addAll items more).Nodup := by
  induction more generalizing items with
  | nil => exact h
  | cons item more ih => exact ih (nodup_add h item)

theorem add_eraseDups (items : List α) (item : α) :
    add items.eraseDups item = (items ++ [item]).eraseDups := by
  by_cases known : item ∈ items
  · simp [add, List.eraseDups_append, List.removeAll, known]
  · simp [add, List.eraseDups_append, List.removeAll, List.eraseDups_cons, known]

/-- Items that are added one by one stand in the order in which they first come. -/
theorem addAll_eraseDups (items more : List α) :
    addAll items.eraseDups more = (items ++ more).eraseDups := by
  induction more generalizing items with
  | nil => rw [List.append_nil, addAll, List.foldl_nil]
  | cons item more ih => rw [addAll, List.foldl_cons, add_eraseDups, ← addAll, ih, List.append_assoc]; rfl

theorem nodup_eraseDups (items : List α) : items.eraseDups.Nodup := by
  have added := addAll_eraseDups [] items
  rw [List.nil_append] at added
  exact added ▸ nodup_addAll .nil items

end DiagramText.Distinct
