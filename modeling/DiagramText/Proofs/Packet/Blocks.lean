import DiagramText.Packet
import DiagramText.Proofs.Reading
import Mathlib.Data.List.Basic
import Mathlib.Order.Interval.Finset.Nat

/-!
# Blocks of a packet

A block joins a packet behind the last one, or not at all (`addBlock_eq_ok`, `addBits_eq_ok`). So the
blocks of a packet run forward and ascend (`Ascending.concat`), whichever way they are added and whatever
calls fail in between, and nothing is ever wrong with them (`Ascending.issues_eq`).

Blocks that ascend have no bit in common (`Ascending.disjoint`). Their bits taken together are as many as
the numbers that they cover (`Ascending.card_covered`), of which there are `bitLimit` at most.
-/

namespace DiagramText.Packet

/-- The numbers of the bits of a block. -/
def Block.extent (b : Block) : Finset Nat := Finset.Icc b.first b.last

theorem Block.card_extent (b : Block) : b.extent.card = b.bits := Nat.card_Icc b.first b.last

/-- The numbers of the bits in any of the blocks. -/
def covered (blocks : List Block) : Finset Nat := (blocks.map Block.extent).foldr (· ∪ ·) ∅

theorem mem_covered {blocks : List Block} {bit : Nat} :
    bit ∈ covered blocks ↔ ∃ b ∈ blocks, b.first ≤ bit ∧ bit ≤ b.last := by
  induction blocks with
  | nil => simp [covered]
  | cons b blocks ih =>
    rw [covered] at ih
    simp [covered, ih, Block.extent]

/-- Each block runs forward, and ends before those after it start. -/
structure Ascending (blocks : List Block) : Prop where
  forward : ∀ b ∈ blocks, b.first ≤ b.last
  ordered : blocks.Pairwise fun a b => a.last < b.first

namespace Ascending

theorem nil : Ascending [] := ⟨nofun, .nil⟩

theorem tail {b : Block} {blocks : List Block} (h : Ascending (b :: blocks)) : Ascending blocks :=
  ⟨fun a ha => h.forward a (List.mem_cons_of_mem b ha), (List.pairwise_cons.1 h.ordered).2⟩

/-- No block ends behind the last one. -/
theorem le_last {blocks : List Block} {last : Block} (h : Ascending blocks)
    (hlast : blocks.getLast? = some last) : ∀ b ∈ blocks, b.last ≤ last.last := by
  obtain ⟨earlier, rfl⟩ := List.getLast?_eq_some_iff.1 hlast
  intro b hb
  rcases List.mem_append.1 hb with hb | hb
  · have before := (List.pairwise_append.1 h.ordered).2.2 b hb last List.mem_cons_self
    exact before.le.trans (h.forward last (List.mem_append_right _ List.mem_cons_self))
  · exact (List.mem_singleton.1 hb ▸ le_rfl)

/-- A block that starts behind the last one may join. -/
theorem concat {blocks : List Block} {b : Block} (h : Ascending blocks) (forward : b.first ≤ b.last)
    (behind : ∀ previous ∈ blocks.getLast?, previous.last < b.first) : Ascending (blocks ++ [b]) where
  forward a ha := by
    rcases List.mem_append.1 ha with ha | ha
    · exact h.forward a ha
    · exact (List.mem_singleton.1 ha ▸ forward)
  ordered := by
    refine List.pairwise_append.2 ⟨h.ordered, List.pairwise_singleton .., fun a ha c hc => ?_⟩
    obtain rfl := List.mem_singleton.1 hc
    have hprevious := List.getLast?_eq_some_getLast (List.ne_nil_of_mem ha)
    exact (h.le_last hprevious a ha).trans_lt (behind _ hprevious)

/-- No bit is in two blocks. -/
theorem disjoint {blocks : List Block} (h : Ascending blocks) :
    blocks.Pairwise fun a b => Disjoint a.extent b.extent :=
  h.ordered.imp fun before => Finset.disjoint_left.2 fun _ ha hb =>
    absurd ((Finset.mem_Icc.1 ha).2.trans_lt before) (Finset.mem_Icc.1 hb).1.not_gt

/-- The bits of blocks are as many as the numbers that they cover. -/
theorem card_covered {blocks : List Block} (h : Ascending blocks) :
    (covered blocks).card = (blocks.map Block.bits).foldr (· + ·) 0 := by
  induction blocks with
  | nil => rfl
  | cons b blocks ih =>
    have apart : Disjoint b.extent (covered blocks) := by
      refine Finset.disjoint_left.2 fun bit hb hrest => ?_
      obtain ⟨a, ha, hbit, -⟩ := mem_covered.1 hrest
      have before := (List.pairwise_cons.1 h.ordered).1 a ha
      exact absurd ((Finset.mem_Icc.1 hb).2.trans_lt before) hbit.not_gt
    show (b.extent ∪ covered blocks).card = b.bits + _
    rw [Finset.card_union_of_disjoint apart, b.card_extent, ih h.tail]

/-- Where all blocks are below the limit, so are the numbers that they cover. -/
theorem card_covered_le {blocks : List Block} (bounded : ∀ b ∈ blocks, b.last < bitLimit) :
    (covered blocks).card ≤ bitLimit := by
  have below : covered blocks ⊆ Finset.range bitLimit := by
    intro bit hbit
    obtain ⟨b, hb, -, hlast⟩ := mem_covered.1 hbit
    exact Finset.mem_range.2 (hlast.trans_lt (bounded b hb))
  simpa using Finset.card_le_card below

/-- Nothing is wrong with blocks that ascend, except that there may be none. -/
theorem issues_eq {p : Layout} (h : Ascending p.blocks) : p.issues = Issue.ofCount p.entityCount := by
  rw [Layout.issues, Layout.entityCount, List.append_assoc, List.append_right_eq_self, List.append_eq_nil_iff,
    List.filterMap_eq_nil_iff, List.filterMap_eq_nil_iff]
  constructor
  · -- a block and the one after it do not overlap
    rintro ⟨a, b⟩ hpair
    obtain ⟨i, hi, e⟩ := List.mem_iff_getElem.1 hpair
    have hi : 1 + i < p.blocks.length := by
      rw [List.length_zip, List.length_drop] at hi
      omega
    rw [List.getElem_zip, List.getElem_drop, Prod.mk.injEq] at e
    have before := List.pairwise_iff_getElem.1 h.ordered i (1 + i) (by omega) hi (by omega)
    rw [e.1, e.2] at before
    exact if_neg before.not_ge
  · exact fun b hb => if_neg (h.forward b hb).not_gt

end Ascending

/-! ## Adding a block -/

namespace Layout

variable {p q : Layout} {label : String}

theorem addBlock_eq_ok {first last : Nat} :
    p.addBlock first last label = .ok q ↔
      first ≤ last ∧ (∀ previous ∈ p.blocks.getLast?, previous.last < first) ∧
        q = { p with blocks := p.blocks ++ [⟨first, last, label⟩] } := by
  rw [addBlock]
  split
  · simp; omega
  · rename_i forward
    have forward := Nat.not_lt.1 forward
    cases hlast : p.blocks.getLast? with
    | none => simp [forward, eq_comm]
    | some previous =>
      by_cases overlap : first ≤ previous.last
      · simp [Option.filter, overlap, Nat.not_lt.2 overlap]
      · simp [Option.filter, overlap, Nat.not_le.1 overlap, forward, eq_comm]

theorem nextStart_eq_some {first : Nat} :
    p.nextStart = some first ↔
      first < bitLimit ∧
        match p.blocks.getLast? with
        | some block => first = block.last + 1
        | none => first = 0 := by
  rw [nextStart]
  cases p.blocks.getLast? with
  | none => simp [eq_comm]; rintro rfl; decide
  | some block =>
    simp only [Option.ite_none_right_eq_some, Option.some.injEq]
    constructor
    · rintro ⟨h, rfl⟩; exact ⟨h, rfl⟩
    · rintro ⟨h, rfl⟩; exact ⟨h, rfl⟩

/-- A block that starts behind all others is behind the last one. -/
theorem behind_of_nextStart {first : Nat} (h : p.nextStart = some first) :
    ∀ previous ∈ p.blocks.getLast?, previous.last < first := by
  intro previous hprevious
  have := (nextStart_eq_some.1 h).2
  rw [hprevious] at this
  exact this ▸ Nat.lt_succ_self _

theorem addBits_eq_ok {count : Nat} :
    p.addBits count label = .ok q ↔
      0 < count ∧ ∃ first, p.nextStart = some first ∧ first + (count - 1) < bitLimit ∧
        q = { p with blocks := p.blocks ++ [⟨first, first + (count - 1), label⟩] } := by
  rw [addBits]
  split
  · simp; omega
  · rename_i some_bits
    cases hstart : p.nextStart with
    | none => simp
    | some first =>
      have behind := behind_of_nextStart hstart
      dsimp only
      split
      · rename_i fits
        rw [addBlock_eq_ok]
        simp only [Option.some.injEq, exists_eq_left', fits, true_and, Nat.pos_of_ne_zero some_bits,
          Nat.le_add_right, and_iff_right behind]
      · rename_i fits
        simp [fits]

/-- The last number is taken exactly if the last block has it. -/
theorem nextStart_eq_none (bounded : ∀ b ∈ p.blocks, b.last < bitLimit) :
    p.nextStart = none ↔ ∃ b, p.blocks.getLast? = some b ∧ b.last = bitLimit - 1 := by
  rw [nextStart]
  cases hlast : p.blocks.getLast? with
  | none => simp
  | some block =>
    have := bounded block (List.mem_of_getLast? hlast)
    simp only [ite_eq_right_iff, reduceCtorEq, imp_false, Option.some.injEq, exists_eq_left']
    omega

/-- Bits can be added if there are some, and room for them. -/
theorem exists_addBits_iff {count : Nat} :
    (∃ q, p.addBits count label = .ok q) ↔
      1 ≤ count ∧ ∃ first, p.nextStart = some first ∧ first + count - 1 < bitLimit := by
  constructor
  · rintro ⟨q, h⟩
    obtain ⟨some_bits, first, hfirst, fits, -⟩ := addBits_eq_ok.1 h
    exact ⟨some_bits, first, hfirst, by omega⟩
  · rintro ⟨some_bits, first, hfirst, fits⟩
    exact ⟨_, addBits_eq_ok.2 ⟨some_bits, first, hfirst, by omega, rfl⟩⟩

/-- What a block that has been added leaves ascends, whether by its bits or by their count. -/
theorem ascending_add (extent : Extent) (h : Ascending p.blocks) (e : p.add label extent = .ok q) :
    Ascending q.blocks := by
  cases extent with
  | absolute first last =>
    obtain ⟨forward, behind, rfl⟩ := addBlock_eq_ok.1 e
    exact h.concat forward behind
  | relative count =>
    obtain ⟨-, first, hfirst, -, rfl⟩ := addBits_eq_ok.1 e
    exact h.concat (Nat.le_add_right ..) (behind_of_nextStart hfirst)

end Layout

/-- The blocks of a document ascend. -/
theorem ascending_of_read {t : Tree} {p : Layout} (e : read t = .ok p) : Ascending p.blocks := by
  obtain ⟨placed, -, e⟩ := Reading.bind_eq_ok.1 e
  refine Reading.foldlM_invariant (P := fun p : Layout => Ascending p.blocks) ?_ .nil e
  rintro p ⟨offset, caption | ⟨extent, label⟩⟩ q h e
  · cases e
    exact h
  · rw [Layout.apply] at e
    split at e
    · rename_i hadd
      cases e
      exact Layout.ascending_add extent h hadd
    · cases e

end DiagramText.Packet
