import DiagramText.Proofs.Packet.Calls

/-!
# Rows of a packet

The blocks of a packet are cut at the ends of rows. The parts of a block tile it, and each is in a row of its
own (`tiles_parts`, `increasing_parts`): the first reaches to the end of the block or of its row, and the
others are those of the block from the next row on (`parts_eq_cons`). The rows hold these parts in their
order (`placed_rows`), and no row is left empty or comes twice, because blocks ascend (`partition_rows`).

On words of 64 bits the cutting is a loop, in which each sum, difference, product and quotient may trap, as
does a loop that does not move on, and bits are numbered by words of 32 bits again. None of this ever happens
for blocks that ascend, and the parts are the same (`exists_cuts`).
-/

namespace DiagramText.Packet

/-! ## Parts of a block -/

/-- The parts follow each other from one bit to the bit before another, and have the label. -/
def Tiles (label : String) : Nat → List Block → Nat → Prop
  | first, [], behind => first = behind
  | first, part :: parts, behind =>
    part.first = first ∧ part.first ≤ part.last ∧ part.label = label ∧
      Tiles label (part.last + 1) parts behind

namespace Layout

section

variable {width first last : Nat} {label : String}

/-- The last bit of the row that a bit is in. -/
def rowEnd (width bit : Nat) : Nat := bit / width * width + width - 1

theorem le_rowEnd (positive : 0 < width) (bit : Nat) : bit ≤ rowEnd width bit := by
  have := Nat.lt_div_mul_add positive (a := bit)
  rw [rowEnd]
  omega

/-- The parts of a block that ends in the row where it starts, and those of a block that does not. -/
theorem parts_eq_cons (positive : 0 < width) (forward : first ≤ last) :
    parts width ⟨first, last, label⟩ =
      (first / width, ⟨first, min last (rowEnd width first), label⟩) ::
        if rowEnd width first < last then parts width ⟨rowEnd width first + 1, last, label⟩ else [] := by
  have within := Nat.div_mul_le_self first width
  have behind : rowEnd width first + 1 = (first / width + 1) * width := by
    rw [rowEnd, Nat.succ_mul]
    omega
  have beyond := le_rowEnd positive first
  have rowLe : first / width ≤ last / width := Nat.div_le_div_right forward
  rw [parts, show last / width + 1 - first / width = last / width - first / width + 1 by omega,
    List.range_succ_eq_map, List.map_cons, List.map_map]
  refine congr (congrArg List.cons ?_) ?_
  · simp only [Nat.add_zero, max_eq_left within, rowEnd]
  · split
    · rename_i goesOn
      have next : (rowEnd width first + 1) / width = first / width + 1 := by
        rw [behind, Nat.mul_div_cancel _ positive]
      rw [parts, next, show last / width + 1 - (first / width + 1) = last / width - first / width by omega]
      refine List.map_congr_left fun i _ => ?_
      have row : first / width + (i + 1) = first / width + 1 + i := by omega
      have start : rowEnd width first + 1 ≤ (first / width + 1 + i) * width :=
        behind ▸ Nat.mul_le_mul_right width (Nat.le_add_right _ i)
      simp only [Function.comp_apply, Nat.succ_eq_add_one, row, max_eq_right start,
        max_eq_right (show first ≤ (first / width + 1 + i) * width by omega)]
    · rename_i ends
      have here : last / width ≤ first / width := by
        rw [← Nat.lt_succ_iff, Nat.div_lt_iff_lt_mul positive, Nat.succ_eq_add_one, ← behind]
        omega
      rw [Nat.sub_eq_zero_of_le here]
      rfl

theorem tiles_parts (positive : 0 < width) (forward : first ≤ last) :
    Tiles label first ((parts width ⟨first, last, label⟩).map (·.2)) (last + 1) := by
  induction h : last - first using Nat.strong_induction_on generalizing first with
  | _ n ih =>
    have beyond := le_rowEnd positive first
    rw [parts_eq_cons positive forward, List.map_cons]
    refine ⟨rfl, le_min forward beyond, rfl, ?_⟩
    split
    · rename_i goesOn
      rw [min_eq_right goesOn.le]
      have shorter : last - (rowEnd width first + 1) < n := by omega
      exact ih _ shorter (Nat.succ_le_of_lt goesOn) rfl
    · rename_i ends
      rw [min_eq_left (Nat.not_lt.1 ends)]
      rfl

end

section

variable {width : Nat}

theorem within_parts {b : Block} {p : Nat × Block} (h : p ∈ parts width b) :
    p.1 * width ≤ p.2.first ∧ p.2.last ≤ p.1 * width + width - 1 := by
  obtain ⟨i, -, rfl⟩ := List.mem_map.1 h
  exact ⟨Nat.le_max_right .., Nat.min_le_right ..⟩

theorem row_of_mem_parts {b : Block} {p : Nat × Block} (h : p ∈ parts width b) :
    b.first / width ≤ p.1 ∧ p.1 ≤ b.last / width := by
  obtain ⟨i, hi, rfl⟩ := List.mem_map.1 h
  have := List.mem_range.1 hi
  refine ⟨?_, ?_⟩ <;> simp only <;> omega

/-- Each part of a block is in a row behind that of the part before it. -/
theorem increasing_parts (width : Nat) (b : Block) : (parts width b).Pairwise (·.1 < ·.1) := by
  rw [parts, List.pairwise_map]
  exact List.pairwise_lt_range.imp fun lt => Nat.add_lt_add_left lt _

/-- The parts of blocks that ascend are in rows that do not go back. -/
theorem ordered_parts {blocks : List Block} (h : Ascending blocks) :
    (blocks.flatMap (parts width)).Pairwise (·.1 ≤ ·.1) := by
  refine List.pairwise_flatMap.2 ⟨fun b _ => (increasing_parts width b).imp Nat.le_of_lt, ?_⟩
  refine h.ordered.imp fun {a b} before p hp q hq => ?_
  have rows : a.last / width ≤ b.first / width := Nat.div_le_div_right before.le
  exact ((row_of_mem_parts hp).2.trans rows).trans (row_of_mem_parts hq).1

end

end Layout

/-! ## Rows of parts -/

/-- The parts in a row, each with the number of the row. -/
def Row.placed (row : Row) : List (Nat × Block) := row.blocks.map (row.index, ·)

/-- The numbers of rows increase, and none of the rows is empty. -/
structure Stacked (rows : List Row) : Prop where
  increasing : rows.Pairwise fun a b => a.index < b.index
  inhabited : ∀ row ∈ rows, row.blocks ≠ []

theorem stacked_concat {rows : List Row} {row : Row} :
    Stacked (rows ++ [row]) ↔ Stacked rows ∧ (∀ r ∈ rows, r.index < row.index) ∧ row.blocks ≠ [] := by
  constructor
  · rintro ⟨increasing, inhabited⟩
    obtain ⟨before, -, apart⟩ := List.pairwise_append.1 increasing
    obtain ⟨others, last⟩ := List.forall_mem_append.1 inhabited
    exact ⟨⟨before, others⟩, fun r hr => apart r hr row List.mem_cons_self, last row List.mem_cons_self⟩
  · rintro ⟨stacked, apart, last⟩
    refine ⟨List.pairwise_append.2 ⟨stacked.increasing, List.pairwise_singleton .., fun r hr => ?_⟩, ?_⟩
    · exact List.forall_mem_singleton.2 (apart r hr)
    · exact List.forall_mem_append.2 ⟨stacked.inhabited, List.forall_mem_singleton.2 last⟩

namespace Layout

/-- Parts with a row as number join the last row if it is this one, and otherwise make up a new one. -/
theorem addPart_cases (rows : List Row) (p : Nat × Block) :
    (∃ earlier row, rows = earlier ++ [row] ∧ row.index = p.1 ∧
      addPart rows p = earlier ++ [⟨p.1, row.blocks ++ [p.2]⟩]) ∨
    ((∀ row ∈ rows.getLast?, row.index ≠ p.1) ∧ addPart rows p = rows ++ [⟨p.1, [p.2]⟩]) := by
  obtain ⟨index, part⟩ := p
  rw [addPart]
  cases hlast : rows.getLast? with
  | none =>
    rw [List.getLast?_eq_none_iff.1 hlast]
    exact .inr ⟨nofun, rfl⟩
  | some row =>
    obtain ⟨earlier, rfl⟩ := List.getLast?_eq_some_iff.1 hlast
    dsimp only
    split
    · rename_i same
      refine .inl ⟨earlier, row, rfl, same, ?_⟩
      rw [List.dropLast_concat, ← same]
    · rename_i other
      refine .inr ⟨fun row' h => ?_, rfl⟩
      rw [← Option.some.inj h]
      exact other

theorem placed_addPart (rows : List Row) (p : Nat × Block) :
    (addPart rows p).flatMap Row.placed = rows.flatMap Row.placed ++ [p] := by
  obtain ⟨earlier, row, rfl, same, e⟩ | ⟨-, e⟩ := addPart_cases rows p
  · rw [e, List.flatMap_append, List.flatMap_append, List.append_assoc]
    simp [Row.placed, same]
  · rw [e, List.flatMap_append]
    rfl

theorem placed_foldl (parts : List (Nat × Block)) (rows : List Row) :
    (parts.foldl addPart rows).flatMap Row.placed = rows.flatMap Row.placed ++ parts := by
  induction parts generalizing rows with
  | nil => exact (List.append_nil _).symm
  | cons p parts ih => rw [List.foldl_cons, ih, placed_addPart, List.append_assoc, List.singleton_append]

/-- A part that is in none of the rows before the last keeps them stacked. -/
theorem stacked_addPart {rows : List Row} {p : Nat × Block} (h : Stacked rows)
    (behind : ∀ row ∈ rows, row.index ≤ p.1) :
    Stacked (addPart rows p) ∧ ∀ row ∈ addPart rows p, row.index ≤ p.1 := by
  obtain ⟨earlier, row, rfl, same, e⟩ | ⟨other, e⟩ := addPart_cases rows p
  · obtain ⟨stacked, apart, -⟩ := stacked_concat.1 h
    rw [e]
    refine ⟨stacked_concat.2 ⟨stacked, same ▸ apart, List.concat_ne_nil _ _⟩, ?_⟩
    exact List.forall_mem_append.2
      ⟨fun a ha => behind a (List.mem_append_left _ ha), List.forall_mem_singleton.2 (Nat.le_refl _)⟩
  · have below : ∀ row ∈ rows, row.index < p.1 := by
      obtain rfl | ⟨earlier, last, rfl⟩ := rows.eq_nil_or_concat'
      · exact fun _ hrow => absurd hrow List.not_mem_nil
      · have lastLt : last.index < p.1 :=
          Nat.lt_of_le_of_ne (behind last List.mem_concat_self) (other last List.getLast?_concat)
        exact List.forall_mem_append.2
          ⟨fun row hrow => ((stacked_concat.1 h).2.1 row hrow).trans lastLt, List.forall_mem_singleton.2 lastLt⟩
    rw [e]
    refine ⟨stacked_concat.2 ⟨h, below, List.cons_ne_nil _ _⟩, ?_⟩
    exact List.forall_mem_append.2 ⟨behind, List.forall_mem_singleton.2 (Nat.le_refl _)⟩

/-- Parts whose rows do not go back make up a stack of rows. -/
theorem stacked_foldl {parts : List (Nat × Block)} (ordered : parts.Pairwise (·.1 ≤ ·.1)) {rows : List Row}
    (h : Stacked rows) (behind : ∀ row ∈ rows, ∀ p ∈ parts, row.index ≤ p.1) :
    Stacked (parts.foldl addPart rows) := by
  induction parts generalizing rows with
  | nil => exact h
  | cons p parts ih =>
    obtain ⟨later, ordered⟩ := List.pairwise_cons.1 ordered
    obtain ⟨stacked, upTo⟩ := stacked_addPart h fun row hrow => behind row hrow p List.mem_cons_self
    exact ih ordered stacked fun row hrow q hq => (upTo row hrow).trans (later q hq)

end Layout

/-! ## Partitions -/

/-- The rows partition the blocks: what they hold, one after the other, are the parts of one block after
those of another, in order and without a gap or an overlap; each part is in a row that has its bits, and no
two parts of a block are in the same row. -/
structure Partition (blocks : List Block) (width : Nat) (rows : List Row) : Prop where
  cut : ∃ cuts : List (List (Nat × Block)), cuts.flatten = rows.flatMap Row.placed ∧
    List.Forall₂ (fun (b : Block) parts => Tiles b.label b.first (parts.map (·.2)) (b.last + 1) ∧
      parts.Pairwise (·.1 < ·.1)) blocks cuts
  within : ∀ row ∈ rows, ∀ part ∈ row.blocks,
    row.index * width ≤ part.first ∧ part.last ≤ row.index * width + width - 1
  stacked : Stacked rows

theorem placed_rows (p : Layout) (width : Nat) :
    (p.rows width).flatMap Row.placed = p.blocks.flatMap (Layout.parts (max width 1)) :=
  (Layout.placed_foldl _ []).trans (List.nil_append _)

/-- The rows of blocks that ascend partition them. -/
theorem partition_rows {p : Layout} (h : Ascending p.blocks) (width : Nat) :
    Partition p.blocks (max width 1) (p.rows width) where
  cut := by
    refine ⟨p.blocks.map (Layout.parts (max width 1)), ?_, ?_⟩
    · rw [placed_rows, List.flatMap_def]
    · refine List.forall₂_map_right_iff.2 (List.forall₂_same.2 fun b hb => ⟨?_, ?_⟩)
      · exact Layout.tiles_parts (Nat.lt_of_lt_of_le Nat.one_pos (Nat.le_max_right ..)) (h.forward b hb)
      · exact Layout.increasing_parts _ b
  within row hrow part hpart := by
    have placed : (row.index, part) ∈ (p.rows width).flatMap Row.placed :=
      List.mem_flatMap.2 ⟨row, hrow, List.mem_map.2 ⟨part, hpart, rfl⟩⟩
    rw [placed_rows] at placed
    obtain ⟨b, -, hb⟩ := List.mem_flatMap.1 placed
    exact Layout.within_parts hb
  stacked := Layout.stacked_foldl (Layout.ordered_parts h) ⟨.nil, nofun⟩ nofun

/-! ## Rows on words -/

section

variable {w : Nat} {a b : BitVec w}

/-- The product of two words, if their width holds it. -/
def product? (a b : BitVec w) : Option (BitVec w) := if a.umulOverflow b then none else some (a * b)

/-- The quotient of two words, if there is one. -/
def quotient? (a b : BitVec w) : Option (BitVec w) := if b.toNat = 0 then none else some (a / b)

theorem exists_product? (h : a.toNat * b.toNat < 2 ^ w) :
    ∃ c, product? a b = some c ∧ c.toNat = a.toNat * b.toNat :=
  ⟨a * b, by simp [product?, BitVec.umulOverflow, h], BitVec.toNat_mul_of_lt h⟩

theorem exists_quotient? (h : 0 < b.toNat) : ∃ c, quotient? a b = some c ∧ c.toNat = a.toNat / b.toNat :=
  ⟨a / b, if_neg h.ne', BitVec.toNat_udiv⟩

end

/-- A number of a bit in 32 bits, or the greatest there is. -/
def clamp (bit : BitVec 64) : Word := if bit.toNat < bitLimit then bit.setWidth 32 else BitVec.allOnes 32

/-- A number of a bit in 32 bits, if they hold it. -/
def narrow? (bit : BitVec 64) : Option Word := if bit.toNat < bitLimit then some (bit.setWidth 32) else none

/-- Where 32 bits hold the number of a bit, clamping does not change it. -/
theorem exists_narrow? (bit : BitVec 64) (h : bit.toNat < bitLimit) :
    ∃ c, narrow? bit = some c ∧ clamp bit = c ∧ c.toNat = bit.toNat := by
  refine ⟨bit.setWidth 32, if_pos h, if_pos h, ?_⟩
  rw [BitVec.toNat_setWidth]
  exact Nat.mod_eq_of_lt h

/-- A part of a block between words, with the number of its row. -/
structure WordPart where
  row : BitVec 64
  block : WordBlock

/-- The part that stands for a part between words. -/
def WordPart.part (p : WordPart) : Nat × Block := (p.row.toNat, p.block.block)

/-- The row of the part that starts at a bit, the end of the part, and the bit behind it. -/
def round? (width last start : BitVec 64) : Option (BitVec 64 × BitVec 64 × BitVec 64) := do
  let row ← quotient? start width
  let behind ← product? (← sum? row 1) width
  let rowEnd ← difference? behind 1
  let stop := if rowEnd < last then rowEnd else last
  return (row, stop, ← sum? stop 1)

/-- The parts of a block from a bit on, where `narrow` numbers their bits; a loop that does not move on has
none. -/
def cut? (narrow : BitVec 64 → Option Word) (width : BitVec 64) (b : WordBlock) (start : BitVec 64) :
    Option (List WordPart) :=
  if start ≤ b.last.setWidth 64 then do
    let (row, stop, next) ← round? width (b.last.setWidth 64) start
    let part : WordPart := ⟨row, ⟨← narrow start, ← narrow stop, b.label⟩⟩
    if start < next then return part :: (← cut? narrow width b next) else none
  else some []
termination_by b.last.toNat + 1 - start.toNat
decreasing_by
  rename_i within _ _ moves
  rw [BitVec.le_def, BitVec.toNat_setWidth_of_le (by decide)] at within
  rw [BitVec.lt_def] at moves
  omega

/-- The rows of blocks between words, where `narrow` numbers the bits of their parts. -/
def rows? (narrow : BitVec 64 → Option Word) (perRow : Word) (blocks : List WordBlock) :
    Option (List Row) := do
  let width := if perRow = 0 then 1 else perRow
  let cuts ← blocks.mapM fun b => cut? narrow (width.setWidth 64) b (b.first.setWidth 64)
  return (cuts.flatten.map WordPart.part).foldl Layout.addPart []

section

variable {width : BitVec 64} (positive : 0 < width.toNat) (narrow : width.toNat < bitLimit)
include positive narrow

/-- Nothing that a round computes leaves the range of its words. -/
theorem exists_round? (last start : BitVec 64) (within : start.toNat ≤ last.toNat)
    (bounded : last.toNat < bitLimit) :
    ∃ row stop next, round? width last start = some (row, stop, next) ∧
      row.toNat = start.toNat / width.toNat ∧
      stop.toNat = min last.toNat (Layout.rowEnd width.toNat start.toNat) ∧
      next.toNat = stop.toNat + 1 := by
  have one : (1 : BitVec 64).toNat = 1 := rfl
  have inRow := Nat.div_mul_le_self start.toNat width.toNat
  have small := Nat.div_le_self start.toNat width.toNat
  simp only [bitLimit] at narrow bounded
  obtain ⟨row, hrow, rowEq⟩ := exists_quotient? (a := start) positive
  obtain ⟨after, hafter, afterEq⟩ := exists_sum? (a := row) (b := 1)
    (by rw [one]; omega)
  rw [one] at afterEq
  have behindEq : after.toNat * width.toNat = start.toNat / width.toNat * width.toNat + width.toNat := by
    rw [afterEq, rowEq, Nat.succ_mul]
  obtain ⟨behind, hbehind, behindEq'⟩ := exists_product? (a := after) (b := width) (by omega)
  obtain ⟨rowEnd, hrowEnd, rowEndEq⟩ := exists_difference? (a := behind) (b := 1)
    (by rw [one]; omega)
  rw [one, behindEq', behindEq] at rowEndEq
  have stopEq : (if rowEnd < last then rowEnd else last).toNat =
      min last.toNat (Layout.rowEnd width.toNat start.toNat) := by
    rw [Layout.rowEnd, ← rowEndEq]
    split
    · rename_i before
      exact (min_eq_right (BitVec.lt_def.1 before).le).symm
    · rename_i behind
      exact (min_eq_left (Nat.not_lt.1 (mt BitVec.lt_def.2 behind))).symm
  obtain ⟨next, hnext, nextEq⟩ := exists_sum? (a := if rowEnd < last then rowEnd else last) (b := 1)
    (by rw [one, stopEq]; omega)
  refine ⟨row, _, next, ?_, rowEq, stopEq, nextEq⟩
  simp only [round?, hrow, hafter, hbehind, hrowEnd, hnext, Option.bind_eq_bind, Option.bind_some]
  rfl

/-- The loop ends, whichever way the bits of the parts are numbered, and the parts are those of the block. -/
theorem exists_cut? (b : WordBlock) (start : BitVec 64) (within : start.toNat ≤ b.last.toNat + 1) :
    ∃ cut, cut? narrow? width b start = some cut ∧ cut? (some <| clamp ·) width b start = some cut ∧
      cut.map WordPart.part =
        if start.toNat ≤ b.last.toNat then Layout.parts width.toNat ⟨start.toNat, b.last.toNat, b.label⟩
        else [] := by
  have lastEq : (b.last.setWidth 64).toNat = b.last.toNat := BitVec.toNat_setWidth_of_le (by decide)
  have bounded : b.last.toNat < bitLimit := b.last.isLt
  induction h : b.last.toNat + 1 - start.toNat using Nat.strong_induction_on generalizing start with
  | _ n ih =>
    rw [cut?, cut?]
    by_cases before : start.toNat ≤ b.last.toNat
    · have goesOn : start ≤ b.last.setWidth 64 := BitVec.le_def.2 (lastEq ▸ before)
      obtain ⟨row, stop, next, hround, rowEq, stopEq, nextEq⟩ :=
        exists_round? positive narrow (b.last.setWidth 64) start (lastEq ▸ before) (lastEq ▸ bounded)
      rw [lastEq] at stopEq
      have beyond := Layout.le_rowEnd positive start.toNat
      obtain ⟨first, hfirst, clamped, firstEq⟩ := exists_narrow? start (by omega)
      obtain ⟨final, hfinal, clamped', finalEq⟩ := exists_narrow? stop (by omega)
      have moves : start < next := BitVec.lt_def.2 (by omega)
      obtain ⟨rest, hrest, hrest', restEq⟩ :=
        ih (b.last.toNat + 1 - next.toNat) (by omega) next (by omega) rfl
      refine ⟨⟨row, ⟨first, final, b.label⟩⟩ :: rest, ?_, ?_, ?_⟩
      · rw [if_pos goesOn, hround]
        simp only [Option.bind_eq_bind, Option.bind_some, hfirst, hfinal, if_pos moves, hrest]
        rfl
      · rw [if_pos goesOn, hround]
        simp only [Option.bind_eq_bind, Option.bind_some, clamped, clamped', if_pos moves, hrest']
        rfl
      · rw [if_pos before, List.map_cons, restEq, Layout.parts_eq_cons positive before]
        refine congr (congrArg List.cons ?_) ?_
        · rw [WordPart.part, WordBlock.block, rowEq, firstEq, finalEq, stopEq]
        · by_cases goesOn : Layout.rowEnd width.toNat start.toNat < b.last.toNat
          · have nextEq : next.toNat = Layout.rowEnd width.toNat start.toNat + 1 := by omega
            rw [if_pos (by omega), if_pos goesOn, nextEq]
          · rw [if_neg (by omega), if_neg goesOn]
    · have ended : ¬start ≤ b.last.setWidth 64 := fun le => before (lastEq ▸ BitVec.le_def.1 le)
      rw [if_neg ended, if_neg ended, if_neg before]
      exact ⟨[], rfl, rfl, rfl⟩

/-- So it does for each of several blocks. -/
theorem exists_mapM_cut? {blocks : List WordBlock}
    (forward : ∀ b ∈ blocks, b.first.toNat ≤ b.last.toNat) :
    ∃ cuts, blocks.mapM (fun b => cut? narrow? width b (b.first.setWidth 64)) = some cuts ∧
      blocks.mapM (fun b => cut? (some <| clamp ·) width b (b.first.setWidth 64)) = some cuts ∧
      cuts.flatten.map WordPart.part = (blocks.map WordBlock.block).flatMap (Layout.parts width.toNat) := by
  induction blocks with
  | nil => exact ⟨[], rfl, rfl, rfl⟩
  | cons b blocks ih =>
    obtain ⟨cuts, hcuts, hcuts', cutsEq⟩ := ih fun b hb => forward b (List.mem_cons_of_mem _ hb)
    have firstEq : (b.first.setWidth 64).toNat = b.first.toNat := BitVec.toNat_setWidth_of_le (by decide)
    have forward := forward b List.mem_cons_self
    obtain ⟨cut, hcut, hcut', cutEq⟩ := exists_cut? positive narrow b (b.first.setWidth 64) (by omega)
    rw [firstEq, if_pos forward] at cutEq
    refine ⟨cut :: cuts, ?_, ?_, ?_⟩
    · rw [List.mapM_cons, hcut, hcuts]
      rfl
    · rw [List.mapM_cons, hcut', hcuts']
      rfl
    · rw [List.flatten_cons, List.map_append, cutEq, cutsEq, List.map_cons, List.flatMap_cons]
      rfl

end

theorem exists_cuts (perRow : Word) (blocks : List WordBlock)
    (forward : ∀ b ∈ blocks, b.first.toNat ≤ b.last.toNat) :
    rows? narrow? perRow blocks = some ((layoutOf blocks).rows perRow.toNat) ∧
      rows? (some <| clamp ·) perRow blocks = some ((layoutOf blocks).rows perRow.toNat) := by
  have widthEq : ((if perRow = 0 then 1 else perRow).setWidth 64).toNat = max perRow.toNat 1 := by
    rw [BitVec.toNat_setWidth_of_le (by decide)]
    split
    · rename_i zero
      rw [zero]
      rfl
    · rename_i nonzero
      exact (max_eq_left (Nat.pos_of_ne_zero fun h => nonzero (BitVec.toNat_inj.1 h))).symm
  have narrow : max perRow.toNat 1 < bitLimit := max_lt perRow.isLt (by decide)
  obtain ⟨cuts, hcuts, hcuts', cutsEq⟩ := exists_mapM_cut? (widthEq ▸ Nat.lt_of_lt_of_le Nat.one_pos
    (Nat.le_max_right ..)) (widthEq ▸ narrow) forward
  have rows : (cuts.flatten.map WordPart.part).foldl Layout.addPart [] =
      (layoutOf blocks).rows perRow.toNat := by
    rw [cutsEq, widthEq]
    rfl
  rw [← rows]
  exact ⟨by simp only [rows?, hcuts]; rfl, by simp only [rows?, hcuts']; rfl⟩

/-- Whatever the calls, the rows of any width partition the blocks that they leave. The loop on words that
cuts the blocks ends without a trap and leaves these rows, and clamping the numbers of bits changes none. -/
theorem rows_partition (calls : List Call) (perRow : Word) :
    Partition (Layout.afterCalls calls).blocks (max perRow.toNat 1)
        ((Layout.afterCalls calls).rows perRow.toNat) ∧
      ∃ blocks, runCalls? calls = some blocks ∧ layoutOf blocks = Layout.afterCalls calls ∧
        rows? narrow? perRow blocks = some ((Layout.afterCalls calls).rows perRow.toNat) ∧
        rows? (some <| clamp ·) perRow blocks = some ((Layout.afterCalls calls).rows perRow.toNat) := by
  have ascending : Ascending (Layout.afterCalls calls).blocks := ascending_foldl calls Ascending.nil
  obtain ⟨blocks, hrun, hlayout⟩ := exists_run calls []
  have hlayout : layoutOf blocks = Layout.afterCalls calls := hlayout
  have forward : ∀ b ∈ blocks, b.first.toNat ≤ b.last.toNat := fun b hb =>
    ascending.forward b.block (hlayout ▸ List.mem_map_of_mem hb)
  exact ⟨partition_rows ascending perRow.toNat, blocks, hrun, hlayout,
    hlayout ▸ exists_cuts perRow blocks forward⟩

end DiagramText.Packet
