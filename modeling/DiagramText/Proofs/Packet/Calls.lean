import DiagramText.Proofs.Packet.Blocks

/-!
# Calls on a packet

A packet is laid out by calls that add a block, given by its bits or by how many they are. Some of them
fail and leave the layout as it was (`Layout.afterCall`). Whatever the calls, the layout is sound: it has
the properties that `Sound` lists (`sound_afterCalls`).

Numbers of bits are words of 32 bits and totals are words of 64. `Machine` carries the calls out on words,
where a sum or a difference that the width does not hold is a trap. A call on words comes to what the call
on the layout comes to (`agrees_run`), and so does a run of calls by induction (`exists_run`). So nothing ever
traps, and a call that fails leaves the words alone.
-/

namespace DiagramText.Packet

/-! ## Words -/

section

variable {w : Nat} {a b c : BitVec w}

/-- The sum of two words, if their width holds it. -/
def sum? (a b : BitVec w) : Option (BitVec w) := if a.uaddOverflow b then none else some (a + b)

/-- The difference of two words, if there is one. -/
def difference? (a b : BitVec w) : Option (BitVec w) := if a.usubOverflow b then none else some (a - b)

/-- The difference of two words, or zero. -/
def differenceOrZero (a b : BitVec w) : BitVec w := (difference? a b).getD 0

theorem sum?_eq_none : sum? a b = none ↔ 2 ^ w ≤ a.toNat + b.toNat := by
  simp [sum?, BitVec.uaddOverflow]

theorem exists_sum? (h : a.toNat + b.toNat < 2 ^ w) :
    ∃ c, sum? a b = some c ∧ c.toNat = a.toNat + b.toNat :=
  ⟨a + b, by simp [sum?, BitVec.uaddOverflow, h], BitVec.toNat_add_of_lt h⟩

theorem exists_difference? (h : b.toNat ≤ a.toNat) :
    ∃ c, difference? a b = some c ∧ c.toNat = a.toNat - b.toNat :=
  ⟨a - b, by simp [difference?, BitVec.usubOverflow, h], BitVec.toNat_sub_of_le h⟩

theorem toNat_differenceOrZero : (differenceOrZero a b).toNat = a.toNat - b.toNat := by
  by_cases h : b.toNat ≤ a.toNat
  · obtain ⟨c, hc, e⟩ := exists_difference? h
    rw [differenceOrZero, hc, Option.getD_some, e]
  · have trapped : difference? a b = none := by simpa [difference?, BitVec.usubOverflow] using h
    rw [differenceOrZero, trapped, Option.getD_none]
    exact (Nat.sub_eq_zero_of_le (Nat.not_le.1 h).le).symm

end

/-- The number of a bit. -/
abbrev Word := BitVec 32

/-- A block between words. -/
structure WordBlock where
  first : Word
  last : Word
  label : String

/-- The block that stands for a block between words. -/
def WordBlock.block (b : WordBlock) : Block := ⟨b.first.toNat, b.last.toNat, b.label⟩

/-- The layout that stands for blocks between words. -/
def layoutOf (blocks : List WordBlock) : Layout := { blocks := blocks.map WordBlock.block }

theorem getLast?_layoutOf (blocks : List WordBlock) :
    (layoutOf blocks).blocks.getLast? = blocks.getLast?.map WordBlock.block :=
  List.getLast?_map

theorem last_lt_bitLimit (blocks : List WordBlock) : ∀ b ∈ (layoutOf blocks).blocks, b.last < bitLimit := by
  intro b hb
  obtain ⟨word, -, rfl⟩ := List.mem_map.1 hb
  exact word.last.isLt

/-! ## The machine -/

/-- A step on blocks of words: it may trap, or fail and leave some blocks, or succeed and do so. -/
abbrev Machine := ExceptT Fallacy (StateT (List WordBlock) Option)

namespace Machine

/-- What a step comes to. -/
def outcome (m : Machine α) (blocks : List WordBlock) : Option (Except Fallacy α × List WordBlock) :=
  m.run.run blocks

section

variable (blocks : List WordBlock)

@[simp] theorem outcome_throw (e : Fallacy) :
    (throw e : Machine α).outcome blocks = some (.error e, blocks) :=
  rfl

@[simp] theorem outcome_modify (f : List WordBlock → List WordBlock) :
    (modify f : Machine Unit).outcome blocks = some (.ok (), f blocks) :=
  rfl

@[simp] theorem outcome_get_bind (f : List WordBlock → Machine α) :
    (get >>= f).outcome blocks = (f blocks).outcome blocks :=
  rfl

@[simp] theorem outcome_lift_bind {a : β} (f : β → Machine α) :
    ((liftM (some a) : Machine β) >>= f).outcome blocks = (f a).outcome blocks :=
  rfl

end

/-- The word behind the last block, if it has a number. -/
def nextStart? (blocks : List WordBlock) : Option Word :=
  match blocks.getLast? with
  | some block => sum? block.last 1
  | none => some 0

/-- Adds a block behind the others. -/
def addBlock (first last : Word) (label : String) : Machine Unit := do
  if last < first then throw (.reversed label first.toNat last.toNat)
  else match (← get).getLast?.filter (first ≤ ·.last) with
    | some previous => throw (.overlap label first.toNat previous.last.toNat)
    | none => modify (· ++ [⟨first, last, label⟩])

/-- Adds a block of so many bits, which follows the others at once. -/
def addBits (count : Word) (label : String) : Machine Unit := do
  if count = 0 then throw (.empty label)
  else match nextStart? (← get) with
    | none => throw (.overflow label)
    | some first =>
      let more ← difference? count 1
      match sum? first more with
      | none => throw (.overflow label)
      | some last => addBlock first last label

end Machine

/-- The number of bits of a block, as a word of 64 bits. -/
def WordBlock.bits? (b : WordBlock) : Option (BitVec 64) :=
  (sum? (b.last.setWidth 64) 1).map (differenceOrZero · (b.first.setWidth 64))

/-- The number of bits in all blocks, as a word of 64 bits. -/
def totalBits? (blocks : List WordBlock) : Option (BitVec 64) :=
  blocks.foldlM (fun total b => do sum? total (← b.bits?)) 0

/-! ## Calls -/

/-- A call that lays out a block. -/
inductive Call where
  | block (first last : Word) (label : String)
  | bits (count : Word) (label : String)

/-- The layout after a call, which may fail. -/
def Layout.call (p : Layout) : Call → Except Fallacy Layout
  | .block first last label => p.addBlock first.toNat last.toNat label
  | .bits count label => p.addBits count.toNat label

/-- The layout after a call: as it was if the call fails. -/
def Layout.afterCall (p : Layout) (c : Call) : Layout :=
  match p.call c with
  | .ok q => q
  | .error _ => p

/-- The layout after calls on an empty one. -/
def Layout.afterCalls (calls : List Call) : Layout := calls.foldl Layout.afterCall {}

/-- Carries out a call on words. -/
def Call.run : Call → Machine Unit
  | .block first last label => Machine.addBlock first last label
  | .bits count label => Machine.addBits count label

/-- The blocks that calls leave, whether each of them fails or not, if none traps. -/
def runCalls? (calls : List Call) : Option (List WordBlock) :=
  calls.foldlM (fun blocks c => (c.run.outcome blocks).map (·.2)) []

/-! ## Agreement -/

/-- A step on words came to what a layout came to. In particular it did not trap, and if it failed it
left the blocks as they were. -/
def Agrees (blocks : List WordBlock) (came : Option (Except Fallacy Unit × List WordBlock)) :
    Except Fallacy Layout → Prop
  | .ok q => ∃ after, came = some (.ok (), after) ∧ layoutOf after = q
  | .error e => came = some (.error e, blocks)

theorem toNat_nextStart? (blocks : List WordBlock) :
    (Machine.nextStart? blocks).map BitVec.toNat = (layoutOf blocks).nextStart := by
  rw [Machine.nextStart?, Layout.nextStart, getLast?_layoutOf]
  cases blocks.getLast? with
  | none => rfl
  | some block =>
    show (sum? block.last 1).map BitVec.toNat = if block.last.toNat + 1 < bitLimit then _ else none
    split
    · rename_i fits
      obtain ⟨c, hc, e⟩ := exists_sum? (b := (1 : Word)) fits
      rw [hc, Option.map_some, e]
      rfl
    · rename_i full
      rw [sum?_eq_none.2 (Nat.not_lt.1 full), Option.map_none]

theorem agrees_addBlock (blocks : List WordBlock) (first last : Word) (label : String) :
    Agrees blocks ((Machine.addBlock first last label).outcome blocks)
      ((layoutOf blocks).addBlock first.toNat last.toNat label) := by
  rw [Layout.addBlock, getLast?_layoutOf, Machine.addBlock]
  by_cases reversed : last < first
  · rw [if_pos (BitVec.lt_def.1 reversed), if_pos reversed]
    rfl
  · rw [if_neg (mt BitVec.lt_def.2 reversed), if_neg reversed]
    have overlap : (blocks.getLast?.map WordBlock.block).filter (first.toNat ≤ ·.last) =
        (blocks.getLast?.filter (first ≤ ·.last)).map WordBlock.block := by
      cases blocks.getLast? <;> simp [Option.filter, WordBlock.block, BitVec.le_def]
    rw [overlap]
    cases hprevious : blocks.getLast?.filter (first ≤ ·.last) with
    | some previous => simp [Agrees, hprevious, WordBlock.block]
    | none => simp [Agrees, hprevious, layoutOf, WordBlock.block]

theorem agrees_addBits (blocks : List WordBlock) (count : Word) (label : String) :
    Agrees blocks ((Machine.addBits count label).outcome blocks)
      ((layoutOf blocks).addBits count.toNat label) := by
  rw [Layout.addBits, ← toNat_nextStart?, Machine.addBits]
  by_cases empty : count = 0
  · subst empty
    rfl
  · have positive : 0 < count.toNat := Nat.pos_of_ne_zero fun h => empty (BitVec.toNat_inj.1 h)
    rw [if_neg positive.ne', if_neg empty, Machine.outcome_get_bind]
    cases Machine.nextStart? blocks with
    | none => rfl
    | some first =>
      obtain ⟨more, hmore, e⟩ := exists_difference? (a := count) (b := 1) positive
      rw [hmore, Machine.outcome_lift_bind, Option.map_some, ← show more.toNat = count.toNat - 1 from e]
      dsimp only
      cases hlast : sum? first more with
      | none =>
        have full : bitLimit ≤ first.toNat + more.toNat := sum?_eq_none.1 hlast
        rw [if_neg full.not_gt]
        rfl
      | some last =>
        have fits : first.toNat + more.toNat < bitLimit :=
          Nat.not_le.1 fun full => Option.some_ne_none _ (hlast.symm.trans (sum?_eq_none.2 full))
        obtain ⟨_, hsum, e⟩ := exists_sum? fits
        obtain rfl := Option.some.inj (hlast.symm.trans hsum)
        rw [if_pos fits, ← e]
        exact agrees_addBlock blocks first last label

theorem agrees_run (blocks : List WordBlock) (c : Call) :
    Agrees blocks (c.run.outcome blocks) ((layoutOf blocks).call c) := by
  cases c with
  | block first last label => exact agrees_addBlock blocks first last label
  | bits count label => exact agrees_addBits blocks count label

/-- Calls on words do not trap, and they leave what the calls on the layout leave. -/
theorem exists_run (calls : List Call) (blocks : List WordBlock) :
    ∃ after, calls.foldlM (fun blocks c => (c.run.outcome blocks).map (·.2)) blocks = some after ∧
      layoutOf after = calls.foldl Layout.afterCall (layoutOf blocks) := by
  induction calls generalizing blocks with
  | nil => exact ⟨blocks, rfl, rfl⟩
  | cons c calls ih =>
    have agrees := agrees_run blocks c
    rw [List.foldlM_cons, List.foldl_cons, Layout.afterCall]
    cases hcall : (layoutOf blocks).call c with
    | error e =>
      rw [hcall] at agrees
      rw [show c.run.outcome blocks = some (.error e, blocks) from agrees]
      exact ih blocks
    | ok q =>
      rw [hcall] at agrees
      obtain ⟨after, h, rfl⟩ := agrees
      rw [h]
      exact ih after

/-! ## Totals -/

theorem exists_bits? (b : WordBlock) : ∃ bits, b.bits? = some bits ∧ bits.toNat = b.block.bits := by
  have hlast : (b.last.setWidth 64).toNat = b.last.toNat := by simp; omega
  have hfirst : (b.first.setWidth 64).toNat = b.first.toNat := by simp; omega
  have fits : (b.last.setWidth 64).toNat + (1 : BitVec 64).toNat < 2 ^ 64 := by
    have := b.last.isLt
    rw [hlast]
    show _ + 1 < _
    omega
  obtain ⟨behind, hbehind, e⟩ := exists_sum? fits
  refine ⟨_, by rw [WordBlock.bits?, hbehind]; rfl, ?_⟩
  rw [toNat_differenceOrZero, e, hlast, hfirst]
  rfl

/-- The total of blocks does not trap where the word holds it. -/
theorem exists_foldlM_bits? (total : BitVec 64) {blocks : List WordBlock}
    (fits : total.toNat + (layoutOf blocks).totalBits < 2 ^ 64) :
    ∃ sum, blocks.foldlM (fun total b => do sum? total (← b.bits?)) total = some sum ∧
      sum.toNat = total.toNat + (layoutOf blocks).totalBits := by
  induction blocks generalizing total with
  | nil => exact ⟨total, rfl, rfl⟩
  | cons b blocks ih =>
    have split : (layoutOf (b :: blocks)).totalBits = b.block.bits + (layoutOf blocks).totalBits := rfl
    obtain ⟨bits, hbits, e⟩ := exists_bits? b
    obtain ⟨next, hnext, e'⟩ := exists_sum? (a := total) (b := bits) (by omega)
    obtain ⟨sum, hsum, e''⟩ := ih next (by omega)
    refine ⟨sum, ?_, by omega⟩
    rw [List.foldlM_cons, hbits]
    show (sum? total bits >>= _) = _
    rw [hnext]
    exact hsum

/-! ## Runs -/

/-- What holds of a layout that calls have laid out. -/
structure Sound (p : Layout) : Prop where
  forward : ∀ b ∈ p.blocks, b.first ≤ b.last
  ordered : p.blocks.Pairwise fun a b => a.last < b.first
  disjoint : p.blocks.Pairwise fun a b => Disjoint a.extent b.extent
  total : p.totalBits = (covered p.blocks).card
  bounded : p.totalBits ≤ 2 ^ 32
  full : p.nextStart = none ↔ ∃ b, p.blocks.getLast? = some b ∧ b.last = 2 ^ 32 - 1
  valid : p.issues = [] ↔ p.blocks ≠ []
  room : ∀ (count : Word) (label : String), (∃ q, p.addBits count.toNat label = .ok q) ↔
    1 ≤ count.toNat ∧ ∃ first, p.nextStart = some first ∧ first + count.toNat - 1 < 2 ^ 32

/-- How blocks of words stand for a layout: the word behind the last block and the total are its own, no
sum of theirs traps, and neither does a further call. -/
structure Carries (blocks : List WordBlock) (p : Layout) : Prop where
  layout : layoutOf blocks = p
  nextStart : (Machine.nextStart? blocks).map BitVec.toNat = p.nextStart
  total : ∃ sum, totalBits? blocks = some sum ∧ sum.toNat = p.totalBits
  call : ∀ c : Call, Agrees blocks (c.run.outcome blocks) (p.call c)

theorem ascending_afterCall {p : Layout} (h : Ascending p.blocks) (c : Call) :
    Ascending (p.afterCall c).blocks := by
  rw [Layout.afterCall]
  split
  · rename_i q hcall
    cases c with
    | block first last label => exact Layout.ascending_add (.absolute first.toNat last.toNat) h hcall
    | bits count label => exact Layout.ascending_add (.relative count.toNat) h hcall
  · exact h

theorem ascending_foldl (calls : List Call) {p : Layout} (h : Ascending p.blocks) :
    Ascending (calls.foldl Layout.afterCall p).blocks := by
  induction calls generalizing p with
  | nil => exact h
  | cons c calls ih => exact ih (ascending_afterCall h c)

theorem sound_of_ascending {p : Layout} (h : Ascending p.blocks) (below : ∀ b ∈ p.blocks, b.last < bitLimit) :
    Sound p where
  forward := h.forward
  ordered := h.ordered
  disjoint := h.disjoint
  total := h.card_covered.symm
  bounded := h.card_covered.symm.trans_le (Ascending.card_covered_le below)
  full := Layout.nextStart_eq_none below
  valid := by
    rw [h.issues_eq, Issue.ofCount, Layout.entityCount]
    cases p.blocks <;> simp
  room _ _ := Layout.exists_addBits_iff

theorem carries_layoutOf {blocks : List WordBlock} (h : (layoutOf blocks).totalBits ≤ 2 ^ 32) :
    Carries blocks (layoutOf blocks) where
  layout := rfl
  nextStart := toNat_nextStart? blocks
  total := by
    have fits : (0 : BitVec 64).toNat + (layoutOf blocks).totalBits < 2 ^ 64 := by
      rw [show (0 : BitVec 64).toNat = 0 from rfl]
      omega
    obtain ⟨sum, hsum, e⟩ := exists_foldlM_bits? 0 fits
    exact ⟨sum, hsum, e.trans (Nat.zero_add _)⟩
  call := agrees_run blocks

/-- Whatever the calls, and whichever of them fail, they leave a sound layout, and they can be carried out
on words. -/
theorem sound_afterCalls (calls : List Call) :
    Sound (Layout.afterCalls calls) ∧
      ∃ blocks, runCalls? calls = some blocks ∧ Carries blocks (Layout.afterCalls calls) := by
  obtain ⟨blocks, hrun, hlayout⟩ := exists_run calls []
  have hlayout : layoutOf blocks = Layout.afterCalls calls := hlayout
  have sound := sound_of_ascending (ascending_foldl calls Ascending.nil) (hlayout ▸ last_lt_bitLimit blocks)
  exact ⟨sound, blocks, hrun, hlayout ▸ carries_layoutOf (hlayout ▸ sound.bounded)⟩

/-- The last bit is taken by its number; a further bit has none. -/
example : Layout.afterCalls [.block 0xfffffffe 0xffffffff "tail", .bits 1 "next", .block 3 2 "reversed"] =
    { blocks := [⟨0xfffffffe, 0xffffffff, "tail"⟩] } := by
  decide

end DiagramText.Packet
