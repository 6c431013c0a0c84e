import DiagramText.Captions
import DiagramText.Issue
import DiagramText.Peg.Grammar
import DiagramText.Peg.Lexeme

/-!
# Packets

The layout of a packet: blocks of bits, each from a first to a last bit, in ascending order and
without overlap. Bits are numbered below `2 ^ 32`. For drawing, the blocks are cut into rows of equal
length.
-/

namespace DiagramText.Packet

/-- The numbers of bits stay below this. -/
def bitLimit : Nat := 0x100000000

/-- Bits with a common label, from the first to the last. -/
structure Block where
  first : Nat
  last : Nat
  label : String
deriving DecidableEq, Inhabited

/-- The number of bits of a block. -/
def Block.bits (b : Block) : Nat := b.last + 1 - b.first

/-- Why a block cannot be added. -/
inductive Fallacy where
  | reversed (label : String) (first last : Nat)
  | overlap (label : String) (first previousLast : Nat)
  | empty (label : String)
  | overflow (label : String)
deriving DecidableEq

instance : Complaint Fallacy where
  message
    | .reversed label first last =>
      "block '" ++ label ++ "' ends at bit " ++ toString last ++ ", before its start " ++
        toString first
    | .overlap label first previousLast =>
      "block '" ++ label ++ "' starts at bit " ++ toString first ++
        ", inside the previous block ending at " ++ toString previousLast
    | .empty label => "block '" ++ label ++ "' has no bits"
    | .overflow label => "block '" ++ label ++ "' runs past the last addressable bit"

/-- The layout of a packet. -/
structure Layout where
  captions : Captions := {}
  blocks : List Block := []
deriving DecidableEq, Inhabited

/-- A row: its number and the parts of blocks in it. -/
structure Row where
  index : Nat
  blocks : List Block
deriving DecidableEq, Inhabited

namespace Layout

/-- The first bit behind the blocks, if it has a number. -/
def nextStart (p : Layout) : Option Nat :=
  match p.blocks.getLast? with
  | some block => if block.last + 1 < bitLimit then some (block.last + 1) else none
  | none => some 0

/-- The layout with one more block, which must lie behind the others. -/
def addBlock (p : Layout) (first last : Nat) (label : String) : Except Fallacy Layout :=
  if last < first then .error (.reversed label first last)
  else match p.blocks.getLast?.filter (first ≤ ·.last) with
    | some previous => .error (.overlap label first previous.last)
    | none => .ok { p with blocks := p.blocks ++ [⟨first, last, label⟩] }

/-- The layout with one more block of so many bits, which follows the others at once. -/
def addBits (p : Layout) (bits : Nat) (label : String) : Except Fallacy Layout :=
  if bits = 0 then .error (.empty label)
  else match p.nextStart with
    | none => .error (.overflow label)
    | some first =>
      if first + (bits - 1) < bitLimit then p.addBlock first (first + (bits - 1)) label
      else .error (.overflow label)

/-- The number of bits in all blocks. -/
def totalBits (p : Layout) : Nat := (p.blocks.map Block.bits).foldr (· + ·) 0

/-- The parts of a block in the rows of `width` bits, each with the number of its row. -/
def parts (width : Nat) (b : Block) : List (Nat × Block) :=
  (List.range (b.last / width + 1 - b.first / width)).map fun i =>
    let row := b.first / width + i
    (row, ⟨max b.first (row * width), min b.last (row * width + width - 1), b.label⟩)

/-- The rows with one more part: it joins the last row if that has its number. -/
def addPart (rows : List Row) : Nat × Block → List Row
  | (index, part) =>
    match rows.getLast? with
    | some row =>
      if row.index = index then rows.dropLast ++ [{ row with blocks := row.blocks ++ [part] }]
      else rows ++ [⟨index, [part]⟩]
    | none => [⟨index, [part]⟩]

/-- The blocks cut into rows; a width of zero counts as one. -/
def rows (p : Layout) (width : Nat) : List Row :=
  (p.blocks.flatMap (parts (max width 1))).foldl addPart []

/-- The number of blocks. -/
def entityCount (p : Layout) : Nat := p.blocks.length

/-- What is wrong with the layout. -/
def issues (p : Layout) : List Issue :=
  Issue.ofCount p.blocks.length ++
    ((p.blocks.zip (p.blocks.drop 1)).filterMap fun (a, b) =>
      if b.first ≤ a.last then some (.invalidEntity b.label "overlaps the previous block")
      else none) ++
    p.blocks.filterMap fun b =>
      if b.last < b.first then some (.invalidEntity b.label "ends before it starts") else none

end Layout

instance : Written Block where
  write b := .object [("start", write b.first), ("end", write b.last), ("label", write b.label)]

instance : Written Row where
  write r := .object [("index", write r.index), ("blocks", write r.blocks)]

instance : Written Layout where
  write p := .object (p.captions.fields ++ [("blocks", write p.blocks)])

/-! ## Documents -/

section

open Peg

/-- A block: its bits or how many they are, and its label. -/
def blockRule : Rule :=
  .capture "block" (.sequence
    [.choice
      [.sequence [lit "+", .capture "count" integer],
        .sequence
          [.capture "start" integer,
            .optional (.sequence [ws, lit "-", ws, .capture "end" integer])]],
      ws, lit ":", ws, .capture "label" quotedString])

/-- A caption or a block. -/
def statementRule : Rule :=
  .labelled "statement"
    (.choice [title "title", accessibility "acc_title" "acc_descr", blockRule])

/-- The grammar of packets. -/
def grammar : Grammar where
  name := "packet"
  root :=
    document (.choice [keyword "packet-beta", keyword "packet"])
      (.capture "statements" (statementLines (.ref "statement")))
  rules := [("statement", statementRule)]

end

/-- The bits of a block: from the first to the last, or so many of them. -/
inductive Extent where
  | absolute (first last : Nat)
  | relative (bits : Nat)
deriving DecidableEq

/-- A statement of a document. -/
inductive Statement where
  | caption (c : Caption)
  | block (extent : Extent) (label : String)
deriving DecidableEq

/-- The bits that a block names. -/
def extent (block : Tree) : Reading Fallacy Extent := do
  match ← block.number? Numeral.word? "count" with
  | some bits => return .relative bits
  | none =>
    let first ← block.needNumber Numeral.word? "start"
    return .absolute first ((← block.number? Numeral.word? "end").getD first)

/-- The statements of packets. -/
def statements : Shapes Fallacy Statement :=
  .ofList
    ([(["title"], fun t => do return .caption (.title (← t.needString "title"))),
      (["block"], fun t => do
        let block ← t.needGroup "block"
        return .block (← extent block) (← block.needString "label"))] ++
      Captions.shapes.accessibleShapes .caption)

/-- The layout with one more block. -/
def Layout.add (p : Layout) (label : String) : Extent → Except Fallacy Layout
  | .absolute first last => p.addBlock first last label
  | .relative bits => p.addBits bits label

/-- The layout after a statement that starts at an offset. -/
def Layout.apply (p : Layout) : Nat × Statement → Reading Fallacy Layout
  | (_, .caption caption) => .ok { p with captions := p.captions.set caption }
  | (offset, .block extent label) =>
    match p.add label extent with
    | .ok p => .ok p
    | .error e => complain offset e

/-- Reads a layout from the syntax tree of its document. -/
def read (t : Tree) : Reading Fallacy Layout := do
  (← statements.readPlaced (t.list "statements")).foldlM Layout.apply {}

end DiagramText.Packet
