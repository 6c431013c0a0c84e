import DiagramText.Text.CharWidth

/-!
# Ligatures

In some scripts two letters are drawn as one sign, or a letter is drawn below the one before it, so
that together they take fewer columns than apart. A ligature is read from its end: a `LigatureTail`
is what of one has been read, and `LigatureTail.before` tells how a character in front of it adds to
it and to its width.
-/

namespace DiagramText

/-- The letters that end a ligature, and what stands before them when it has three letters. -/
inductive LigatureEnd where
  /-- An Arabic alef, which a lam before it takes in. -/
  | alef
  /-- A Hebrew lamed, tied by a joiner to an alef before it. -/
  | lamed
  /-- A Buginese ya, tied by a joiner to the vowel i before it. -/
  | ya
  /-- A Buginese vowel i and the ya tied to it. -/
  | vowelYa
  /-- A Tifinagh consonant. -/
  | consonant
  /-- A Tifinagh consonant and the consonant joiner in front of it. -/
  | joinedConsonant
  /-- A Lisu tone letter that completes the tone letter before it. -/
  | tone
  /-- An Old Turkic letter i, tied by a joiner to the letter before it. -/
  | orkhonI
  /-- A Khmer letter that is written below the line after a coeng sign. -/
  | coengLetter
deriving DecidableEq, Repr, Inhabited

/-- The Arabic letters that are written as an alef. -/
def alefRanges : List Nat := [
  0x622, 0x623, 0x625, 0x625, 0x627, 0x627, 0x671, 0x673, 0x675, 0x675, 0x773, 0x774, 0x870, 0x882]

/-- The Arabic letters that are written as a lam. -/
def lamRanges : List Nat := [0x644, 0x644, 0x6b5, 0x6b8, 0x76a, 0x76a, 0x8a6, 0x8a6, 0x8c7, 0x8c7]

/-- The Khmer letters that a coeng sign puts below the line. -/
def coengLetterRanges : List Nat := [
  0x1780, 0x1782, 0x1784, 0x1787, 0x1789, 0x178c, 0x178e, 0x1793, 0x1795, 0x1798, 0x179b, 0x179d,
  0x17a0, 0x17a0, 0x17a2, 0x17a2, 0x17a7, 0x17a7, 0x17ab, 0x17ac, 0x17af, 0x17af]

/-- The Tifinagh consonants, two of which may be drawn as one sign. -/
def tifinaghRanges : List Nat := [0x2d31, 0x2d65, 0x2d6f, 0x2d6f]

/-- The characters that may stand inside a ligature and do not show. -/
def hiddenRanges : List Nat := [
  0x34f, 0x34f, 0x17b4, 0x17b5, 0x180b, 0x180d, 0x180f, 0x180f, 0x200d, 0x200d, 0xfe00, 0xfe0f,
  0xe0100, 0xe01ef]

/-- What has been read of a ligature, from its end. -/
structure LigatureTail where
  letter : LigatureEnd
  /-- Whether a joiner stands in front of the letter. -/
  joiner : Bool
deriving DecidableEq, Repr, Inhabited

namespace LigatureTail

/-- A tail without a joiner. -/
def unjoined (letter : LigatureEnd) : LigatureTail := ⟨letter, false⟩

/-- The tail that `c` alone is. -/
def ofChar? (c : Char) : Option LigatureTail :=
  let n := c.toNat
  if inRanges n alefRanges then some (unjoined .alef)
  else if n = 0x5DC then some (unjoined .lamed)
  else if inRanges n coengLetterRanges then some (unjoined .coengLetter)
  else if n = 0x1A10 then some (unjoined .ya)
  else if inRanges n tifinaghRanges then some (unjoined .consonant)
  else if inRanges n [0xA4FC, 0xA4FD] then some (unjoined .tone)
  else if n = 0x10C03 then some (unjoined .orkhonI)
  else none

/-- A character in front of an alef. The marks on the lam stand between the two. -/
def beforeAlef (c : Char) : Option (Int × Option LigatureTail) :=
  if inRanges c.toNat lamRanges then some (0, none)
  else if isJoinedAcross c then some (0, some (unjoined .alef))
  else none

/-- A visible character in front of the letters of a ligature other than an alef. -/
def beforeLetters (tail : LigatureTail) (c : Char) : Option (Int × Option LigatureTail) :=
  let n := c.toNat
  match tail.letter with
  | .alef => none
  | .lamed => if tail.joiner && n = 0x5D0 then some (0, none) else none
  | .ya => if tail.joiner && n = 0x1A17 then some (0, some (unjoined .vowelYa)) else none
  | .vowelYa => if n = 0x1A15 then some (0, none) else none
  | .consonant =>
    if n = 0x2D7F then some (1, some (unjoined .joinedConsonant))
    else if tail.joiner && inRanges n tifinaghRanges then some (0, none)
    else none
  | .joinedConsonant => if inRanges n tifinaghRanges then some (-1, none) else none
  | .tone => if inRanges n [0xA4F8, 0xA4FB] then some (0, none) else none
  | .orkhonI => if tail.joiner && n = 0x10C32 then some (0, none) else none
  | .coengLetter => if n = 0x17D2 then some (-1, none) else none

/-- The columns that `c` adds in front of a tail, and what is left open of the ligature; `none` when
`c` is not part of it. -/
def before (tail : LigatureTail) (c : Char) : Option (Int × Option LigatureTail) :=
  if tail.letter = .alef then beforeAlef c
  else if isJoiner c then some (0, some { tail with joiner := true })
  else if inRanges c.toNat hiddenRanges then some (0, some tail)
  else beforeLetters tail c

end LigatureTail

end DiagramText
