import DiagramText.Text.CharWidth

/-!
# Emoji sequences

Several characters may be drawn as one emoji: an emoji and the skin tone after it, emoji tied by
joiners, a key and the keycap around it, a flag spelled with two regional indicators or with tags.
Such a sequence is read from its end: an `EmojiTail` is what of a sequence has been read, and
`EmojiTail.before` tells how a character in front of it adds to it and to its width.
-/

namespace DiagramText

/-- Characters that are drawn as emoji unless a selector asks for text, without the skin tones and
the regional indicators. -/
def emojiRanges : List Nat := [
  0x231a, 0x231b, 0x23e9, 0x23ec, 0x23f0, 0x23f0, 0x23f3, 0x23f3, 0x25fd, 0x25fe, 0x2614, 0x2615,
  0x2648, 0x2653, 0x267f, 0x267f, 0x2693, 0x2693, 0x26a1, 0x26a1, 0x26aa, 0x26ab, 0x26bd, 0x26be,
  0x26c4, 0x26c5, 0x26ce, 0x26ce, 0x26d4, 0x26d4, 0x26ea, 0x26ea, 0x26f2, 0x26f3, 0x26f5, 0x26f5,
  0x26fa, 0x26fa, 0x26fd, 0x26fd, 0x2705, 0x2705, 0x270a, 0x270b, 0x2728, 0x2728, 0x274c, 0x274c,
  0x274e, 0x274e, 0x2753, 0x2755, 0x2757, 0x2757, 0x2795, 0x2797, 0x27b0, 0x27b0, 0x27bf, 0x27bf,
  0x2b1b, 0x2b1c, 0x2b50, 0x2b50, 0x2b55, 0x2b55, 0x1f004, 0x1f004, 0x1f0cf, 0x1f0cf,
  0x1f18e, 0x1f18e, 0x1f191, 0x1f19a, 0x1f201, 0x1f201, 0x1f21a, 0x1f21a, 0x1f22f, 0x1f22f,
  0x1f232, 0x1f236, 0x1f238, 0x1f23a, 0x1f250, 0x1f251, 0x1f300, 0x1f320, 0x1f32d, 0x1f335,
  0x1f337, 0x1f37c, 0x1f37e, 0x1f393, 0x1f3a0, 0x1f3ca, 0x1f3cf, 0x1f3d3, 0x1f3e0, 0x1f3f0,
  0x1f3f4, 0x1f3f4, 0x1f3f8, 0x1f3fa, 0x1f400, 0x1f43e, 0x1f440, 0x1f440, 0x1f442, 0x1f4fc,
  0x1f4ff, 0x1f53d, 0x1f54b, 0x1f54e, 0x1f550, 0x1f567, 0x1f57a, 0x1f57a, 0x1f595, 0x1f596,
  0x1f5a4, 0x1f5a4, 0x1f5fb, 0x1f64f, 0x1f680, 0x1f6c5, 0x1f6cc, 0x1f6cc, 0x1f6d0, 0x1f6d2,
  0x1f6d5, 0x1f6d7, 0x1f6dc, 0x1f6df, 0x1f6eb, 0x1f6ec, 0x1f6f4, 0x1f6fc, 0x1f7e0, 0x1f7eb,
  0x1f7f0, 0x1f7f0, 0x1f90c, 0x1f93a, 0x1f93c, 0x1f945, 0x1f947, 0x1f9ff, 0x1fa70, 0x1fa7c,
  0x1fa80, 0x1fa88, 0x1fa90, 0x1fabd, 0x1fabf, 0x1fac5, 0x1face, 0x1fadb, 0x1fae0, 0x1fae8,
  0x1faf0, 0x1faf8]

/-- Emoji that a skin tone may follow. -/
def skinToneBaseRanges : List Nat := [
  0x261d, 0x261d, 0x26f9, 0x26f9, 0x270a, 0x270d, 0x1f385, 0x1f385, 0x1f3c2, 0x1f3c4,
  0x1f3c7, 0x1f3c7, 0x1f3ca, 0x1f3cc, 0x1f442, 0x1f443, 0x1f446, 0x1f450, 0x1f466, 0x1f478,
  0x1f47c, 0x1f47c, 0x1f481, 0x1f483, 0x1f485, 0x1f487, 0x1f48f, 0x1f48f, 0x1f491, 0x1f491,
  0x1f4aa, 0x1f4aa, 0x1f574, 0x1f575, 0x1f57a, 0x1f57a, 0x1f590, 0x1f590, 0x1f595, 0x1f596,
  0x1f645, 0x1f647, 0x1f64b, 0x1f64f, 0x1f6a3, 0x1f6a3, 0x1f6b4, 0x1f6b6, 0x1f6c0, 0x1f6c0,
  0x1f6cc, 0x1f6cc, 0x1f90c, 0x1f90c, 0x1f90f, 0x1f90f, 0x1f918, 0x1f91f, 0x1f926, 0x1f926,
  0x1f930, 0x1f939, 0x1f93c, 0x1f93e, 0x1f977, 0x1f977, 0x1f9b5, 0x1f9b6, 0x1f9b8, 0x1f9b9,
  0x1f9bb, 0x1f9bb, 0x1f9cd, 0x1f9cf, 0x1f9d1, 0x1f9dd, 0x1fac3, 0x1fac5, 0x1faf0, 0x1faf8]

/-- Characters that are drawn as emoji or as text, as the selector after them asks. -/
def variableRanges : List Nat := [
  0x23, 0x23, 0x2a, 0x2a, 0x30, 0x39, 0xa9, 0xa9, 0xae, 0xae, 0x203c, 0x203c, 0x2049, 0x2049,
  0x2122, 0x2122, 0x2139, 0x2139, 0x2194, 0x2199, 0x21a9, 0x21aa, 0x231a, 0x231b, 0x2328, 0x2328,
  0x23cf, 0x23cf, 0x23e9, 0x23ea, 0x23ed, 0x23ef, 0x23f1, 0x23f3, 0x23f8, 0x23fa, 0x24c2, 0x24c2,
  0x25aa, 0x25ab, 0x25b6, 0x25b6, 0x25c0, 0x25c0, 0x25fb, 0x25fe, 0x2600, 0x2604, 0x260e, 0x260e,
  0x2611, 0x2611, 0x2614, 0x2615, 0x2618, 0x2618, 0x261d, 0x261d, 0x2620, 0x2620, 0x2622, 0x2623,
  0x2626, 0x2626, 0x262a, 0x262a, 0x262e, 0x262f, 0x2638, 0x263a, 0x2640, 0x2640, 0x2642, 0x2642,
  0x2648, 0x2653, 0x265f, 0x2660, 0x2663, 0x2663, 0x2665, 0x2666, 0x2668, 0x2668, 0x267b, 0x267b,
  0x267e, 0x267f, 0x2692, 0x2697, 0x2699, 0x2699, 0x269b, 0x269c, 0x26a0, 0x26a1, 0x26a7, 0x26a7,
  0x26aa, 0x26ab, 0x26b0, 0x26b1, 0x26bd, 0x26be, 0x26c4, 0x26c5, 0x26c8, 0x26c8, 0x26cf, 0x26cf,
  0x26d1, 0x26d1, 0x26d3, 0x26d4, 0x26e9, 0x26ea, 0x26f0, 0x26f5, 0x26f7, 0x26fa, 0x26fd, 0x26fd,
  0x2702, 0x2702, 0x2708, 0x2709, 0x270c, 0x270d, 0x270f, 0x270f, 0x2712, 0x2712, 0x2714, 0x2714,
  0x2716, 0x2716, 0x271d, 0x271d, 0x2721, 0x2721, 0x2733, 0x2734, 0x2744, 0x2744, 0x2747, 0x2747,
  0x2753, 0x2753, 0x2757, 0x2757, 0x2763, 0x2764, 0x27a1, 0x27a1, 0x2934, 0x2935, 0x2b05, 0x2b07,
  0x2b1b, 0x2b1c, 0x2b50, 0x2b50, 0x2b55, 0x2b55, 0x3030, 0x3030, 0x303d, 0x303d, 0x3297, 0x3297,
  0x3299, 0x3299, 0x1f004, 0x1f004, 0x1f170, 0x1f171, 0x1f17e, 0x1f17f, 0x1f202, 0x1f202,
  0x1f21a, 0x1f21a, 0x1f22f, 0x1f22f, 0x1f237, 0x1f237, 0x1f30d, 0x1f30f, 0x1f315, 0x1f315,
  0x1f31c, 0x1f31c, 0x1f321, 0x1f321, 0x1f324, 0x1f32c, 0x1f336, 0x1f336, 0x1f378, 0x1f378,
  0x1f37d, 0x1f37d, 0x1f393, 0x1f393, 0x1f396, 0x1f397, 0x1f399, 0x1f39b, 0x1f39e, 0x1f39f,
  0x1f3a7, 0x1f3a7, 0x1f3ac, 0x1f3ae, 0x1f3c2, 0x1f3c2, 0x1f3c4, 0x1f3c4, 0x1f3c6, 0x1f3c6,
  0x1f3ca, 0x1f3ce, 0x1f3d4, 0x1f3e0, 0x1f3ed, 0x1f3ed, 0x1f3f3, 0x1f3f3, 0x1f3f5, 0x1f3f5,
  0x1f3f7, 0x1f3f7, 0x1f408, 0x1f408, 0x1f415, 0x1f415, 0x1f41f, 0x1f41f, 0x1f426, 0x1f426,
  0x1f43f, 0x1f43f, 0x1f441, 0x1f442, 0x1f446, 0x1f449, 0x1f44d, 0x1f44e, 0x1f453, 0x1f453,
  0x1f46a, 0x1f46a, 0x1f47d, 0x1f47d, 0x1f4a3, 0x1f4a3, 0x1f4b0, 0x1f4b0, 0x1f4b3, 0x1f4b3,
  0x1f4bb, 0x1f4bb, 0x1f4bf, 0x1f4bf, 0x1f4cb, 0x1f4cb, 0x1f4da, 0x1f4da, 0x1f4df, 0x1f4df,
  0x1f4e4, 0x1f4e6, 0x1f4ea, 0x1f4ed, 0x1f4f7, 0x1f4f7, 0x1f4f9, 0x1f4fb, 0x1f4fd, 0x1f4fd,
  0x1f508, 0x1f508, 0x1f50d, 0x1f50d, 0x1f512, 0x1f513, 0x1f549, 0x1f54a, 0x1f550, 0x1f567,
  0x1f56f, 0x1f570, 0x1f573, 0x1f579, 0x1f587, 0x1f587, 0x1f58a, 0x1f58d, 0x1f590, 0x1f590,
  0x1f5a5, 0x1f5a5, 0x1f5a8, 0x1f5a8, 0x1f5b1, 0x1f5b2, 0x1f5bc, 0x1f5bc, 0x1f5c2, 0x1f5c4,
  0x1f5d1, 0x1f5d3, 0x1f5dc, 0x1f5de, 0x1f5e1, 0x1f5e1, 0x1f5e3, 0x1f5e3, 0x1f5e8, 0x1f5e8,
  0x1f5ef, 0x1f5ef, 0x1f5f3, 0x1f5f3, 0x1f5fa, 0x1f5fa, 0x1f610, 0x1f610, 0x1f687, 0x1f687,
  0x1f68d, 0x1f68d, 0x1f691, 0x1f691, 0x1f694, 0x1f694, 0x1f698, 0x1f698, 0x1f6ad, 0x1f6ad,
  0x1f6b2, 0x1f6b2, 0x1f6b9, 0x1f6ba, 0x1f6bc, 0x1f6bc, 0x1f6cb, 0x1f6cb, 0x1f6cd, 0x1f6cf,
  0x1f6e0, 0x1f6e5, 0x1f6e9, 0x1f6e9, 0x1f6f0, 0x1f6f0, 0x1f6f3, 0x1f6f3]

/-- Whether `c` is drawn as an emoji unless a selector asks for text. -/
def isEmoji (c : Char) : Bool := inRanges c.toNat emojiRanges

/-- Whether a skin tone may follow `c`. -/
def isSkinToneBase (c : Char) : Bool := inRanges c.toNat skinToneBaseRanges

/-- Whether a selector after `c` decides how it is drawn. -/
def isVariable (c : Char) : Bool := inRanges c.toNat variableRanges

/-- Whether `c` is drawn as an emoji by itself and takes one column as text. The squared ideographs
stay wide. -/
def narrowsAsText (c : Char) : Bool :=
  isEmoji c && isVariable c && !inRanges c.toNat [0x1F200, 0x1F2FF]

/-- Whether `c` is one of the five skin tones. -/
def isSkinTone (c : Char) : Bool := inRanges c.toNat [0x1F3FB, 0x1F3FF]

/-- Whether `c` is one of the letters that a flag is spelled with. -/
def isRegionalIndicator (c : Char) : Bool := inRanges c.toNat [0x1F1E6, 0x1F1FF]

/-- Whether `c` is a tag that stands for a letter. -/
def isTagLetter (c : Char) : Bool := inRanges c.toNat [0xE0061, 0xE007A]

/-- Whether `c` is a tag that stands for a digit. -/
def isTagDigit (c : Char) : Bool := inRanges c.toNat [0xE0030, 0xE0039]

/-- What has been read of an emoji sequence, from its end. -/
inductive EmojiTail where
  /-- An emoji, or a sequence that is complete as it is. -/
  | whole
  | skinTone
  /-- A regional indicator. -/
  | indicator
  /-- Two regional indicators or more. -/
  | indicators
  /-- A joiner and the sequence it ties. -/
  | joined
  /-- A keycap, tied by a joiner to what follows. -/
  | joinedKeycap
  /-- A regional indicator, tied by a joiner to what follows. -/
  | joinedIndicator
  /-- Two regional indicators or more, the last of them tied by a joiner to what follows; whether
  their number is even. -/
  | joinedIndicators (even : Bool)
  /-- Letters of a flag's tags, and the end of the tags. -/
  | tagLetters (count : Nat)
  /-- Digits of a flag's tags, and what follows them up to the end of the tags. -/
  | tagDigits (count : Nat)
deriving DecidableEq, Repr, Inhabited

namespace EmojiTail

/-- The tail that `c` alone is. -/
def ofChar? (c : Char) : Option EmojiTail :=
  if isRegionalIndicator c then some indicator
  else if isSkinTone c then some skinTone
  else if isEmoji c then some whole
  else none

/-- A joiner in front of a sequence that may be tied to another. -/
def beforeWhole (c : Char) : Option (Int × EmojiTail) :=
  if isJoiner c then some (0, joined) else none

/-- A character in front of a joiner. A regional indicator takes its column at once. -/
def beforeJoined (c : Char) : Option (Int × EmojiTail) :=
  if c.toNat = 0x20E3 then some (0, joinedKeycap)
  else if c.toNat = 0xE007F then some (0, tagLetters 0)
  else match ofChar? c with
    | some indicator => some (1, joinedIndicator)
    | some tail => some (0, tail)
    | none => none

/-- The black flag, which the tags of a flag follow. -/
def beforeTags (c : Char) : Option (Int × EmojiTail) :=
  if c.toNat = 0x1F3F4 then some (0, whole) else none

/-- The columns that `c` adds in front of a tail, and the tail with it; `none` when `c` is not part
of the sequence. Tied to what follows, every two regional indicators are a flag that adds nothing,
and one that is left over adds two. -/
def before (tail : EmojiTail) (c : Char) : Option (Int × EmojiTail) :=
  match tail with
  | whole => beforeWhole c
  | skinTone => if isSkinToneBase c then some (0, whole) else beforeWhole c
  | indicator => if isRegionalIndicator c then some (1, indicators) else none
  | indicators => if isRegionalIndicator c then some (1, indicators) else beforeWhole c
  | joined => beforeJoined c
  | joinedKeycap => none
  | joinedIndicator => if isRegionalIndicator c then some (-1, joinedIndicators true) else none
  | joinedIndicators true =>
    if isRegionalIndicator c then some (3, joinedIndicators false) else beforeWhole c
  | joinedIndicators false =>
    if isRegionalIndicator c then some (-1, joinedIndicators true) else beforeWhole c
  | tagLetters count =>
    if isTagLetter c && count < 6 then some (0, tagLetters (count + 1))
    else if isTagDigit c && count ≤ 4 then some (0, tagDigits 1)
    else if 3 ≤ count then beforeTags c
    else none
  | tagDigits count =>
    if isTagDigit c && count < 3 then some (0, tagDigits (count + 1))
    else if count = 3 then beforeTags c
    else none

/-- Whether a variable character that a selector makes an emoji is tied to this tail. -/
def tiesSelected : EmojiTail → Bool
  | joined | joinedKeycap => true
  | _ => false

end EmojiTail

end DiagramText
