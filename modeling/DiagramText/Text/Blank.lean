/-!
# Blanks

The blank characters are those with the Unicode property `White_Space`. Trimming a text removes the
blanks at its ends; a text is significant when something is left. Words and lines are cut out of a
text here as well: words lie between blanks, lines end at a line feed, and a carriage return just
before the line feed belongs to the line end.
-/

namespace DiagramText

/-- Whether `c` has the property `White_Space`: 25 characters in all. -/
def isBlank (c : Char) : Bool :=
  let n := c.toNat
  (9 ≤ n && n ≤ 13) || n == 0x20 || n == 0x85 || n == 0xA0 || n == 0x1680 ||
    (0x2000 ≤ n && n ≤ 0x200A) || n == 0x2028 || n == 0x2029 || n == 0x202F || n == 0x205F ||
    n == 0x3000

namespace Chars

/-- The characters from the first that `p` does not hold of. -/
def trimStartBy (p : Char → Bool) (cs : List Char) : List Char := cs.dropWhile p

/-- The characters up to the last that `p` does not hold of. -/
def trimEndBy (p : Char → Bool) (cs : List Char) : List Char := (cs.reverse.dropWhile p).reverse

/-- `cs` without the blanks at its start. -/
def trimStart (cs : List Char) : List Char := trimStartBy isBlank cs

/-- `cs` without the blanks at its end. -/
def trimEnd (cs : List Char) : List Char := trimEndBy isBlank cs

/-- `cs` without the blanks at its two ends. -/
def trim (cs : List Char) : List Char := trimEnd (trimStart cs)

@[simp] theorem trim_nil : trim [] = [] := rfl

/-- The pieces of `cs` between the characters that `p` holds of, at least one piece. -/
def splitBy (p : Char → Bool) : List Char → List (List Char)
  | [] => [[]]
  | c :: cs =>
    if p c then [] :: splitBy p cs
    else match splitBy p cs with
      | [] => [[c]]
      | piece :: pieces => (c :: piece) :: pieces

/-- The words of `cs`: its longest pieces without a blank. -/
def words (cs : List Char) : List (List Char) := (splitBy isBlank cs).filter (!·.isEmpty)

/-- `line` without a carriage return at its end. -/
def withoutReturn (line : List Char) : List Char :=
  match line.reverse with
  | '\r' :: front => front.reverse
  | _ => line

/-- The lines of `cs` without their ends. Nothing follows the last line feed. -/
def lines (cs : List Char) : List (List Char) :=
  let pieces := splitBy (· == '\n') cs
  let ended := pieces.dropLast.map withoutReturn
  match pieces.getLast? with
  | some [] | none => ended
  | some last => ended ++ [last]

/-- Whether `start` stands at the start of `cs`, and what follows it. -/
def dropStart? : List Char → List Char → Option (List Char)
  | [], cs => some cs
  | _ :: _, [] => none
  | a :: start, c :: cs => if a = c then dropStart? start cs else none

/-- What follows `start`, the cases of the ASCII letters aside. -/
def dropStartAnyCase? : List Char → List Char → Option (List Char)
  | [], cs => some cs
  | _ :: _, [] => none
  | a :: start, c :: cs => if a.toLower = c.toLower then dropStartAnyCase? start cs else none

/-- What precedes `stop` at the end of `cs`. -/
def dropEnd? (stop cs : List Char) : Option (List Char) :=
  (dropStart? stop.reverse cs.reverse).map List.reverse

end Chars

/-- `s` without the blanks at its start. -/
def trimStart (s : String) : String := String.ofList (Chars.trimStart s.toList)

/-- `s` without the blanks at its end. -/
def trimEnd (s : String) : String := String.ofList (Chars.trimEnd s.toList)

/-- `s` without the blanks at its two ends. -/
def trim (s : String) : String := String.ofList (Chars.trim s.toList)

/-- The words of `s`, which blanks separate. -/
def words (s : String) : List String := (Chars.words s.toList).map String.ofList

/-- The lines of `s` without their ends. -/
def lines (s : String) : List String := (Chars.lines s.toList).map String.ofList

/-- The pieces of `s` between the occurrences of `c`, at least one piece. -/
def splitOnChar (s : String) (c : Char) : List String :=
  (Chars.splitBy (· == c) s.toList).map String.ofList

/-- Whether `s` and `t` are equal up to the case of ASCII letters. -/
def sameAnyCase (s t : String) : Bool := s.toList.map Char.toLower == t.toList.map Char.toLower

end DiagramText
