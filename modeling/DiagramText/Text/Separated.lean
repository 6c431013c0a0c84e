import DiagramText.Text.Blank
import DiagramText.Text.Alphanumeric
import DiagramText.Text.Numeral

/-!
# Lists inside a text

Three small notations for lists that occur inside statements: numbers, pairs of a key and a value,
and the properties of a style. They share `separated`, which reads items one after the other and
stops where none follows. A text belongs to a notation when all of it is read.
-/

namespace DiagramText

namespace Separated

/-- Reads something at the start of a text: its value and the characters that follow. -/
abbrev Reader (α : Type) := List Char → Option (α × List Char)

/-- Items with separators between them, as many as there are, and what follows. A separator that no
item follows is read only when it may trail. The list `clock` has an element for each character, so
that it outlasts the items. -/
def separated (item : Reader α) (separator : List Char → Option (List Char)) (trailing : Bool) :
    List Char → List Char → List α × List Char
  | clock, cs =>
    match item cs with
    | none => ([], cs)
    | some (a, rest) =>
      match separator rest, clock with
      | some next, _ :: clock =>
        match separated item separator trailing clock next with
        | ([], _) => ([a], if trailing then next else rest)
        | (as, last) => (a :: as, last)
      | _, _ => ([a], rest)

/-- What stands behind the first item. -/
theorem separated_of_some {α : Type} {item : Reader α} {separator : List Char → Option (List Char)} {trailing : Bool}
    {clock cs rest : List Char} {a : α} (read : item cs = some (a, rest)) :
    separated item separator trailing clock cs =
      match separator rest, clock with
      | some next, _ :: clock =>
        match separated item separator trailing clock next with
        | ([], _) => ([a], if trailing then next else rest)
        | (as, last) => (a :: as, last)
      | _, _ => ([a], rest) := by
  rw [separated, read]

/-- What follows the character `c`. -/
def skipChar (c : Char) : List Char → Option (List Char)
  | d :: rest => if d = c then some rest else none
  | [] => none

/-- What follows the character `c` with blanks around it. -/
def skipPadded (c : Char) (cs : List Char) : Option (List Char) :=
  (skipChar c (Chars.trimStart cs)).map Chars.trimStart

/-- An item with blanks around it. -/
def padded (item : Reader α) : Reader α := fun cs =>
  (item (Chars.trimStart cs)).map fun (a, rest) => (a, Chars.trimStart rest)

/-- All items of a text with blanks around them, when they make up all of it. -/
def whole (item : Reader α) (separator : List Char → Option (List Char)) (trailing : Bool)
    (cs : List Char) : Option (List α) :=
  let cs := Chars.trimStart cs
  let (items, rest) := separated item separator trailing cs cs
  if (Chars.trimStart rest).isEmpty then some items else none

/-! ## Numbers -/

/-- The numeral at the start: a sign, which may be missing, digits, and perhaps a point and more
digits. -/
def numeral (cs : List Char) : Option (List Char × List Char) :=
  let (sign, body) := match cs with
    | '+' :: rest => (['+'], rest)
    | '-' :: rest => (['-'], rest)
    | _ => ([], cs)
  match body.span Char.isDigit with
  | ([], _) => none
  | (digits, '.' :: rest) =>
    match rest.span Char.isDigit with
    | ([], _) => some (sign ++ digits, '.' :: rest)
    | (places, rest) => some (sign ++ digits ++ '.' :: places, rest)
  | (digits, rest) => some (sign ++ digits, rest)

/-- The numerals of a list, which brackets may enclose. -/
def numerals? (cs : List Char) : Option (List (List Char)) :=
  let cs := Chars.trimStart cs
  let plain :=
    let (items, rest) := separated (padded numeral) (skipChar ',') false cs cs
    if (Chars.trimStart rest).isEmpty then some items else none
  match cs with
  | '[' :: inner =>
    let (items, rest) := separated (padded numeral) (skipChar ',') false inner inner
    match rest with
    | ']' :: rest => if (Chars.trimStart rest).isEmpty then some items else none
    | _ => plain
  | _ => plain

/-! ## Keys and values -/

/-- Letters, numbers, underscores and hyphens make up a key. -/
def isKeyChar (c : Char) : Bool := isAlphanumeric c || c == '_' || c == '-'

/-- A text between two of the characters `quote`. -/
def quotedBy (quote : Char) : Reader (List Char)
  | c :: rest =>
    if c = quote then
      match rest.span (· != quote) with
      | (inside, _ :: rest) => some (inside, rest)
      | _ => none
    else none
  | [] => none

/-- A value: in quotes of either kind, or everything up to a comma or a closing brace. -/
def value (cs : List Char) : List Char × List Char :=
  let quoted := fun cs => (quotedBy '"' cs).orElse fun _ => quotedBy '\'' cs
  match padded quoted cs with
  | some found => found
  | none =>
    let (bare, rest) := cs.span fun c => c != ',' && c != '\x7d'
    (Chars.trim bare, rest)

/-- A key, a colon and a value. -/
def pair : Reader (String × String) := fun cs =>
  match (Chars.trimStart cs).span isKeyChar with
  | ([], _) => none
  | (key, rest) =>
    (skipChar ':' (Chars.trimStart rest)).map fun rest =>
      let (text, rest) := value rest
      ((String.ofList key, String.ofList text), rest)

/-! ## Properties of styles -/

/-- The value of a property up to a comma; commas inside parentheses belong to it. There is none when
parentheses do not match. -/
def propertyValue (inside : Bool) : List Char → Option (List Char × List Char)
  | [] => if inside then none else some ([], [])
  | c :: rest =>
    if inside then (propertyValue (c != ')') rest).map fun (text, rest) => (c :: text, rest)
    else if c = ',' then some ([], c :: rest)
    else if c = ')' then none
    else (propertyValue (c == '(') rest).map fun (text, rest) => (c :: text, rest)

/-- A property: its name, a colon and its value. -/
def property : Reader (String × String) := fun cs =>
  match cs.span fun c => c != ':' && c != ',' with
  | (name@(_ :: _), ':' :: rest) =>
    (propertyValue false rest).map fun (text, rest) =>
      ((String.ofList (Chars.trim name), String.ofList (Chars.trim text)), rest)
  | _ => none

end Separated

open Separated

/-- A list of numbers. -/
def numberList? (raw : String) : Option (List Float) :=
  (numerals? raw.toList).bind fun numerals =>
    numerals.mapM fun numeral => Numeral.float? (String.ofList numeral)

/-- A list of keys with their values. -/
def keyValues? (raw : String) : Option (List (String × String)) :=
  whole pair (skipChar ',') true raw.toList

/-- A list of style properties; semicolons may follow it. -/
def styleProperties? (raw : String) : Option (List (String × String)) :=
  whole property (skipPadded ',') true
    (Chars.trimEndBy (· == ';') (Chars.trim raw.toList))

end DiagramText
