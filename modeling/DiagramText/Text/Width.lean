import DiagramText.Text.Emoji
import DiagramText.Text.Ligature

/-!
# Display width

How many columns a text takes on a terminal. Characters do not all take their own width: emoji are
put together of several characters, letters are drawn as ligatures, and a variation selector asks
for the emoji or the text form of the character before it. What changes the width of a character
comes after it, so the text is read from its end and a `Context` carries what has been seen there.
-/

namespace DiagramText

/-- What stands after a character, as far as the width of that character depends on it. -/
inductive Following where
  | plain
  | ligature (tail : LigatureTail)
  | emoji (tail : EmojiTail)
deriving DecidableEq, Repr, Inhabited

/-- The form that a variation selector asks for. -/
inductive Selector where
  | text
  | emoji
deriving DecidableEq, Repr, Inhabited

/-- What stands after a character: a variation selector, perhaps, and what comes after that. -/
structure Context where
  following : Following
  selector : Option Selector
deriving DecidableEq, Repr, Inhabited

namespace Selector

/-- The selector that `c` is. -/
def ofChar? (c : Char) : Option Selector :=
  if c.toNat = 0xFE0F then some .emoji
  else if c.toNat = 0xFE0E then some .text
  else none

end Selector

namespace Following

/-- What `c` is to the character before it when it is drawn by itself. -/
def ofChar (c : Char) : Following :=
  match LigatureTail.ofChar? c, EmojiTail.ofChar? c with
  | some tail, _ => .ligature tail
  | none, some tail => .emoji tail
  | none, none => .plain

/-- The ligature that was open, if any: a selector does not close it. -/
def ligatureOnly : Following → Following
  | .ligature tail => .ligature tail
  | _ => .plain

/-- Whether a variable character that a selector makes an emoji is tied to what follows. -/
def tiesSelected : Following → Bool
  | .emoji tail => tail.tiesSelected
  | _ => false

/-- What a selector leaves open. The emoji selector stands inside a sequence of joined emoji. -/
def pastSelector (following : Following) : Selector → Following
  | .emoji => if following.tiesSelected then following else following.ligatureOnly
  | .text => following.ligatureOnly

/-- The columns that `c` adds in front of what follows, and what follows the character before it. A
character that is not part of the ligature or the sequence it stands before has its own width. -/
def before (following : Following) (c : Char) : Int × Following :=
  match following with
  | .ligature tail =>
    match tail.before c with
    | some (columns, some tail) => (columns, .ligature tail)
    | some (columns, none) => (columns, .plain)
    | none => (charWidth c, ofChar c)
  | .emoji tail =>
    match tail.before c with
    | some (columns, tail) => (columns, .emoji tail)
    | none => (charWidth c, ofChar c)
  | .plain => (charWidth c, ofChar c)

end Following

namespace Context

/-- Nothing follows. -/
def atEnd : Context := ⟨.plain, none⟩

/-- The columns that `c` adds when no selector for it follows. -/
def beforeUnselected (following : Following) (c : Char) : Int × Context :=
  if c.toNat ≤ 0xA0 then (1, atEnd)
  else match Selector.ofChar? c with
    | some selector => (0, ⟨following.pastSelector selector, some selector⟩)
    | none =>
      let (columns, following) := following.before c
      (columns, ⟨following, none⟩)

/-- The columns that `c` adds in this context, and the context of the character before it. A
selector after a character without that form has no effect. -/
def before (context : Context) (c : Char) : Int × Context :=
  let following := context.following
  match context.selector with
  | some .emoji =>
    if isVariable c then
      (if following.tiesSelected then 0 else 2, ⟨.emoji .whole, none⟩)
    else beforeUnselected following.ligatureOnly c
  | some .text =>
    if narrowsAsText c then (1, atEnd) else beforeUnselected following c
  | none => beforeUnselected following c

end Context

/-- The columns that `cs` takes, and the context that it is to the character before it. -/
def widthBefore (cs : List Char) : Int × Context :=
  cs.foldr
    (fun c (width, context) =>
      let (columns, context) := context.before c
      (columns + width, context))
    (0, .atEnd)

/-- The columns that `cs` takes. -/
def displayWidth (cs : List Char) : Nat := (widthBefore cs).1.toNat

end DiagramText
