/-!
# Offsets

An offset counts the bytes of the UTF-8 form of a text, as `String.utf8ByteSize` does. It may lie
inside a character; `charsBefore` then stops in front of that character, so that every offset stands
for a boundary between characters, and one past the end stands for the end.
-/

namespace DiagramText

namespace Chars

/-- The bytes that `cs` takes. -/
def byteSize : List Char → Nat
  | [] => 0
  | c :: cs => c.utf8Size + byteSize cs

@[simp] theorem byteSize_nil : byteSize [] = 0 := rfl

@[simp] theorem byteSize_cons (c : Char) (cs : List Char) :
    byteSize (c :: cs) = c.utf8Size + byteSize cs := rfl

@[simp] theorem byteSize_append (as bs : List Char) :
    byteSize (as ++ bs) = byteSize as + byteSize bs := by
  induction as with
  | nil => simp
  | cons c as ih => simp [ih, Nat.add_assoc]

/-- The longest start of `cs` that takes at most `n` bytes. -/
def takeBytes (n : Nat) : List Char → List Char
  | [] => []
  | c :: cs => if c.utf8Size ≤ n then c :: takeBytes (n - c.utf8Size) cs else []

/-- The bytes of a start of the text name exactly that start. -/
theorem takeBytes_append (as bs : List Char) : takeBytes (byteSize as) (as ++ bs) = as := by
  induction as with
  | nil =>
    cases bs with
    | nil => rfl
    | cons b bs => simp [takeBytes, Nat.not_le.2 (Char.utf8Size_pos b)]
  | cons a as ih => simp [takeBytes, ih]

/-- What is taken takes no more than what was asked for. -/
theorem byteSize_takeBytes_le (n : Nat) (cs : List Char) : byteSize (takeBytes n cs) ≤ n := by
  induction cs generalizing n with
  | nil => simp [takeBytes]
  | cons c cs ih =>
    simp only [takeBytes]
    split
    · rename_i h
      have := ih (n - c.utf8Size)
      simp only [byteSize_cons]
      omega
    · simp

/-- What is taken is a start of the text. -/
theorem takeBytes_isPrefix (n : Nat) (cs : List Char) : takeBytes n cs <+: cs := by
  induction cs generalizing n with
  | nil => simp [takeBytes]
  | cons c cs ih =>
    simp only [takeBytes]
    split
    · exact List.cons_prefix_cons.2 ⟨rfl, ih _⟩
    · exact List.nil_prefix

end Chars

/-- The characters of `source` that end at or before `offset`. -/
def charsBefore (source : String) (offset : Nat) : List Char :=
  Chars.takeBytes offset source.toList

/-- How many characters of `source` end at or before `offset`. -/
def charOffset (source : String) (offset : Nat) : Nat := (charsBefore source offset).length

end DiagramText
