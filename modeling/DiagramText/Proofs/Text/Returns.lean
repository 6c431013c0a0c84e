import DiagramText.Proofs.Peg.Match
import DiagramText.Proofs.Text.Blank
import Mathlib.Data.List.Induction

/-!
# Line ends with carriage returns

`withReturns` puts a carriage return before every line feed of a text. Each line feed makes the text a byte
longer (`byteSize_withReturns`). Whatever takes a carriage return and a line feed for the same does the same
with and without carriage returns: a search for the first character of a kind (`takeWhile_withReturns`,
`dropWhile_withReturns`), and so trimming (`trim_withReturns`). A text without line ends is found where it
was (`dropStart?_withReturns`).
-/

namespace DiagramText

namespace Chars

/-- The characters with a carriage return before every line feed. -/
def withReturns : List Char → List Char
  | [] => []
  | c :: cs => if c = '\n' then '\r' :: '\n' :: withReturns cs else c :: withReturns cs

variable {cs : List Char} {c : Char}

@[simp] theorem withReturns_nil : withReturns [] = [] := rfl

@[simp] theorem withReturns_feed (cs : List Char) :
    withReturns ('\n' :: cs) = '\r' :: '\n' :: withReturns cs := rfl

theorem withReturns_cons (h : c ≠ '\n') (cs : List Char) : withReturns (c :: cs) = c :: withReturns cs :=
  if_neg h

theorem withReturns_append (as bs : List Char) :
    withReturns (as ++ bs) = withReturns as ++ withReturns bs := by
  induction as with
  | nil => rfl
  | cons a as ih =>
    rw [List.cons_append, withReturns, withReturns, ih]
    split <;> rfl

/-- A text without a line feed stays as it is. -/
theorem withReturns_of_not_mem (h : '\n' ∉ cs) : withReturns cs = cs := by
  induction cs with
  | nil => rfl
  | cons c cs ih =>
    rw [withReturns_cons (fun e => h (e ▸ List.mem_cons_self)), ih fun hm => h (List.mem_cons_of_mem _ hm)]

@[simp] theorem withReturns_eq_nil : withReturns cs = [] ↔ cs = [] := by
  cases cs with
  | nil => simp
  | cons c cs =>
    rw [withReturns]
    split <;> simp

theorem byteSize_withReturns (cs : List Char) :
    byteSize (withReturns cs) = byteSize cs + cs.count '\n' := by
  have hsize : '\r'.utf8Size = 1 := rfl
  induction cs with
  | nil => rfl
  | cons c cs ih =>
    by_cases hc : c = '\n'
    · subst hc
      simp only [withReturns_feed, byteSize_cons, ih, List.count_cons_self, hsize]
      omega
    · rw [withReturns_cons hc, byteSize_cons, byteSize_cons, ih, List.count_cons_of_ne hc, Nat.add_assoc]

theorem count_withReturns (cs : List Char) : (withReturns cs).count '\n' = cs.count '\n' := by
  induction cs with
  | nil => rfl
  | cons c cs ih =>
    by_cases hc : c = '\n'
    · subst hc
      rw [withReturns_feed, List.count_cons_of_ne (by decide), List.count_cons_self, List.count_cons_self, ih]
    · rw [withReturns_cons hc, List.count_cons_of_ne hc, List.count_cons_of_ne hc, ih]

/-! ## What stands at the start -/

theorem dropStart?_withReturns {start : List Char} (h : ∀ c ∈ start, c ≠ '\r' ∧ c ≠ '\n') (cs : List Char) :
    dropStart? start (withReturns cs) = (dropStart? start cs).map withReturns := by
  induction start generalizing cs with
  | nil => rfl
  | cons a start ih =>
    obtain ⟨hreturn, hfeed⟩ := h a List.mem_cons_self
    cases cs with
    | nil => rfl
    | cons c cs =>
      by_cases hc : c = '\n'
      · subst hc
        simp only [withReturns_feed, dropStart?, hreturn, hfeed, ↓reduceIte, Option.map_none]
      · rw [withReturns_cons hc, dropStart?, dropStart?, ih fun b hb => h b (List.mem_cons_of_mem _ hb)]
        split <;> rfl

theorem dropStartAnyCase?_withReturns {start : List Char} (h : ∀ c ∈ start, c ≠ '\r' ∧ c ≠ '\n')
    (cs : List Char) :
    dropStartAnyCase? start (withReturns cs) = (dropStartAnyCase? start cs).map withReturns := by
  induction start generalizing cs with
  | nil => rfl
  | cons a start ih =>
    obtain ⟨hreturn, hfeed⟩ := h a List.mem_cons_self
    have hreturn : a.toLower ≠ '\r'.toLower := fun e => hreturn (eq_of_toLower rfl e)
    have hfeed : a.toLower ≠ '\n'.toLower := fun e => hfeed (eq_of_toLower rfl e)
    cases cs with
    | nil => rfl
    | cons c cs =>
      by_cases hc : c = '\n'
      · subst hc
        simp only [withReturns_feed, dropStartAnyCase?, hreturn, hfeed, ↓reduceIte, Option.map_none]
      · rw [withReturns_cons hc, dropStartAnyCase?, dropStartAnyCase?,
          ih fun b hb => h b (List.mem_cons_of_mem _ hb)]
        split <;> rfl

section

variable {p : Char → Bool}

theorem takeWhile_withReturns (h : p '\r' = p '\n') (cs : List Char) :
    (withReturns cs).takeWhile p = withReturns (cs.takeWhile p) := by
  induction cs with
  | nil => rfl
  | cons c cs ih =>
    by_cases hc : c = '\n'
    · subst hc
      cases hp : p '\n' <;> simp [h, hp, ih]
    · cases hp : p c <;> simp [withReturns_cons hc, hp, ih]

theorem dropWhile_withReturns (h : p '\r' = p '\n') (cs : List Char) :
    (withReturns cs).dropWhile p = withReturns (cs.dropWhile p) := by
  induction cs with
  | nil => rfl
  | cons c cs ih =>
    by_cases hc : c = '\n'
    · subst hc
      cases hp : p '\n' <;> simp [h, hp, ih]
    · cases hp : p c <;> simp [withReturns_cons hc, hp, ih]

theorem trimEndBy_concat (p : Char → Bool) (cs : List Char) (c : Char) :
    trimEndBy p (cs ++ [c]) = if p c then trimEndBy p cs else cs ++ [c] := by
  rw [trimEndBy, trimEndBy, List.reverse_append, List.reverse_singleton, List.singleton_append,
    List.dropWhile_cons]
  split <;> simp

theorem trimEndBy_withReturns (h : p '\r' = p '\n') (cs : List Char) :
    trimEndBy p (withReturns cs) = withReturns (trimEndBy p cs) := by
  induction cs using List.reverseRecOn with
  | nil => rfl
  | append_singleton cs c ih =>
    rw [withReturns_append, trimEndBy_concat]
    by_cases hc : c = '\n'
    · subst hc
      have hend : withReturns ['\n'] = ['\r'] ++ ['\n'] := rfl
      rw [hend, ← List.append_assoc, trimEndBy_concat, trimEndBy_concat, h, ih]
      split
      · rfl
      · rw [withReturns_append, hend, List.append_assoc]
    · rw [withReturns_cons hc, withReturns_nil, trimEndBy_concat, ih]
      split
      · rfl
      · rw [withReturns_append, withReturns_cons hc, withReturns_nil]

end

theorem trimEnd_withReturns (cs : List Char) : trimEnd (withReturns cs) = withReturns (trimEnd cs) :=
  trimEndBy_withReturns rfl cs

theorem trim_withReturns (cs : List Char) : trim (withReturns cs) = withReturns (trim cs) := by
  rw [trim, trimStart, trimStartBy, dropWhile_withReturns rfl, trimEnd_withReturns]
  rfl

end Chars

/-- The text with a carriage return before every line feed. -/
def withReturns (s : String) : String := String.ofList (Chars.withReturns s.toList)

theorem toList_withReturns (s : String) : (withReturns s).toList = Chars.withReturns s.toList :=
  String.toList_ofList

theorem withReturns_of_not_mem {s : String} (h : '\n' ∉ s.toList) : withReturns s = s := by
  rw [withReturns, Chars.withReturns_of_not_mem h, String.ofList_toList]

theorem trim_withReturns (s : String) : trim (withReturns s) = withReturns (trim s) := by
  rw [trim, toList_withReturns, Chars.trim_withReturns, trim, withReturns, String.toList_ofList]

end DiagramText
