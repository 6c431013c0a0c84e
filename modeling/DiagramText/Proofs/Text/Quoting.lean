import DiagramText.Proofs.Text.Blank
import DiagramText.Text.Csv
import DiagramText.Text.Quoted

/-!
# Reading quoted texts back

Either way of quoting keeps the whole text: the field of a row that is quoted stands for the text
(`csvField_quoteCsv`), and so does a quoted label (`unquote_quote`). The quotes keep the blanks at the ends of
the text from being trimmed.
-/

namespace DiagramText

/-! ## Quotes around a text -/

theorem Chars.trim_quoted (inside : List Char) : trim ('"' :: inside ++ ['"']) = '"' :: inside ++ ['"'] := by
  rw [trim, List.cons_append, trimStart_cons_of_not_blank rfl, ← List.cons_append,
    trimEnd_append_of_not_blank _ rfl]
  rfl

@[simp] theorem toList_quoteCsv (s : String) : (quoteCsv s).toList = '"' :: Csv.encode s.toList ++ ['"'] :=
  String.toList_ofList

@[simp] theorem toList_quote (s : String) : (quote s).toList = '"' :: Quoted.encode s.toList ++ ['"'] :=
  String.toList_ofList

theorem trim_quoteCsv (s : String) : trim (quoteCsv s) = quoteCsv s := by
  rw [trim, toList_quoteCsv, Chars.trim_quoted, quoteCsv]

theorem trim_quote (s : String) : trim (quote s) = quote s := by
  rw [trim, toList_quote, Chars.trim_quoted, quote]

/-! ## Fields of rows -/

theorem Csv.decode?_encode (cs : List Char) : decode? (encode cs ++ ['"']) = some cs := by
  induction cs with
  | nil => rfl
  | cons c rest ih =>
    rw [encode]
    split
    · rename_i same
      subst same
      rw [List.cons_append, List.cons_append, decode?, ih, Option.map_some]
    · rename_i other
      rw [List.cons_append, decode?, ih, Option.map_some]
      all_goals simp [other]

/-- A quoted field stands for its text. -/
theorem csvField_quoteCsv (s : String) : csvField (quoteCsv s) = s := by
  rw [csvField, toList_quoteCsv, Chars.trim_quoted]
  simp [Csv.decode?_encode]

/-! ## Labels -/

theorem Quoted.decode_encode (cs : List Char) : decode (encode cs) = cs := by
  induction cs with
  | nil => rfl
  | cons c rest ih =>
    rw [encode_cons]
    split
    · rename_i special
      have escaped : escape? c = some c := by
        simp only [Bool.or_eq_true, decide_eq_true_eq] at special
        obtain rfl | rfl := special <;> rfl
      rw [decode, escaped]
      dsimp only
      rw [ih]
    · rename_i plain
      have other : c ≠ '\\' := by simp_all
      rw [decode, ih]
      simp [other]

/-- A quoted label stands for its text. -/
theorem unquote_quote (s : String) : unquote (quote s) = s := by
  have inside : Quoted.inside? (quote s).toList = some (Quoted.encode s.toList) := by
    simp [Quoted.inside?]
  rw [unquote, inside]
  dsimp only
  rw [Quoted.decode_encode, String.ofList_toList]

/-! ## Characters of labels -/

theorem Quoted.mem_of_mem_encode {cs : List Char} {c : Char} (h : c ∈ encode cs) : c ∈ cs ∨ c = '\\' := by
  induction cs with
  | nil => cases h
  | cons first cs ih =>
    rw [encode_cons] at h
    grind

/-- Quoting leaves no character out. -/
theorem Quoted.mem_encode {cs : List Char} {c : Char} (h : c ∈ cs) : c ∈ encode cs := by
  induction cs with
  | nil => cases h
  | cons first cs ih =>
    rw [encode_cons]
    grind

theorem mem_of_mem_quote {s : String} {c : Char} (h : c ∈ (quote s).toList) :
    c ∈ s.toList ∨ c ∈ ['\\', '"'] := by
  rw [toList_quote] at h
  have := @Quoted.mem_of_mem_encode s.toList c
  grind

theorem Quoted.mem_of_mem_inside? {cs inside : List Char} {c : Char} (h : inside? cs = some inside)
    (hc : c ∈ inside) : c ∈ cs := by
  unfold inside? at h
  split at h
  · split at h
    · rename_i rest _ kept e
      obtain rfl := Option.some.inj h
      refine List.mem_cons_of_mem _ (List.mem_reverse.1 ?_)
      rw [e]
      exact List.mem_cons_of_mem _ (List.mem_reverse.1 hc)
    · cases h
  · cases h

/-- Decoding makes no character but those that an escape stands for. -/
theorem Quoted.mem_of_mem_decode {cs : List Char} {c : Char} (h : c ∈ decode cs) :
    c ∈ cs ∨ c ∈ ['\n', '\t', '"', '\'', '\\'] := by
  induction cs using decode.induct with
  | case1 => cases h
  | case2 d rest e he ih =>
    have special : e ∈ ['\n', '\t', '"', '\'', '\\'] := by
      unfold escape? at he
      split at he <;> cases he <;> decide
    rw [decode, he] at h
    obtain rfl | h := List.mem_cons.1 h
    · exact .inr special
    · exact (ih h).imp_left fun h => List.mem_cons_of_mem _ (List.mem_cons_of_mem _ h)
  | case3 d rest he ih =>
    rw [decode, he] at h
    obtain rfl | h := List.mem_cons.1 h
    · exact .inl List.mem_cons_self
    · exact (ih h).imp_left (List.mem_cons_of_mem _)
  | case4 d rest he ih =>
    rw [decode] at h
    · obtain rfl | h := List.mem_cons.1 h
      · exact .inl List.mem_cons_self
      · exact (ih h).imp_left (List.mem_cons_of_mem _)
    · exact he

theorem mem_of_mem_unquote {raw : String} {c : Char} (h : c ∈ (unquote raw).toList) :
    c ∈ raw.toList ∨ c ∈ ['\n', '\t', '"', '\'', '\\'] := by
  unfold unquote at h
  split at h
  · rename_i inside hinside
    rw [String.toList_ofList] at h
    exact (Quoted.mem_of_mem_decode h).imp_left (Quoted.mem_of_mem_inside? hinside)
  · exact .inl h

end DiagramText
