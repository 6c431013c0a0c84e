import DiagramText.ClassDiagram.Member
import DiagramText.Proofs.Text.Blank

/-!
# Members and their texts

A member is written in one of three forms (`Member.Form`), between a sign for its visibility and one for its
classifier. Reading peels these signs off and then tries the forms one after the other, so that each form asks of the
parts not to look like what is tried before it (`Member.Form.Admits`). A part is trimmed wherever it is cut off.

What is cut off is told piece by piece: the sign in front (`splitVisibility_trim`), the sign behind
(`splitClassifier_append`), the parentheses (`method?_append`), and the name of an attribute
(`splitAttribute_nameFirst`, `splitAttribute_typeFirst`). So the text of a member with a name is read as that member
(`ofText?_signature`).
-/

namespace DiagramText.ClassDiagram

/-! ## Signs -/

/-- The sign of a visibility, if there is one. -/
def Visibility.sign (v : Option Visibility) : List Char := (v.map toChar).toList

theorem Visibility.ofChar?_toChar (v : Visibility) : ofChar? v.toChar = some v := by cases v <;> rfl

theorem Visibility.not_isBlank_toChar (v : Visibility) : isBlank v.toChar = false := by cases v <;> rfl

/-- The sign of a classifier, if there is one. -/
def Classifier.sign (c : Option Classifier) : List Char := (c.map toChar).toList

theorem Classifier.ofChar?_toChar (c : Classifier) : ofChar? c.toChar = some c := by cases c <;> rfl

theorem Classifier.not_isBlank_toChar (c : Classifier) : isBlank c.toChar = false := by cases c <;> rfl

namespace Member

/-- Whether no sign of a classifier ends the text. -/
def Unmarked (cs : List Char) : Prop := ∀ c ∈ cs.getLast?, Classifier.ofChar? c = none

instance (cs : List Char) : Decidable (Unmarked cs) := inferInstanceAs (Decidable (∀ c ∈ cs.getLast?, _))

/-- How the parts of a member are put together. -/
inductive Form where
  /-- The parameters in parentheses behind the name, and the type behind these. -/
  | method (parameters : String)
  /-- An attribute with a colon and its type behind the name. -/
  | nameFirst
  /-- An attribute with its type and a blank in front of the name. -/
  | typeFirst

namespace Form

/-- The parameters of a method. -/
def parameters : Form → Option String
  | method parameters => some parameters
  | nameFirst | typeFirst => none

/-- The parts without signs. -/
def body (name : String) (type : Option String) : Form → String
  | method parameters => name ++ "(" ++ parameters ++ ")" ++ type.elim "" (" " ++ ·)
  | nameFirst => name ++ ": " ++ type.getD ""
  | typeFirst => type.getD "" ++ " " ++ name

/-- What a form asks of the parts so that nothing else is taken for one of them. -/
def Admits (name : String) (type : Option String) : Form → Prop
  | method parameters =>
    '(' ∉ name.toList ∧ trim parameters = parameters ∧ ')' ∉ parameters.toList ∧
      ∀ t ∈ type, t.toList.head? ≠ some ':' ∧ Unmarked t.toList
  | nameFirst => '(' ∉ name.toList ∧ ':' ∉ name.toList ∧ ∀ t ∈ type, '(' ∉ t.toList ∧ Unmarked t.toList
  | typeFirst =>
    '(' ∉ name.toList ∧ ':' ∉ name.toList ∧ (∀ c ∈ name.toList, isBlank c = false) ∧ Unmarked name.toList ∧
      ∀ t ∈ type, '(' ∉ t.toList ∧ ':' ∉ t.toList

instance (name : String) (type : Option String) : (form : Form) → Decidable (form.Admits name type)
  | method _ => inferInstanceAs (Decidable (_ ∧ _ ∧ _ ∧ ∀ t ∈ type, _))
  | nameFirst => inferInstanceAs (Decidable (_ ∧ _ ∧ ∀ t ∈ type, _))
  | typeFirst => inferInstanceAs (Decidable (_ ∧ _ ∧ _ ∧ _ ∧ ∀ t ∈ type, _))

end Form

/-- A member together with the form that it is written in. -/
structure Signature where
  visibility : Option Visibility
  form : Form
  name : String
  type : Option String
  classifier : Option Classifier

namespace Signature

/-- The member that is written. -/
def member (s : Signature) : Member where
  visibility := s.visibility
  name := s.name
  type := s.type
  parameters := s.form.parameters
  classifier := s.classifier

/-- The text of the member. -/
def text (s : Signature) : String :=
  String.ofList (Visibility.sign s.visibility) ++ s.form.body s.name s.type ++
    String.ofList (Classifier.sign s.classifier)

/-- What is asked of the parts. -/
structure WellFormed (s : Signature) : Prop where
  name_trimmed : trim s.name = s.name
  type_trimmed : ∀ t ∈ s.type, t ≠ "" ∧ trim t = t
  admits : s.form.Admits s.name s.type
  /-- Without a visibility nothing in front looks like one. -/
  unsigned : s.visibility = none → ∀ c ∈ (trim s.text).toList.head?, Visibility.ofChar? c = none

instance (s : Signature) : Decidable s.WellFormed :=
  decidable_of_iff (trim s.name = s.name ∧ (∀ t ∈ s.type, t ≠ "" ∧ trim t = t) ∧ s.form.Admits s.name s.type ∧
      (s.visibility = none → ∀ c ∈ (trim s.text).toList.head?, Visibility.ofChar? c = none))
    ⟨fun ⟨name, type, admits, unsigned⟩ => ⟨name, type, admits, unsigned⟩,
      fun ⟨name, type, admits, unsigned⟩ => ⟨name, type, admits, unsigned⟩⟩

end Signature

open Chars

variable {visibility : Option Visibility} {classifier : Option Classifier} {name type rest cs : List Char}

/-- What follows the sign of the visibility, or all if there is none. The blanks in front of it may be gone. -/
theorem splitVisibility_trim (visibility : Option Visibility) (cs : List Char)
    (unsigned : visibility = none → ∀ c ∈ (Chars.trim cs).head?, Visibility.ofChar? c = none) :
    ∃ rest, splitVisibility (Chars.trim (Visibility.sign visibility ++ cs)) = (visibility, rest) ∧
      (rest = Chars.trimEnd cs ∨ rest = Chars.trim cs) := by
  cases visibility with
  | none =>
    refine ⟨Chars.trim cs, ?_, .inr rfl⟩
    cases h : Chars.trim cs with
    | nil => simp [Visibility.sign, h, splitVisibility]
    | cons c rest =>
      have none : Visibility.ofChar? c = none := unsigned rfl c (by rw [h]; rfl)
      simp [Visibility.sign, h, splitVisibility, none]
  | some v =>
    refine ⟨Chars.trimEnd cs, ?_, .inl rfl⟩
    have front : Visibility.sign (some v) ++ cs = v.toChar :: cs := rfl
    rw [front, trim_cons_of_not_blank v.not_isBlank_toChar, splitVisibility, v.ofChar?_toChar]

/-- What stands in front of the sign of the classifier. -/
theorem splitClassifier_append (cs : List Char) (classifier : Option Classifier)
    (unmarked : classifier = none → Unmarked (Chars.trimEnd cs)) :
    splitClassifier (cs ++ Classifier.sign classifier) = (Chars.trimEnd cs, classifier) := by
  cases classifier with
  | none =>
    have none : (Chars.trimEnd cs).getLast?.bind Classifier.ofChar? = none :=
      Option.bind_eq_none_iff.2 (unmarked rfl)
    simp [splitClassifier, Classifier.sign, none]
  | some c =>
    have kept : Chars.trimEnd (cs ++ [c.toChar]) = cs ++ [c.toChar] :=
      trimEnd_append_of_not_blank cs c.not_isBlank_toChar []
    simp [splitClassifier, Classifier.sign, kept, c.ofChar?_toChar]

theorem splitClassifier_trimEnd (cs : List Char) : splitClassifier (Chars.trimEnd cs) = splitClassifier cs := by
  have again : Chars.trimEnd (Chars.trimEnd cs) = Chars.trimEnd cs := List.rdropWhile_idempotent isBlank cs
  rw [splitClassifier, again, splitClassifier]

/-- The text of a part that is cut off. -/
theorem filled?_of_trim {t : String} (h : Chars.trim cs = t.toList) (hne : t ≠ "") : filled? cs = some t := by
  rw [filled?, h]
  split
  · rename_i e
    exact absurd (String.toList_eq_nil_iff.1 e) hne
  · rw [String.ofList_toList]

/-! ## Methods -/

theorem method?_append {parameters : List Char} (hne : name ≠ []) (hname : '(' ∉ name) (hparameters : ')' ∉ parameters)
    (visibility : Option Visibility) (rest : List Char) :
    method? visibility (name ++ '(' :: (parameters ++ ')' :: rest)) =
      some
        { visibility
          name := String.ofList (Chars.trim name)
          type := filled? (trimStartBy (· == ':') (Chars.trimStart (splitClassifier rest).1))
          parameters := some (String.ofList (Chars.trim parameters))
          classifier := (splitClassifier rest).2 } := by
  have opens : (name ++ '(' :: (parameters ++ ')' :: rest)).span (· != '(') =
      (name, '(' :: (parameters ++ ')' :: rest)) :=
    span_eq_iff.2 ⟨rfl, fun c hc => bne_iff_ne.2 fun e => hname (e ▸ hc), by simp⟩
  have closes : (parameters ++ ')' :: rest).span (· != ')') = (parameters, ')' :: rest) :=
    span_eq_iff.2 ⟨rfl, fun c hc => bne_iff_ne.2 fun e => hparameters (e ▸ hc), by simp⟩
  obtain ⟨c, name, rfl⟩ := List.exists_cons_of_ne_nil hne
  rw [method?, opens]
  simp only [closes]

theorem method?_of_not_mem (h : '(' ∉ cs) (visibility : Option Visibility) : method? visibility cs = none := by
  have none : cs.span (· != '(') = (cs, []) :=
    span_eq_iff.2 ⟨(List.append_nil cs).symm, fun c hc => bne_iff_ne.2 fun e => h (e ▸ hc), nofun⟩
  rw [method?, none]
  cases cs <;> rfl

/-! ## Attributes -/

/-- The name in front of the colon. -/
theorem splitAttribute_nameFirst (h : ':' ∉ name) (type : List Char) :
    splitAttribute (name ++ ':' :: type) = (filled? type, Chars.trim name) := by
  have cut : (name ++ ':' :: type).span (· != ':') = (name, ':' :: type) :=
    span_eq_iff.2 ⟨rfl, fun c hc => bne_iff_ne.2 fun e => h (e ▸ hc), by simp⟩
  rw [splitAttribute, cut]

/-- The last word is the name, unless there is a colon. -/
theorem splitAttribute_typeFirst (free : ':' ∉ cs) (hname : ∀ c ∈ name, isBlank c = false)
    (h : Chars.trim cs = name ∧ type = [] ∨ Chars.trim cs = type ++ ' ' :: name) :
    splitAttribute cs = (filled? type, name) := by
  have whole : cs.span (· != ':') = (cs, []) :=
    span_eq_iff.2 ⟨(List.append_nil cs).symm, fun c hc => bne_iff_ne.2 fun e => free (e ▸ hc), nofun⟩
  have word : ∀ c ∈ name.reverse, (!isBlank c) = true := by simpa using hname
  rw [splitAttribute, whole]
  obtain ⟨h, rfl⟩ | h := h
  · have cut : (Chars.trim cs).reverse.span (!isBlank ·) = (name.reverse, []) :=
      span_eq_iff.2 ⟨by rw [h, List.append_nil], word, nofun⟩
    simp only [cut, List.reverse_reverse]
    rfl
  · have cut : (Chars.trim cs).reverse.span (!isBlank ·) = (name.reverse, ' ' :: type.reverse) := by
      refine span_eq_iff.2 ⟨by simp [h], word, ?_⟩
      rintro c ⟨⟩
      rfl
    simp only [cut, List.reverse_reverse]

theorem attribute?_eq_some {text : List Char} {t : Option String} (visibility : Option Visibility)
    (hcs : splitClassifier cs = (text, classifier)) (htext : splitAttribute text = (t, name)) (hne : name ≠ []) :
    attribute? visibility cs = some ⟨visibility, String.ofList name, t, none, classifier⟩ := by
  have some : cs.isEmpty = false := by
    refine Bool.eq_false_iff.2 fun empty => hne ?_
    obtain rfl := List.isEmpty_iff.1 empty
    obtain ⟨rfl, -⟩ := Prod.mk.inj hcs
    exact (Prod.mk.inj htext).2.symm
  simp only [attribute?, some, hcs, htext, Bool.false_eq_true, if_false]

/-! ## The three forms -/

section

variable {n : String} {t : Option String}

/-- The type behind the parentheses, in front of the sign of the classifier. -/
theorem splitClassifier_type (ht : ∀ u ∈ t, u ≠ "" ∧ trim u = u)
    (htype : ∀ u ∈ t, u.toList.head? ≠ some ':' ∧ Unmarked u.toList) (classifier : Option Classifier) :
    ∃ rest, splitClassifier ((t.elim "" (" " ++ ·)).toList ++ Classifier.sign classifier) = (rest, classifier) ∧
      filled? (trimStartBy (· == ':') (Chars.trimStart rest)) = t := by
  cases t with
  | none => exact ⟨[], splitClassifier_append [] classifier (by simp [Unmarked]), rfl⟩
  | some u =>
    obtain ⟨hne, hu⟩ := ht u rfl
    obtain ⟨hhead, hlast⟩ := htype u rfl
    have trimmed := trim_toList_of_trimmed hu
    have hnil : u.toList ≠ [] := mt String.toList_eq_nil_iff.1 hne
    have kept : Chars.trimEnd (' ' :: u.toList) = ' ' :: u.toList := trimEnd_append_of_trimmed trimmed hnil [' ']
    have spaced : ((some u).elim "" (" " ++ ·)).toList = ' ' :: u.toList := String.toList_append
    refine ⟨' ' :: u.toList, ?_, ?_⟩
    · rw [spaced, splitClassifier_append, kept]
      rw [kept, Unmarked, List.getLast?_cons_of_ne_nil hnil]
      exact fun _ => hlast
    · have start : Chars.trimStart (' ' :: u.toList) = u.toList := (trim_eq_iff.1 trimmed).1
      have noColon : trimStartBy (· == ':') u.toList = u.toList := by
        cases e : u.toList with
        | nil => rfl
        | cons c rest => exact List.dropWhile_cons_of_neg (by simpa [e] using hhead)
      rw [start, noColon]
      exact filled?_of_trim trimmed hne

/-- What a method is read as. -/
theorem method?_body {parameters : String} (hne : n ≠ "") (hn : trim n = n) (ht : ∀ u ∈ t, u ≠ "" ∧ trim u = u)
    (admits : Form.Admits n t (.method parameters))
    (hcs : cs = Chars.trimEnd ((Form.body n t (.method parameters)).toList ++ Classifier.sign classifier)) :
    method? visibility cs = some ⟨visibility, n, t, some parameters, classifier⟩ := by
  obtain ⟨hname, hparameters, hclose, htype⟩ := admits
  have hnil : n.toList ≠ [] := mt String.toList_eq_nil_iff.1 hne
  obtain ⟨rest, hrest, type⟩ := splitClassifier_type ht htype classifier
  have e : cs = n.toList ++ '(' :: (parameters.toList ++ ')' ::
      Chars.trimEnd ((t.elim "" (" " ++ ·)).toList ++ Classifier.sign classifier)) := by
    have := trimEnd_append_of_not_blank (n.toList ++ '(' :: parameters.toList) (c := ')') rfl
      ((t.elim "" (" " ++ ·)).toList ++ Classifier.sign classifier)
    rw [hcs]
    simpa [Form.body] using this
  rw [e, method?_append hnil hname hclose, splitClassifier_trimEnd, hrest, type, trim_toList_of_trimmed hn,
    trim_toList_of_trimmed hparameters, String.ofList_toList, String.ofList_toList]

/-- What an attribute with its name in front is read as. -/
theorem attribute?_nameFirst (hne : n ≠ "") (hn : trim n = n) (ht : ∀ u ∈ t, u ≠ "" ∧ trim u = u)
    (admits : Form.Admits n t .nameFirst)
    (hcs : cs = Chars.trimEnd ((Form.body n t .nameFirst).toList ++ Classifier.sign classifier)) :
    attribute? visibility cs = some ⟨visibility, n, t, none, classifier⟩ := by
  obtain ⟨-, hcolon, htype⟩ := admits
  have hnil : n.toList ≠ [] := mt String.toList_eq_nil_iff.1 hne
  have kept : Chars.trimEnd (Form.body n t .nameFirst).toList =
      n.toList ++ ':' :: Chars.trimEnd (' ' :: (t.getD "").toList) := by
    rw [← trimEnd_append_of_not_blank _ rfl]
    simp [Form.body]
  -- The type is trimmed, and so is its absence.
  have type : Unmarked (':' :: Chars.trimEnd (' ' :: (t.getD "").toList)) ∧
      filled? (Chars.trimEnd (' ' :: (t.getD "").toList)) = t := by
    cases t with
    | none => exact ⟨by simp [Unmarked, show Chars.trimEnd [' '] = [] from rfl, Classifier.ofChar?], rfl⟩
    | some u =>
      obtain ⟨hu, trimmed⟩ := ht u rfl
      have hnil : u.toList ≠ [] := mt String.toList_eq_nil_iff.1 hu
      have spaced : Chars.trimEnd (' ' :: u.toList) = ' ' :: u.toList :=
        trimEnd_append_of_trimmed (trim_toList_of_trimmed trimmed) hnil [' ']
      rw [Option.getD_some, spaced, Unmarked, List.getLast?_cons_of_ne_nil (List.cons_ne_nil _ _),
        List.getLast?_cons_of_ne_nil hnil]
      exact ⟨(htype u rfl).2, filled?_of_trim (trim_toList_of_trimmed trimmed) hu⟩
  have split := splitClassifier_append (Form.body n t .nameFirst).toList classifier fun _ => by
    rw [kept, Unmarked, List.getLast?_append_of_ne_nil _ (List.cons_ne_nil _ _)]
    exact type.1
  rw [kept, ← splitClassifier_trimEnd, ← hcs] at split
  have := attribute?_eq_some visibility split (splitAttribute_nameFirst hcolon _) (by rwa [trim_toList_of_trimmed hn])
  rwa [trim_toList_of_trimmed hn, type.2, String.ofList_toList] at this

/-- What an attribute with its type in front is read as. -/
theorem attribute?_typeFirst (hne : n ≠ "") (hn : trim n = n) (ht : ∀ u ∈ t, u ≠ "" ∧ trim u = u)
    (admits : Form.Admits n t .typeFirst)
    (hcs : let core := (Form.body n t .typeFirst).toList ++ Classifier.sign classifier
      cs = Chars.trimEnd core ∨ cs = Chars.trim core) :
    attribute? visibility cs = some ⟨visibility, n, t, none, classifier⟩ := by
  obtain ⟨-, hcolon, word, hlast, htype⟩ := admits
  have hnil : n.toList ≠ [] := mt String.toList_eq_nil_iff.1 hne
  have kept (front : List Char) : Chars.trimEnd (front ++ n.toList) = front ++ n.toList :=
    trimEnd_append_of_trimmed (trim_toList_of_trimmed hn) hnil front
  -- What stands in front of the name decides nothing about the classifier.
  have split (front : List Char) :
      splitClassifier (front ++ n.toList ++ Classifier.sign classifier) = (front ++ n.toList, classifier) := by
    rw [splitClassifier_append _ _ fun _ => ?_, kept]
    rw [kept, Unmarked, List.getLast?_append_of_ne_nil _ hnil]
    exact hlast
  have cut (front type : List Char) (h : cs = Chars.trimEnd (front ++ n.toList ++ Classifier.sign classifier))
      (free : ':' ∉ front) (whole : Chars.trim (front ++ n.toList) = n.toList ∧ type = [] ∨
        Chars.trim (front ++ n.toList) = type ++ ' ' :: n.toList) :
      attribute? visibility cs = some ⟨visibility, n, filled? type, none, classifier⟩ := by
    have signs : splitClassifier cs = (front ++ n.toList, classifier) := by rw [h, splitClassifier_trimEnd, split]
    have noColon : ':' ∉ front ++ n.toList := by simp [free, hcolon]
    rw [attribute?_eq_some visibility signs (splitAttribute_typeFirst noColon word whole) hnil, String.ofList_toList]
  cases t with
  | none =>
    have blank (rest : List Char) : Chars.trim ([' '] ++ (n.toList ++ rest)) = Chars.trimEnd (n.toList ++ rest) := by
      rw [← trim_append_of_trimmed (trim_toList_of_trimmed hn) hnil]
      rfl
    have core : (Form.body n none .typeFirst).toList ++ Classifier.sign classifier =
        [' '] ++ (n.toList ++ Classifier.sign classifier) := by simp [Form.body]
    rw [core] at hcs
    obtain h | h := hcs
    · have bare : Chars.trim ([' '] ++ n.toList) = n.toList := by
        have := blank []
        rw [List.append_nil] at this
        exact this.trans (kept [])
      exact cut [' '] [] h (by decide) (.inl ⟨bare, rfl⟩)
    · exact cut [] [] (h.trans (blank _)) nofun (.inl ⟨trim_toList_of_trimmed hn, rfl⟩)
  | some u =>
    obtain ⟨hu, trimmed⟩ := ht u rfl
    have unil : u.toList ≠ [] := mt String.toList_eq_nil_iff.1 hu
    have front (rest : List Char) : Chars.trim (u.toList ++ rest) = Chars.trimEnd (u.toList ++ rest) :=
      trim_append_of_trimmed (trim_toList_of_trimmed trimmed) unil rest
    have core : (Form.body n (some u) .typeFirst).toList ++ Classifier.sign classifier =
        u.toList ++ [' '] ++ n.toList ++ Classifier.sign classifier := by simp [Form.body]
    have h : cs = Chars.trimEnd (u.toList ++ [' '] ++ n.toList ++ Classifier.sign classifier) := by
      rw [core] at hcs
      simpa [front] using hcs
    rw [cut _ u.toList h (by simp [(htype u rfl).2]) (.inr ?_), filled?_of_trim (trim_toList_of_trimmed trimmed) hu]
    rw [List.append_assoc, front, ← List.append_assoc, kept]
    simp

end

/-! ## Reading the text -/

theorem toList_text (s : Signature) : s.text.toList =
    Visibility.sign s.visibility ++ ((s.form.body s.name s.type).toList ++ Classifier.sign s.classifier) := by
  simp [Signature.text]

/-- An attribute has no parenthesis. -/
theorem not_mem_body {form : Form} (h : form.parameters = none) (admits : form.Admits n t) :
    '(' ∉ (form.body n t).toList := by
  have absent : '(' ∉ n.toList ∧ ∀ u ∈ t, '(' ∉ u.toList := by
    cases form with
    | method parameters => nomatch h
    | nameFirst => exact ⟨admits.1, fun u hu => (admits.2.2 u hu).1⟩
    | typeFirst => exact ⟨admits.1, fun u hu => (admits.2.2.2.2 u hu).1⟩
  cases form <;> cases t <;> simp_all [Form.body, Form.parameters]

theorem not_mem_of_trimmed {core : List Char} (hcs : cs = Chars.trimEnd core ∨ cs = Chars.trim core) {c : Char}
    (h : c ∉ core) : c ∉ cs := by
  obtain rfl | rfl := hcs
  · exact fun hc => h ((trimEnd_isPrefix core).subset hc)
  · exact fun hc => h (mem_of_mem_trim hc)

/-- What is left of the text without the sign of the visibility is read as the member. -/
theorem read_body {s : Signature} (h : s.WellFormed) (hne : s.name ≠ "")
    (hcs : let core := (s.form.body s.name s.type).toList ++ Classifier.sign s.classifier
      cs = Chars.trimEnd core ∨ cs = Chars.trim core) :
    ((method? s.visibility cs).orElse fun _ => attribute? s.visibility cs) = some s.member := by
  obtain ⟨visibility, form, n, t, classifier⟩ := s
  obtain ⟨hn, ht, admits, -⟩ := h
  dsimp only at *
  have noMethod (h : form.parameters = none) : method? visibility cs = none := by
    refine method?_of_not_mem (not_mem_of_trimmed hcs ?_) visibility
    have unsigned : '(' ∉ Classifier.sign classifier := by rcases classifier with _ | _ | _ <;> decide
    exact fun hc => (List.mem_append.1 hc).elim (not_mem_body h admits) unsigned
  -- What starts with the name is not trimmed at its start.
  have front (rest : List Char) : Chars.trim (n.toList ++ rest) = Chars.trimEnd (n.toList ++ rest) :=
    trim_append_of_trimmed (trim_toList_of_trimmed hn) (mt String.toList_eq_nil_iff.1 hne) rest
  cases form with
  | method parameters =>
    have ended : cs = Chars.trimEnd ((Form.body n t (.method parameters)).toList ++ Classifier.sign classifier) := by
      simpa [Form.body, front] using hcs
    rw [method?_body hne hn ht admits ended]
    rfl
  | nameFirst =>
    have ended : cs = Chars.trimEnd ((Form.body n t .nameFirst).toList ++ Classifier.sign classifier) := by
      simpa [Form.body, front] using hcs
    rw [noMethod rfl, Option.orElse_none]
    exact attribute?_nameFirst hne hn ht admits ended
  | typeFirst =>
    rw [noMethod rfl, Option.orElse_none]
    exact attribute?_typeFirst hne hn ht admits hcs

/-- The text of a member with a name is read as this member, with all parts as they were, and no text is read as a
member without one. -/
theorem ofText?_signature {s : Signature} (h : s.WellFormed) : ofText? s.text = some s.member ↔ s.name ≠ "" := by
  constructor
  · intro e
    obtain ⟨-, named⟩ := Option.filter_eq_some_iff.1 e
    exact bne_iff_ne.1 named
  · intro hne
    obtain ⟨cs, signs, hcs⟩ := splitVisibility_trim s.visibility
      ((s.form.body s.name s.type).toList ++ Classifier.sign s.classifier) fun none c hc => by
        refine h.unsigned none c ?_
        rw [trim, String.toList_ofList, toList_text, none]
        exact hc
    rw [ofText?, toList_text, signs]
    simp only [read_body h hne hcs, Option.filter_some]
    exact if_pos (bne_iff_ne.2 hne)

/-- A method with all of its parts, and an attribute in either form. -/
theorem ofText?_signature_each_form :
    ofText? "+deposit(amount: int) bool$" =
        some ⟨some .everyone, "deposit", some "bool", some "amount: int", some .static⟩ ∧
      ofText? "balance: BigDecimal" = some ⟨none, "balance", some "BigDecimal", none, none⟩ ∧
      ofText? "~List~int~ ids*" = some ⟨some .package, "ids", some "List~int~", none, some .deferred⟩ :=
  ⟨(ofText?_signature (s := ⟨some .everyone, .method "amount: int", "deposit", some "bool", some .static⟩)
      (by decide)).2 (by decide),
    (ofText?_signature (s := ⟨none, .nameFirst, "balance", some "BigDecimal", none⟩) (by decide)).2 (by decide),
    (ofText?_signature (s := ⟨some .package, .typeFirst, "ids", some "List~int~", some .deferred⟩)
      (by decide)).2 (by decide)⟩

/-- An attribute with a type and no name meets all that is asked of the parts, and its text is no member. -/
theorem ofText?_without_name : ∃ s : Signature, s.WellFormed ∧ s.form.parameters = none ∧ s.text = ": int" ∧
    ofText? ": int" = none :=
  ⟨⟨none, .nameFirst, "", some "int", none⟩, by decide, rfl, by decide, by decide⟩

end Member

end DiagramText.ClassDiagram
