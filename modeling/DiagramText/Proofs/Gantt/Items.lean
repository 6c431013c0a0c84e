import DiagramText.Gantt.Document
import DiagramText.Proofs.Gantt.Durations
import DiagramText.Proofs.Peg.Match
import DiagramText.Proofs.Reading

/-!
# Items of tasks

The data of a task are items between commas: the marks of the task, and up to three items behind them. What is written
with a comma and a blank between the items (`Data.text`) is read back as its parts (`Data.items_text`,
`Schedule.schedule?_items`). The items behind the marks are told apart by their number and by their forms. A date is
what has no other form, so that a text which looks like a mark, a duration or a reference is no date.

Data are read whenever no item is empty and one to three items come behind the marks (`exists_entry_iff`).
-/

namespace DiagramText

namespace Gantt

open Numeral

/-! ## References -/

/-- Whether a text is the word with a blank behind it, whatever comes then. -/
def Refers (word text : String) : Prop :=
  ∃ blank rest, isBlank blank = true ∧ text.toList = word.toList ++ blank :: rest

theorem references?_eq {word item : String} {blank : Char} {rest : List Char} (h : isBlank blank = true)
    (split : item.toList = word.toList ++ blank :: rest) :
    references? item word = some ((Chars.words rest).map String.ofList) := by
  rw [references?, Chars.dropStart?_eq_some.2 split]
  exact if_pos h

theorem references?_eq_none {word item : String} : references? item word = none ↔ ¬ Refers word item := by
  constructor
  · rintro none ⟨blank, rest, h, split⟩
    rw [references?_eq h split] at none
    cases none
  · intro h
    rw [references?]
    split
    · rename_i blank rest found
      exact if_neg fun hblank => h ⟨blank, rest, hblank, Chars.dropStart?_eq_some.1 found⟩
    · rfl

/-- The id of another task, and the blanks in front of it. -/
structure Reference where
  gap : String
  id : String
  gap_ne : gap ≠ ""
  gap_blank : ∀ c ∈ gap.toList, isBlank c = true ∧ c ≠ '\r' ∧ c ≠ '\n'
  id_ne : id ≠ ""
  id_word : ∀ c ∈ id.toList, isBlank c = false ∧ c ≠ ','

namespace Reference

/-- The characters of the reference. -/
def chars (r : Reference) : List Char := r.gap.toList ++ r.id.toList

/-- The text of a word and references behind it. -/
def written (word : String) (refs : List Reference) : String :=
  String.ofList (word.toList ++ refs.flatMap chars)

theorem exists_chars (r : Reference) :
    ∃ blank gap, r.chars = blank :: (gap ++ r.id.toList) ∧ isBlank blank = true := by
  obtain ⟨blank, gap, hgap⟩ := List.exists_cons_of_ne_nil (mt String.toList_eq_nil_iff.1 r.gap_ne)
  have blanks := r.gap_blank
  rw [hgap, List.forall_mem_cons] at blanks
  exact ⟨blank, gap, by rw [chars, hgap, List.cons_append], blanks.1.1⟩

theorem words_chars (refs : List Reference) : Chars.words (refs.flatMap chars) = refs.map (·.id.toList) := by
  induction refs with
  | nil => rfl
  | cons r refs ih =>
    have stop : ∀ c ∈ (refs.flatMap chars).head?, isBlank c = true := by
      cases refs with
      | nil => nofun
      | cons next refs =>
        obtain ⟨blank, gap, e, hblank⟩ := next.exists_chars
        rw [List.flatMap_cons, e]
        rintro c ⟨⟩
        exact hblank
    rw [List.flatMap_cons, chars, List.append_assoc, Chars.words_append_of_blank fun c hc => (r.gap_blank c hc).1,
      Chars.words_append (mt String.toList_eq_nil_iff.1 r.id_ne) (fun c hc => (r.id_word c hc).1) stop, ih,
      List.map_cons]

/-- References are read as their ids. -/
theorem references?_written {refs : List Reference} (some_ref : refs ≠ []) (word : String) :
    references? (written word refs) word = some (refs.map id) := by
  obtain ⟨r, refs, rfl⟩ := List.exists_cons_of_ne_nil some_ref
  obtain ⟨blank, gap, e, hblank⟩ := r.exists_chars
  have split : (written word (r :: refs)).toList =
      word.toList ++ blank :: (gap ++ r.id.toList ++ refs.flatMap chars) := by
    rw [written, String.toList_ofList, List.flatMap_cons, e, List.cons_append]
  have ids := words_chars (r :: refs)
  rw [List.flatMap_cons, e, List.cons_append, Chars.words_cons_of_blank hblank] at ids
  rw [references?_eq hblank split, ids, List.map_map]
  simp [Function.comp_def]

end Reference

/-! ## Items -/

/-- Whether a text may stand as an item. -/
structure IsItem (text : String) : Prop where
  ne : text ≠ ""
  trimmed : trim text = text
  plain : ∀ c ∈ text.toList, c ≠ ',' ∧ c ≠ '\r' ∧ c ≠ '\n'

theorem IsItem.chars_ne {text : String} (h : IsItem text) : text.toList ≠ [] := mt String.toList_eq_nil_iff.1 h.ne

theorem IsItem.trim_chars {text : String} (h : IsItem text) : Chars.trim text.toList = text.toList :=
  Chars.trim_toList_of_trimmed h.trimmed

theorem inLine_of_not_isBlank {c : Char} (h : isBlank c = false) : c ≠ '\r' ∧ c ≠ '\n' := by
  refine ⟨?_, ?_⟩
  all_goals
    rintro rfl
    cases h

/-- A text without blanks is an item. -/
theorem isItem_of_word {text : String} (ne : text ≠ "") (h : ∀ c ∈ text.toList, isBlank c = false ∧ c ≠ ',') :
    IsItem text where
  ne := ne
  trimmed := by
    rw [trim, Chars.trim_word (mt String.toList_eq_nil_iff.1 ne) fun c hc => (h c hc).1, String.ofList_toList]
  plain c hc := by
    obtain ⟨full, comma⟩ := h c hc
    exact ⟨comma, inLine_of_not_isBlank full⟩

theorem Reference.isItem_written {word : String} (hword : IsItem word) {refs : List Reference}
    (some_ref : refs ≠ []) : IsItem (written word refs) where
  ne := by
    refine mt String.toList_eq_nil_iff.2 ?_
    rw [written, String.toList_ofList]
    exact List.append_ne_nil_of_left_ne_nil hword.chars_ne _
  trimmed := by
    obtain ⟨before, last, rfl⟩ := (List.eq_nil_or_concat' refs).resolve_left some_ref
    have stop := Chars.trimEnd_append_word (word.toList ++ before.flatMap chars ++ last.gap.toList)
      (mt String.toList_eq_nil_iff.1 last.id_ne) (fun c hc => (last.id_word c hc).1) []
    have split : word.toList ++ (before ++ [last]).flatMap chars =
        word.toList ++ before.flatMap chars ++ last.gap.toList ++ last.id.toList := by
      simp [chars]
    rw [trim, written, String.toList_ofList, Chars.trim_append_of_trimmed hword.trim_chars hword.chars_ne, split]
    rw [List.append_nil, Chars.trimEnd_nil, List.append_nil] at stop
    rw [stop]
  plain := by
    rw [written, String.toList_ofList]
    intro c hc
    obtain hc | hc := List.mem_append.1 hc
    · exact hword.plain c hc
    · obtain ⟨r, -, hc⟩ := List.mem_flatMap.1 hc
      obtain hc | hc := List.mem_append.1 hc
      · obtain ⟨hblank, inLine⟩ := r.gap_blank c hc
        refine ⟨?_, inLine⟩
        rintro rfl
        cases hblank
      · obtain ⟨full, comma⟩ := r.id_word c hc
        exact ⟨comma, inLine_of_not_isBlank full⟩

/-- The items of the data of a task. -/
def items (data : String) : List String := (splitOnChar (trim data) ',').map trim

/-- The text of items. -/
def joined (items : List String) : String := ", ".intercalate items

theorem toList_joined (texts : List String) :
    (joined texts).toList = [',', ' '].intercalate (texts.map String.toList) := String.toList_intercalate

theorem joined_cons_cons (text next : String) (texts : List String) :
    (joined (text :: next :: texts)).toList = text.toList ++ ',' :: ' ' :: (joined (next :: texts)).toList := by
  rw [toList_joined, List.map_cons, List.map_cons, List.intercalate_cons_cons, ← List.map_cons, ← toList_joined]
  simp

theorem joined_singleton (text : String) : (joined [text]).toList = text.toList := by
  rw [toList_joined, List.map_singleton, List.intercalate_singleton]

section

variable {texts : List String} (some_item : texts ≠ []) (h : ∀ text ∈ texts, IsItem text)
include some_item h

/-- Items that are joined begin with the first of them. -/
theorem exists_joined : ∃ text ∈ texts, ∃ more, (joined texts).toList = text.toList ++ more := by
  match texts, some_item with
  | [text], _ => exact ⟨text, List.mem_singleton_self _, [], by rw [joined_singleton, List.append_nil]⟩
  | text :: next :: texts, _ => exact ⟨text, List.mem_cons_self, _, joined_cons_cons ..⟩

theorem joined_ne_nil : (joined texts).toList ≠ [] := by
  obtain ⟨text, mem, more, e⟩ := exists_joined some_item h
  rw [e]
  exact List.append_ne_nil_of_left_ne_nil (h text mem).chars_ne more

/-- What is true of one item, and stays so with an item in front of others, is true of items. -/
@[elab_as_elim]
theorem items_ind {motive : List String → Prop} (last : ∀ text, IsItem text → motive [text])
    (more : ∀ text next texts, IsItem text → (∀ text ∈ next :: texts, IsItem text) → motive (next :: texts) →
      motive (text :: next :: texts)) : motive texts := by
  induction texts with
  | nil => exact absurd rfl some_item
  | cons text texts ih =>
    obtain ⟨item, items⟩ := List.forall_mem_cons.1 h
    cases texts with
    | nil => exact last text item
    | cons next texts => exact more text next texts item items (ih (List.cons_ne_nil _ _) items)

theorem inLine_joined : ∀ c ∈ (joined texts).toList, c ≠ '\r' ∧ c ≠ '\n' := by
  refine items_ind some_item h (fun text item => ?_) fun text next texts item _ later => ?_
  · rw [joined_singleton]
    exact fun c hc => (item.plain c hc).2
  · rw [joined_cons_cons, List.forall_mem_append, List.forall_mem_cons, List.forall_mem_cons]
    exact ⟨fun c hc => (item.plain c hc).2, by decide, by decide, later⟩

/-- Items that are joined end with the last of them. -/
theorem trimEnd_joined : Chars.trimEnd (joined texts).toList = (joined texts).toList := by
  refine items_ind some_item h (fun text item => ?_) fun text next texts _ items later => ?_
  · rw [joined_singleton]
    exact (Chars.trim_eq_iff.1 item.trim_chars).2
  · have full := joined_ne_nil (List.cons_ne_nil next texts) items
    have whole := Chars.trimEnd_append_of_ne_nil (text.toList ++ [',', ' ']) (by rwa [later])
    rw [later] at whole
    rw [joined_cons_cons]
    simpa using whole

theorem trim_joined : trim (joined texts) = joined texts := by
  obtain ⟨text, mem, more, e⟩ := exists_joined some_item h
  have front := Chars.trim_append_of_trimmed (h text mem).trim_chars (h text mem).chars_ne more
  rw [← e, trimEnd_joined some_item h] at front
  rw [trim, front, String.ofList_toList]

/-- The pieces between commas are the items, with a blank in front of all but the first. -/
theorem splitBy_joined :
    (Chars.splitBy (· == ',') (joined texts).toList).map Chars.trim = texts.map String.toList := by
  have noComma {text : String} (item : IsItem text) : ∀ c ∈ text.toList, (c == ',') = false := fun c hc =>
    beq_eq_false_iff_ne.2 (item.plain c hc).1
  refine items_ind some_item h (fun text item => ?_) fun text next texts item _ later => ?_
  · rw [joined_singleton, Chars.splitBy_of_not_mem (noComma item), List.map_singleton, item.trim_chars]
    rfl
  · rw [joined_cons_cons, Chars.splitBy_append_cons (noComma item) rfl, List.map_cons, item.trim_chars,
      List.map_cons, ← later]
    refine congrArg _ ?_
    -- the blank behind the comma belongs to the piece, and is trimmed
    obtain ⟨piece, pieces, e⟩ := List.exists_cons_of_ne_nil
      (@Chars.splitBy_ne_nil (· == ',') (joined (next :: texts)).toList)
    rw [Chars.splitBy, if_neg (by decide), e]
    rfl

/-- Items that are joined are found again. -/
theorem items_joined : items (joined texts) = texts := by
  have found := congrArg (List.map String.ofList) (splitBy_joined some_item h)
  rw [List.map_map, List.map_map] at found
  rw [items, trim_joined some_item h, splitOnChar, List.map_map]
  simpa [Function.comp_def, trim] using found

end

/-! ## Marks -/

/-- Whether an item is the word for a mark. -/
def isMark (item : String) : Bool := (Tag.ofWord? item).isSome

theorem Tag.ofWord?_word (tag : Tag) : ofWord? tag.word = some tag := by
  cases tag <;> rfl

/-- The marks are the words for marks at the start, as far as they go. -/
theorem splitTags_eq (items : List String) :
    splitTags items = ((items.takeWhile isMark).filterMap Tag.ofWord?, items.dropWhile isMark) := by
  induction items with
  | nil => rfl
  | cons item items ih =>
    rw [splitTags]
    cases found : Tag.ofWord? item with
    | some tag =>
      have mark : isMark item = true := by rw [isMark, found]; rfl
      rw [List.takeWhile_cons_of_pos mark, List.dropWhile_cons_of_pos mark, ih, List.filterMap_cons_some found]
    | none =>
      have noMark : ¬ isMark item = true := by rw [isMark, found]; nofun
      rw [List.takeWhile_cons_of_neg noMark, List.dropWhile_cons_of_neg noMark]
      rfl

theorem splitTags_tags (tags : List Tag) {rest : List String} (h : ∀ item ∈ rest.head?, isMark item = false) :
    splitTags (tags.map Tag.word ++ rest) = (tags, rest) := by
  induction tags with
  | nil =>
    cases rest with
    | nil => rfl
    | cons item rest =>
      have noMark : Tag.ofWord? item = none := by simpa [isMark] using h item rfl
      rw [List.map_nil, List.nil_append, splitTags, noMark]
  | cons tag tags ih => rw [List.map_cons, List.cons_append, splitTags, tag.ofWord?_word, ih]

/-! ## Starts and ends -/

/-- Whether a text is a plain numeral with a unit. -/
def IsDuration (text : String) : Prop := ∃ (numeral : Decimal) (u : TimeUnit), numeral.IsPlain ∧
  text = Duration.written numeral u

theorem Duration.word_written (numeral : Decimal) (u : TimeUnit) :
    ∀ c ∈ (written numeral u).toList, isBlank c = false ∧ c ≠ ',' := by
  rw [written, String.toList_append]
  intro c hc
  obtain hc | hc := List.mem_append.1 hc
  · exact Decimal.forall_mem_text (p := fun c => isBlank c = false ∧ c ≠ ',') (by decide) (by decide) numeral c hc
  · exact u.word_suffix c hc

theorem Duration.written_ne (numeral : Decimal) (u : TimeUnit) : written numeral u ≠ "" := by
  refine mt String.toList_eq_nil_iff.2 ?_
  rw [written, String.toList_append]
  exact List.append_ne_nil_of_left_ne_nil numeral.text_ne_nil _

/-- A date is no duration where it is not written as one. -/
theorem Duration.ofText?_eq_none {text : String} (item : IsItem text) : ofText? text = none ↔ ¬ IsDuration text := by
  rw [Option.eq_none_iff_forall_ne_some]
  constructor
  · rintro none ⟨numeral, u, plain, rfl⟩
    exact none _ (ofText?_eq_some.2 ⟨numeral, u, plain, item.trim_chars, rfl⟩)
  · intro plain d found
    obtain ⟨numeral, u, isPlain, text, -⟩ := ofText?_eq_some.1 found
    exact plain ⟨numeral, u, isPlain, String.toList_inj.1 (item.trim_chars.symm.trans text)⟩

/-- A start that is written as an item. -/
inductive WrittenStart where
  | date (text : String) (item : IsItem text) (plain : ¬ Refers "after" text)
  | after (refs : List Reference) (some_ref : refs ≠ [])

/-- An end that is written as an item. -/
inductive WrittenFinish where
  | date (text : String) (item : IsItem text) (plain : ¬ Refers "until" text ∧ ¬ IsDuration text)
  | duration (numeral : Decimal) (unit : TimeUnit) (plain : numeral.IsPlain)
  | until (refs : List Reference) (some_ref : refs ≠ [])

namespace WrittenStart

/-- The item. -/
def text : WrittenStart → String
  | date text _ _ => text
  | after refs _ => Reference.written "after" refs

/-- The start that it stands for. -/
def start : WrittenStart → Start
  | date text _ _ => .date text
  | after refs _ => .after (refs.map Reference.id)

theorem isItem : ∀ s : WrittenStart, IsItem s.text
  | date _ item _ => item
  | after _ some_ref => Reference.isItem_written (isItem_of_word (by decide) (by decide)) some_ref

theorem ofItem_text : ∀ s : WrittenStart, Start.ofItem s.text = s.start
  | date text _ plain => by
    rw [WrittenStart.text, Start.ofItem, references?_eq_none.2 plain]
    rfl
  | after refs some_ref => by
    rw [text, Start.ofItem, Reference.references?_written some_ref]
    rfl

end WrittenStart

namespace WrittenFinish

/-- The item. -/
def text : WrittenFinish → String
  | date text _ _ => text
  | duration numeral unit _ => Duration.written numeral unit
  | .until refs _ => Reference.written "until" refs

/-- The end that it stands for. -/
noncomputable def finish : WrittenFinish → Finish
  | date text _ _ => .date text
  | duration numeral unit _ => .duration ⟨numeral.value, unit⟩
  | .until refs _ => .until (refs.map Reference.id)

theorem isItem : ∀ f : WrittenFinish, IsItem f.text
  | date _ item _ => item
  | duration numeral unit _ => isItem_of_word (Duration.written_ne numeral unit) (Duration.word_written numeral unit)
  | .until _ some_ref => Reference.isItem_written (isItem_of_word (by decide) (by decide)) some_ref

theorem ofItem_text : ∀ f : WrittenFinish, Finish.ofItem f.text = f.finish
  | date text item plain => by
    rw [WrittenFinish.text, Finish.ofItem, references?_eq_none.2 plain.1, (Duration.ofText?_eq_none item).2 plain.2]
    rfl
  | duration numeral unit plain => by
    have item := isItem_of_word (Duration.written_ne numeral unit) (Duration.word_written numeral unit)
    have noRefs : ¬ Refers "until" (Duration.written numeral unit) := by
      rintro ⟨blank, rest, hblank, split⟩
      have word := Duration.word_written numeral unit blank (by rw [split]; simp)
      exact absurd hblank (by rw [word.1]; decide)
    rw [text, Finish.ofItem, references?_eq_none.2 noRefs,
      Duration.ofText?_eq_some.2 ⟨numeral, unit, plain, item.trim_chars, rfl⟩]
    rfl
  | .until refs some_ref => by
    rw [text, Finish.ofItem, Reference.references?_written some_ref]
    rfl

end WrittenFinish

/-! ## Schedules -/

/-- When a task is done: its end, and its start if it gives one, perhaps with an id in front. -/
structure Schedule where
  lead : Option (Option String × WrittenStart)
  finish : WrittenFinish
  id_isItem : ∀ id ∈ lead.bind (·.1), IsItem id

namespace Schedule

/-- The id that is given. -/
def id (s : Schedule) : Option String := s.lead.bind (·.1)

/-- The start; without one it is the end of the task before. -/
def start (s : Schedule) : Start := s.lead.elim .previous (·.2.start)

/-- The items in their order. -/
def items (s : Schedule) : List String :=
  (s.lead.elim [] fun (id, start) => id.toList ++ [start.text]) ++ [s.finish.text]

theorem isItem_of_mem (s : Schedule) : ∀ item ∈ s.items, IsItem item := by
  obtain ⟨lead, finish, id_isItem⟩ := s
  rcases lead with _ | ⟨_ | id, start⟩
  · simpa [items] using finish.isItem
  · simpa [items] using ⟨start.isItem, finish.isItem⟩
  · simpa [items] using ⟨id_isItem id rfl, start.isItem, finish.isItem⟩

/-- The number of items tells what each of them is. -/
theorem schedule?_items (s : Schedule) : schedule? s.items = some (s.id, s.start, s.finish.finish) := by
  obtain ⟨lead, finish, id_isItem⟩ := s
  rcases lead with _ | ⟨_ | id, start⟩
  · show some (none, Start.previous, Finish.ofItem finish.text) = _
    rw [finish.ofItem_text]
    rfl
  · show some (none, Start.ofItem start.text, Finish.ofItem finish.text) = _
    rw [start.ofItem_text, finish.ofItem_text]
    rfl
  · show some (some id, Start.ofItem start.text, Finish.ofItem finish.text) = _
    rw [start.ofItem_text, finish.ofItem_text]
    rfl

end Schedule

theorem schedule?_eq_none {items : List String} : schedule? items = none ↔ items = [] ∨ 3 < items.length := by
  match items with
  | [] | [_] | [_, _] | [_, _, _] => simp [schedule?]
  | _ :: _ :: _ :: _ :: _ => simp [schedule?]

/-! ## Data -/

/-- The data of a task: its marks and its schedule, whose first item is the word for no mark. -/
structure Data where
  tags : List Tag
  schedule : Schedule
  noMark : ∀ item ∈ schedule.items.head?, isMark item = false

namespace Data

/-- The items in their order. -/
def items (d : Data) : List String := d.tags.map Tag.word ++ d.schedule.items

/-- The items with a comma and a blank between them. -/
def text (d : Data) : String := joined d.items

/-- The task of this name with the data. -/
noncomputable def entry (d : Data) (name : String) : Entry :=
  ⟨d.schedule.id, name, d.tags, d.schedule.start, d.schedule.finish.finish⟩

theorem items_ne_nil (d : Data) : d.items ≠ [] := by
  simp [items, Schedule.items]

theorem isItem_of_mem (d : Data) : ∀ item ∈ d.items, IsItem item := by
  intro item mem
  obtain mem | mem := List.mem_append.1 mem
  · obtain ⟨tag, -, rfl⟩ := List.mem_map.1 mem
    cases tag <;> exact isItem_of_word (by decide) (by decide)
  · exact d.schedule.isItem_of_mem item mem

theorem items_text (d : Data) : Gantt.items d.text = d.items := items_joined d.items_ne_nil d.isItem_of_mem

end Data

/-- Whether data have an empty item, or no items behind the marks, or more than three of them. -/
def IsMalformed (data : String) : Prop :=
  "" ∈ items data ∨ (items data).dropWhile isMark = [] ∨ 3 < ((items data).dropWhile isMark).length

section

variable {task : Tree} {name data : String} (hname : task.text? "name" = some name)
  (hdata : task.text? "data" = some data)
include hname hdata

theorem entry_eq_ok {e : Entry} : entry task = .ok e ↔ "" ∉ items data ∧ ∃ id start finish,
    schedule? ((items data).dropWhile isMark) = some (id, start, finish) ∧
      ⟨id, trim name, ((items data).takeWhile isMark).filterMap Tag.ofWord?, start, finish⟩ = e := by
  have needed {field text : String} (h : task.text? field = some text) :
      (task.needText field : Reading Fallacy String) = .ok (trim text) :=
    (Reading.needText_eq_ok task field).2 (congrArg (Option.map trim) h)
  have same : (splitOnChar (trim data) ',').map trim = items data := rfl
  rw [entry, needed hdata, needed hname]
  simp only [Reading.bind_eq_ok, Except.ok.injEq, exists_eq_left', same, splitTags_eq]
  split
  · rename_i empty
    have mem : "" ∈ items data := by simpa using empty
    simp [complain, bind, Except.bind, mem]
  · rename_i full
    have absent : "" ∉ items data := by simpa using full
    simp only [absent, not_false_eq_true, true_and, Reading.bind_eq_ok, Reading.orComplain_eq_ok, Reading.pure_eq_ok,
      Except.ok.injEq, exists_eq_left', Prod.exists]

/-- The task is read from data that are not malformed. -/
theorem exists_entry_iff : (∃ e, entry task = .ok e) ↔ ¬ IsMalformed data := by
  rw [IsMalformed, not_or, ← schedule?_eq_none, ← ne_eq (schedule? _), Option.ne_none_iff_exists']
  simp only [entry_eq_ok hname hdata]
  constructor
  · rintro ⟨e, full, id, start, finish, found, -⟩
    exact ⟨full, _, found⟩
  · rintro ⟨full, ⟨id, start, finish⟩, found⟩
    exact ⟨_, full, id, start, finish, found, rfl⟩

end

/-- The task of written data is read as they say. -/
theorem entry_of_data {task : Tree} {name : String} (hname : task.text? "name" = some name) {d : Data}
    (hdata : task.text? "data" = some d.text) : entry task = .ok (d.entry (trim name)) := by
  have marks := splitTags_tags d.tags d.noMark
  rw [splitTags_eq, ← Data.items] at marks
  obtain ⟨tags, rest⟩ := Prod.mk.inj marks
  rw [entry_eq_ok hname hdata, d.items_text, tags, rest]
  exact ⟨fun empty => (d.isItem_of_mem "" empty).ne rfl, _, _, _, d.schedule.schedule?_items, rfl⟩

end Gantt

end DiagramText
