import DiagramText.Proofs.Parse
import DiagramText.Proofs.Peg.Quoted

/-!
# Labels in brackets

Five kinds of diagrams have something with a label in brackets behind its id: a node of a flowchart, a card, a
service, an axis and a node of a mind map (`LabelPlace`). A document with one of them and nothing else is
taken piece by piece, so here is what the pieces take: the id (`IsName`), a label in quotes
(`takes_quotedString`), and the rest of a label that ends at the first closing bracket (`closesLabel_quote`).
-/

namespace DiagramText

open Peg Reading

/-- A place for a label, in brackets behind an id. -/
inductive LabelPlace where
  | flowchartNode | kanbanCard | architectureService | radarAxis | mindmapNode
deriving DecidableEq

namespace LabelPlace

/-- The kind of diagrams that have the place. -/
def kind : LabelPlace → Kind
  | flowchartNode => .flowchart
  | kanbanCard => .kanban
  | architectureService => .architecture
  | radarAxis => .radar
  | mindmapNode => .mindmap

/-- What comes before the id. -/
def opening : LabelPlace → String
  | flowchartNode => "flowchart\n"
  | kanbanCard => "kanban\nTodo\n  "
  | architectureService => "architecture-beta\nservice "
  | radarAxis => "radar-beta\naxis "
  | mindmapNode => "mindmap\n"

/-- A document with something of this id, whose label is written so. -/
def document (place : LabelPlace) (id label : String) : String := place.opening ++ (id ++ ("[" ++ label ++ "]"))

end LabelPlace

/-- The label of what has this id. -/
def labelOf? (id : String) : Model → Option String
  | ⟨.flowchart, (c : Flowchart.Chart)⟩ => (c.node? id).map Flowchart.Node.label
  | ⟨.kanban, (b : Kanban.Board)⟩ => (b.card? id).map Kanban.Card.label
  | ⟨.architecture, (d : Architecture.Diagram)⟩ => (d.node? id).bind Architecture.Item.title
  | ⟨.radar, (c : Radar.Chart)⟩ => (c.axes.find? (·.id == id)).map Radar.Axis.label
  | ⟨.mindmap, (m : Mindmap.Map)⟩ => (m.find? id).map Mindmap.Item.label
  | _ => none

/-- Whether a text that is quoted in the place is the label in the model. -/
def LabelPlace.Keeps (place : LabelPlace) (options : ParseOptions) (id s : String) : Prop :=
  ∃ m, parseAs .all options place.kind (place.document id (quote s)) = .ok m ∧ labelOf? id m = some s

/-- Letters, digits and underscores make up a name. -/
def isNameChar (c : Char) : Bool := c.isAlphanum || c == '_'

/-- A name that can be an id in every place. -/
structure IsName (id : String) : Prop where
  ne_nil : id.toList ≠ []
  plain : ∀ c ∈ id.toList, isNameChar c = true
  ne_end : id ≠ "end"

namespace LabelPlace

theorem document_eq (place : LabelPlace) (id label : String) : place.document id label =
    String.ofList (place.opening.toList ++ (id.toList ++ '[' :: (label.toList ++ [']']))) := by
  simp [document, ← String.toList_inj]

theorem sourceOf_document (place : LabelPlace) (options : ParseOptions) (id label : String) :
    sourceOf options (place.document id label) = place.document id label := by
  have whole := Chars.trimEnd_append_of_not_blank (place.opening.toList ++ (id.toList ++ '[' :: label.toList))
    (show isBlank ']' = false from rfl) []
  have kept : Chars.trimEnd (place.document id label).toList = (place.document id label).toList := by
    simpa [document_eq] using whole
  rw [sourceOf, kept, String.ofList_toList, ite_self]

theorem keeps_of_parse {place : LabelPlace} {options : ParseOptions} {id s : String} {t : Tree}
    {content : place.kind.dialect.Content}
    (parsed : place.kind.dialect.grammar.parse (options.nesting + 1) (String.ofList
      (place.opening.toList ++ (id.toList ++ '[' :: ((quote s).toList ++ [']'])))) = .ok t)
    (reads : place.kind.dialect.read t = .ok content)
    (declared : ∀ issue ∈ (⟨place.kind, content⟩ : Model).issues, issue.isDangling = false)
    (label : labelOf? id ⟨place.kind, content⟩ = some s) : place.Keeps options id s := by
  refine ⟨_, parseAs_eq_ok.2 ⟨t, content, ?_, reads, checkedModel_of_declared declared⟩, label⟩
  rw [sourceOf_document, document_eq, parsed]

end LabelPlace

/-! ## Labels in brackets -/

section

variable {table : List (String × Rule)} {depth : Nat} {rules : List Rule}

/-- Whether the rest of a label in brackets, behind the opening one, stands for `raw`. -/
def ClosesLabel (table : List (String × Rule)) (depth : Nat) (field raw : String) (text : List Char) : Prop :=
  (Rule.sequence [.capture field (textUntil "]\r\n"), lit "]"]).Takes table depth text [] fun offset =>
    .fields [(field, .token ⟨raw, offset⟩)]

/-- A quoted label without a closing bracket ends at the bracket behind it. -/
theorem closesLabel_quote {s : String} (h : ∀ c ∈ s.toList, c ≠ '\r' ∧ c ≠ '\n') (hfree : ']' ∉ s.toList)
    (field : String) : ClosesLabel table depth field (quote s) ((quote s).toList ++ [']']) := by
  have inside : ∀ c ∈ (quote s).toList, c ∉ "]\r\n".toList := by
    intro c hc hstop
    have cases : c = ']' ∨ c = '\r' ∨ c = '\n' := by simpa using hstop
    obtain hc | hc := mem_of_mem_quote hc
    · obtain rfl | rfl | rfl := cases
      · exact hfree hc
      · exact (h _ hc).1 rfl
      · exact (h _ hc).2 rfl
    · obtain rfl | rfl | rfl := cases <;> revert hc <;> decide
  have label : (textUntil "]\r\n").Takes table depth (quote s).toList ([']'] ++ []) fun _ => .items [] :=
    takes_textUntil inside (by simp)
  exact (label.token rfl field).cons ((takes_lit "]" []).skipLast rfl)

theorem ClosesLabel.bracketed {field raw : String} {text : List Char}
    (h : ClosesLabel table depth field raw text) :
    (Rule.sequence [lit "[", .capture field (textUntil "]\r\n"), lit "]"]).Takes table depth ('[' :: text) []
      fun offset => .fields [(field, .token ⟨raw, offset + Chars.byteSize ['[']⟩)] := by
  have opened : (lit "[").Takes table depth ['['] (text ++ []) fun _ => .empty := takes_lit "[" _
  exact opened.skip rfl h

namespace IsName

variable {id : String}

/-- A character that names are not made of is not the first of a name. -/
theorem head_ne (h : IsName id) {c : Char} (other : isNameChar c = false) (rest : List Char) :
    ∀ d ∈ (id.toList ++ rest).head?, d ≠ c := by
  obtain ⟨first, cs, e⟩ := List.exists_cons_of_ne_nil h.ne_nil
  rw [e]
  rintro d ⟨⟩ rfl
  rw [h.plain _ (by rw [e]; exact List.mem_cons_self)] at other
  cases other

theorem misses_lit (h : IsName id) {text : String} {c : Char} (hc : text.toList.head? = some c)
    (other : isNameChar c = false) (rest : List Char) :
    (lit text).Misses table depth (id.toList ++ rest) := by
  refine Peg.misses_lit ?_
  rintro ⟨more, e⟩
  refine h.head_ne other rest c ?_ rfl
  rw [← e, List.head?_append, hc]
  rfl

theorem not_mem (h : IsName id) {stop : String} (others : stop.toList.any isNameChar = false) :
    ∀ c ∈ id.toList, c ∉ stop.toList :=
  fun c hc hstop => List.any_eq_false.1 others c hstop (h.plain c hc)

theorem inked (h : IsName id) : Inked id.toList := by
  obtain ⟨first, cs, e⟩ := List.exists_cons_of_ne_nil h.ne_nil
  refine ⟨first, by rw [e]; rfl, fun hc => ?_⟩
  have plain := h.plain first (by rw [e]; exact List.mem_cons_self)
  simp only [List.mem_cons, List.not_mem_nil, or_false] at hc
  obtain rfl | rfl | rfl | rfl | rfl := hc <;> cases plain

theorem isWordChar (h : IsName id) : ∀ c ∈ id.toList, isWordChar c = true := by
  intro c hc
  have plain := h.plain c hc
  rw [isNameChar] at plain
  rw [Peg.isWordChar, plain, Bool.true_or]

theorem trim_eq (h : IsName id) : trim id = id := by
  have inked : ∀ c ∈ id.toList, isBlank c = false := fun c hc => not_isBlank_of_isWordChar (h.isWordChar c hc)
  rw [trim, Chars.trim_word h.ne_nil inked, String.ofList_toList]

/-- The id that a column is given is not a name. -/
theorem ne_column (h : IsName id) : "column-0" ≠ id := by
  rintro rfl
  exact absurd (h.plain '-' (by simp)) (by decide)

theorem takes_word (h : IsName id) (rest : List Char) :
    word.Takes table depth id.toList ('[' :: rest) fun _ => .items [] :=
  Peg.takes_word h.ne_nil h.isWordChar (by simp [Peg.isWordChar])

/-- The keyword at the start of a name is none, as more of a word follows. -/
theorem misses_keyword (h : IsName id) {text : String}
    (plain : text.toList.all isNameChar = true) (other : id ≠ text) (more : List Char) :
    (keyword text).Misses table depth (id.toList ++ '[' :: more) := by
  by_cases begins : text.toList <+: id.toList ++ '[' :: more
  · obtain ⟨rest, e⟩ := begins
    obtain ⟨tail, e', rfl⟩ | ⟨tail, e', beyond⟩ := List.append_eq_append_iff.1 e
    · obtain ⟨c, cs, rfl⟩ : ∃ c cs, tail = c :: cs :=
        List.exists_cons_of_ne_nil fun hnil => other (String.toList_inj.1 (by rw [e', hnil, List.append_nil]))
      have next : wordChar.Takes table depth [c] (cs ++ '[' :: more) fun _ => .empty :=
        @takes_char _ _ (.satisfying Peg.isWordChar "word character") c (h.isWordChar c (by rw [e']; simp)) _
      rw [e', List.append_assoc]
      exact (takes_lit text _).misses next.misses_notAhead.sequence
    · cases tail with
      | nil => exact absurd (String.toList_inj.1 (by simpa using e'.symm)) other
      | cons c cs =>
        obtain rfl : '[' = c := (List.cons.inj beyond).1
        exact absurd (List.all_eq_true.1 plain '[' (by rw [e']; simp)) (by decide)
  · exact (Peg.misses_lit begins).sequence

/-- A statement that starts with a keyword does not start with a name, be that the keyword itself, if it does
not go on with a bracket. -/
theorem misses_headed (h : IsName id) {text : String}
    (plain : text.toList.all isNameChar = true) {more : List Char}
    (hs : (Rule.sequence rules).Misses table depth ('[' :: more)) :
    (Rule.sequence (keyword text :: rules)).Misses table depth (id.toList ++ '[' :: more) := by
  by_cases same : id = text
  · subst same
    exact (takes_keyword id (by simp [Peg.isWordChar])).misses hs
  · exact (h.misses_keyword plain same more).sequence

theorem takes_space (h : IsName id) (rest : List Char) :
    ws1.Takes table depth [' '] (id.toList ++ rest) fun _ => .items [] :=
  Peg.takes_space fun c hc => ⟨h.head_ne rfl rest c hc, h.head_ne rfl rest c hc⟩

end IsName

end

theorem string?_of_quoted {t : Tree} {field s : String} (h : t.text? field = some (quote s)) :
    t.string? field = some s := by
  have hne : quote s ≠ "" := by simp [← String.toList_inj]
  rw [Tree.string?, filled?_of_text? t field h (trim_quote s) hne, Option.map_some, unquote_quote]

end DiagramText
