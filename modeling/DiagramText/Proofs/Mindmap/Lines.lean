import DiagramText.Proofs.Peg.Captures
import DiagramText.Proofs.Peg.Keywords
import DiagramText.Proofs.Peg.Loud
import DiagramText.Proofs.Peg.Spans
import DiagramText.Proofs.Supplied.Charts
import Mathlib.Data.List.Forall2

/-!
# Lines of mind maps

The trees of a document that the grammar of mind maps accepts are its lines. Each tree starts where a line
of the document starts, and what it holds as indentation are the spaces and tabs there (`indentedAt_of_rounds`).
Reading the trees one by one leaves a list of lines (`exists_lines`): the grammar knows no other outlines
than the reading does. What a mind map is read from are these lines alone (`read_eq`).
-/

namespace DiagramText.Mindmap

open Peg Reading

/-- Whether the statement is a node, not a decoration of one. -/
def Statement.isNode : Statement → Bool
  | node _ _ _ => true
  | icon _ | classes _ => false

/-- Whether the line is a node. -/
def Line.isNode (line : Line) : Bool := line.statement.isNode

/-- The line that a tree stands for. -/
def readLine (t : Tree) : Reading Fallacy Line := do
  return ⟨t.span.offset, (t.text? "indent").elim 0 String.length, ← statements.read t⟩

/-- The lines of a document. -/
def lines (t : Tree) : Reading Fallacy (List Line) := (t.list "lines").mapM readLine

theorem read_eq (t : Tree) : read t = do return (← (← lines t).foldlM Draft.apply {}).map := by
  have zipped : ∀ ts : List Tree, (do
      return (ts.zip (← statements.readAll ts)).map fun pair =>
        (⟨pair.1.span.offset, (pair.1.text? "indent").elim 0 String.length, pair.2⟩ : Line)) =
      ts.mapM readLine := by
    intro ts
    induction ts with
    | nil => rfl
    | cons first ts ih =>
      rw [List.mapM_cons, ← ih, Shapes.readAll, Shapes.readAll, List.mapM_cons, readLine]
      cases statements.read first with
      | error fault => rfl
      | ok statement => cases ts.mapM statements.read <;> rfl
  rw [lines, ← zipped, read]
  cases statements.readAll (t.list "lines") <;> rfl

/-! ## Where the lines stand -/

/-- A line of the input starts at the offset, and it is indented by some spaces and tabs. -/
def IndentedAt (input : String) (offset indent : Nat) : Prop :=
  ∃ before blanks rest, input.toList = before ++ '\n' :: (blanks ++ rest) ∧
    offset = Chars.byteSize (before ++ ['\n']) ∧ indent = blanks.length ∧
      (∀ c ∈ blanks, c = ' ' ∨ c = '\t') ∧ ∀ c ∈ rest.head?, c ≠ ' ' ∧ c ≠ '\t'

/-- A line of the body: idle, or a statement with its indentation. -/
def lineRule : Rule := .choice [blankLine, .sequence [.capture "indent" ws, .ref "statement", eol]]

/-- Idle lines end with the end of one. -/
theorem getLast?_of_idle {text : List Char} (h : Idle text) (hne : text ≠ []) : text.getLast? = some '\n' := by
  induction h with
  | nil => exact absurd rfl hne
  | @line blanks comment ending more _ _ he _ ih =>
    rw [List.getLast?_append]
    by_cases hmore : more = []
    · rw [hmore, List.getLast?_append]
      obtain rfl | rfl := he <;> rfl
    · rw [ih hmore, Option.some_or]

section

variable {input : String} {depth : Nat} {cur next : Cursor} {a : Fragment}

/-- Nothing is left of the input, or a line starts. -/
def AtLine (input : String) (cur : Cursor) : Prop :=
  ∃ before, (Cursor.start input).Spans before cur ∧ (before.getLast? = some '\n' ∨ cur.rest = [])

theorem AtLine.of_spans {text : List Char} (hcur : (Cursor.start input).Reaches cur) (h : cur.Spans text next)
    (ends : text.getLast? = some '\n' ∨ next.rest = []) : AtLine input next := by
  obtain ⟨before, hbefore⟩ := hcur
  refine ⟨_, hbefore.trans h, ends.imp_left fun last => ?_⟩
  rw [List.getLast?_append, last, Option.some_or]

theorem AtLine.reaches (h : AtLine input cur) : (Cursor.start input).Reaches cur := by
  obtain ⟨before, hbefore, -⟩ := h
  exact ⟨before, hbefore⟩

theorem statement_lt (h : (Rule.ref "statement").outcome grammar.rules depth cur = some (next, a)) :
    cur.offset < next.offset := by
  refine lt_of_consumes (fun name r hr => ?_) rfl h
  obtain ⟨-, rfl⟩ := Prod.mk.inj (List.mem_singleton.1 (mem_of_lookup hr))
  rfl

/-- What is left of a line is the next line, and what it captures, if it is not idle, begins with its
indentation. -/
theorem line_round (hcur : (Cursor.start input).Reaches cur)
    (h : lineRule.outcome grammar.rules depth cur = some (next, a)) :
    AtLine input next ∧ (a.toFields ≠ [] → cur.rest ≠ [] ∧ ∃ more, a.toFields =
      ("indent", .token ⟨String.ofList (cur.rest.takeWhile [' ', '\t'].contains), cur.offset⟩) :: more) := by
  obtain ⟨r, hr, hm⟩ := choice_eq_some h
  simp only [List.mem_cons, List.not_mem_nil, or_false] at hr
  obtain rfl | rfl := hr
  · obtain ⟨line, idle, feed, hs⟩ := blankLine_idle hm
    have ends := getLast?_of_idle idle (List.ne_nil_of_mem feed)
    exact ⟨.of_spans hcur hs (.inl ends), fun hne => absurd (toFields_of_capturesNone rfl _ _ _ hm) hne⟩
  · obtain ⟨first, indent, _, hindent, hmore, rfl⟩ := sequence_cons_eq_some.1 hm
    obtain ⟨second, statement, _, hstatement, hend, rfl⟩ := sequence_cons_eq_some.1 hmore
    obtain ⟨_, heol, rfl⟩ := sequence_singleton_eq_some.1 hend
    have hreach : cur.Reaches second := (outcome_reaches hindent).trans (outcome_reaches hstatement)
    obtain ⟨text, hs, ends⟩ := eol_spans heol
    refine ⟨.of_spans (hcur.trans hreach) hs ends, fun _ => ⟨fun hrest => ?_, ?_⟩⟩
    · have hrest := (outcome_reaches hindent).rest_eq_nil hrest
      obtain ⟨taken, hs⟩ := outcome_reaches hstatement
      obtain rfl : taken = [] := (List.append_eq_nil_iff.1 (hs.rest.symm.trans hrest)).1
      exact absurd (statement_lt hstatement) (Nat.not_lt.2 (Nat.le_of_eq hs.offset))
    · rw [outcome_capture, outcome_ws] at hindent
      obtain ⟨rfl, rfl⟩ := Prod.mk.inj (Option.some.inj hindent)
      have span := (cur.spans_past [' ', '\t'].contains).spanTo
      exact ⟨_, congrArg (fun token => ("indent", Node.token token) :: _) span⟩

/-- Each tree that the rounds of lines leave is a line of the input. -/
theorem indentedAt_of_rounds {trees : List Tree} (hcur : AtLine input cur)
    (h : (many lineRule).outcome grammar.rules depth cur = some (next, .items trees)) :
    ∀ t ∈ trees, IndentedAt input t.span.offset ((t.text? "indent").elim 0 String.length) := by
  have round : ∀ {cur mid a}, AtLine input cur →
      lineRule.outcome grammar.rules depth cur = some (mid, a) → ∀ t ∈ a.round (cur.spanTo mid),
        IndentedAt input t.span.offset ((t.text? "indent").elim 0 String.length) := by
    intro cur mid a hcur hm t ht
    rw [Fragment.round] at ht
    split at ht
    · cases ht
    · rename_i hne
      obtain rfl := List.mem_singleton.1 ht
      obtain ⟨hrest, more, fields⟩ := (line_round hcur.reaches hm).2 hne
      obtain ⟨before, hs, ends⟩ := hcur
      obtain ⟨earlier, rfl⟩ := List.getLast?_eq_some_iff.1 (ends.resolve_right hrest)
      have indent : (a.toTree (cur.spanTo mid)).text? "indent" =
          some (String.ofList (cur.rest.takeWhile [' ', '\t'].contains)) := by
        rw [Tree.text?, Tree.get?, Fragment.toTree, Tree.fields, fields]
        rfl
      refine ⟨earlier, cur.rest.takeWhile [' ', '\t'].contains, cur.rest.dropWhile [' ', '\t'].contains,
        ?_, ?_, ?_, ?_, ?_⟩
      · rw [List.takeWhile_append_dropWhile, ← List.singleton_append, ← List.append_assoc]
        exact hs.rest
      · exact hs.offset.trans (Nat.zero_add _)
      · rw [indent, Option.elim_some, String.length_ofList]
      · intro c hc
        simpa using List.all_eq_true.1 List.all_takeWhile c hc
      · intro c hc
        have := List.head?_dropWhile_not [' ', '\t'].contains cur.rest
        rw [Option.mem_def.1 hc] at this
        simpa using this
  obtain ⟨trees', e, all⟩ := repeated_ind
    (motive := fun cur _ trees => AtLine input cur → ∀ t ∈ trees,
      IndentedAt input t.span.offset ((t.text? "indent").elim 0 String.length))
    (fun _ _ _ ht => absurd ht List.not_mem_nil) (fun cur a hs hcur => round hcur hs)
    (fun cur mid _ a trees hs _ rest hcur t ht =>
      (List.mem_append.1 ht).elim (round hcur hs t) (rest (line_round hcur.reaches hs).1 t)) h
  exact Fragment.items.inj e ▸ all hcur

/-- The trees of a document are what the rounds of lines behind its header leave. -/
theorem exists_rounds {t : Tree} (accepted : grammar.parse depth input = .ok t) :
    ∃ first next, AtLine input first ∧ (many lineRule).outcome grammar.rules depth first =
      some (next, .items (t.list "lines")) := by
  obtain ⟨first, next, front, hfront, -, hrounds, -⟩ :=
    exists_rounds_of_parse (show grammar.root = document (keyword "mindmap")
      (.capture "lines" (many lineRule)) from rfl) rfl accepted
  obtain ⟨mid, header, ending, hheader, hending, -⟩ :=
    @sequence_append_eq_some _ _ [preamble, ws, keyword "mindmap"] [eol] _ _ _ hfront
  obtain ⟨_, heol, -⟩ := sequence_singleton_eq_some.1 hending
  obtain ⟨text, hs, ends⟩ := eol_spans heol
  exact ⟨first, next, .of_spans (outcome_reaches hheader) hs ends, hrounds⟩

end

/-! ## What the lines say -/

/-- Whether a field, if it is the opening of an outline, opens one. -/
def opensShape (field : String) (node : Node) : Bool :=
  field != "shape" || (Shape.ofDelimiter? node.text).isSome

/-- Whether a capture of an opening is that of a text which opens an outline. -/
def capturesShape (field : String) (r : Rule) : Bool :=
  field != "shape" || match r with
    | .literal text false => (Shape.ofDelimiter? text).isSome
    | _ => false

theorem opensShape_of_fills {table : List (String × Rule)} {field : String} {r : Rule} {node : Node}
    (h : capturesShape field r = true) (hfills : r.Fills table node) : opensShape field node = true := by
  unfold capturesShape at h
  rw [Bool.or_eq_true] at h
  rw [opensShape, Bool.or_eq_true]
  refine h.imp_right fun h => ?_
  split at h
  · rename_i text
    obtain ⟨depth, cur, next, a, hm, rfl⟩ := hfills
    obtain ⟨found, rfl, hs⟩ := literal_spans hm
    rw [text_toNode rfl hm, hs.spanTo, String.ofList_toList]
    exact h
  · cases h

theorem opensShape_of_parse {depth : Nat} {input : String} {t : Tree} (accepted : grammar.parse depth input = .ok t) :
    t.allFields opensShape = true := by
  have captures : grammar.allCaptures capturesShape = true := by decide
  exact allFields_of_parse captures (fun _ _ _ => opensShape_of_fills) accepted

/-- A tree that is as demanded is read, and as a node if it holds one. -/
theorem exists_statement {statement : Tree → Prop} {t : Tree} (met : demand.Met statement t)
    (shapes : t.allFields opensShape = true) :
    ∃ s, statements.read t = .ok s ∧ s.isNode = t.has "node" := by
  obtain ⟨⟨signature, hmem, hall⟩, hgroup, -⟩ := met
  have text {t : Tree} {field : String} (h : t.has field = true) :
      ∃ text, (t.needText field : Reading Fallacy String) = .ok text := by
    obtain ⟨node, hnode⟩ := Tree.exists_get? h
    exact ⟨trim node.text, by rw [Tree.needText, Tree.need, hnode]; rfl⟩
  by_cases node : t.has "node" = true
  · rw [node]
    obtain ⟨group, htree, hid⟩ := hgroup node
    obtain ⟨id, hid⟩ := text (show group.has "id" = true by simpa using hid)
    have outline : ∀ delimiter, group.text? "shape" = some delimiter →
        (Shape.ofDelimiter? delimiter).isSome = true := by
      intro delimiter hdelimiter
      obtain ⟨found, hfound, e⟩ := Option.bind_eq_some_iff.1 htree
      obtain ⟨opening, hopening, rfl⟩ := Option.map_eq_some_iff.1 hdelimiter
      obtain rfl : found = .tree group := by cases found <;> simp_all [Node.tree?]
      exact (allFields_get? (allFields_get? shapes hfound).2 hopening).1
    have tree : (t.needGroup "node" : Reading Fallacy Tree) = .ok group := (needGroup_eq_ok ..).2 htree
    simp only [statements, Shapes.ofList, Shapes.on, Shapes.place, Shapes.read, node, List.foldl_cons,
      List.foldl_nil, List.length_singleton, Nat.lt_irrefl, if_false, List.find?_cons, List.all_cons,
      List.all_nil, Bool.and_true]
    cases opening : group.text? "shape" with
    | none =>
      refine ⟨.node id id .plain, bind_eq_ok.2 ⟨group, tree, bind_eq_ok.2 ⟨id, hid, ?_⟩⟩, rfl⟩
      rw [opening]
      rfl
    | some delimiter =>
      obtain ⟨shape, hshape⟩ := Option.isSome_iff_exists.1 (outline delimiter opening)
      let label := if shape = .plain then id else (group.string? "text").getD ""
      refine ⟨.node id label shape, bind_eq_ok.2 ⟨group, tree, bind_eq_ok.2 ⟨id, hid, ?_⟩⟩, rfl⟩
      rw [opening]
      exact bind_eq_ok.2 ⟨shape, orComplain_eq_ok.2 hshape, rfl⟩
  · rw [Bool.not_eq_true] at node
    by_cases icon : t.has "icon" = true
    · obtain ⟨name, hname⟩ := text icon
      have chosen : statements.read t = do return .icon (← t.needText "icon") := by
        simp [statements, Shapes.ofList, Shapes.on, Shapes.place, Shapes.read, node, icon]
      exact ⟨.icon name, by rw [chosen, hname]; rfl, node.symm⟩
    · have classes : t.has "classes" = true := by
        simp only [List.mem_cons, List.not_mem_nil, or_false] at hmem
        rcases hmem with rfl | rfl | rfl <;> simp_all
      obtain ⟨names, hnames⟩ := text classes
      have chosen : statements.read t = do return .classes (words (← t.needText "classes")) := by
        simp [statements, Shapes.ofList, Shapes.on, Shapes.place, Shapes.read, node, icon, classes]
      exact ⟨.classes (words names), by rw [chosen, hnames]; rfl, node.symm⟩

/-- A line as the input has it: where it starts, how far it is indented, and what its tree is read as. -/
structure Line.IsOf (input : String) (t : Tree) (line : Line) : Prop where
  offset : line.offset = t.span.offset
  indented : IndentedAt input line.offset line.indent
  isNode : line.isNode = t.has "node"
  statement : statements.read t = .ok line.statement

theorem exists_line {input : String} {statement : Tree → Prop} {t : Tree} (met : demand.Met statement t)
    (shapes : t.allFields opensShape = true)
    (indented : IndentedAt input t.span.offset ((t.text? "indent").elim 0 String.length)) :
    ∃ line, readLine t = .ok line ∧ line.IsOf input t := by
  obtain ⟨s, hs, isNode⟩ := exists_statement met shapes
  have read : readLine t = .ok ⟨t.span.offset, (t.text? "indent").elim 0 String.length, s⟩ := by
    rw [readLine, hs]
    rfl
  exact ⟨_, read, rfl, indented, isNode, hs⟩

theorem exists_mapM {ε α β : Type} {f : α → Except ε β} {R : α → β → Prop} {items : List α}
    (h : ∀ a ∈ items, ∃ b, f a = .ok b ∧ R a b) : ∃ bs, items.mapM f = .ok bs ∧ List.Forall₂ R items bs := by
  induction items with
  | nil => exact ⟨[], rfl, .nil⟩
  | cons a items ih =>
    obtain ⟨b, hb, related⟩ := h a List.mem_cons_self
    obtain ⟨bs, hbs, rest⟩ := ih fun a' ha' => h a' (List.mem_cons_of_mem _ ha')
    refine ⟨b :: bs, ?_, .cons related rest⟩
    rw [List.mapM_cons, hb, hbs]
    rfl

/-- The lines of a document that the grammar accepts, one for each tree and in the order of the input. -/
theorem exists_lines {depth : Nat} {input : String} {t : Tree} (accepted : grammar.parse depth input = .ok t) :
    ∃ ls, lines t = .ok ls ∧ List.Forall₂ (Line.IsOf input) (t.list "lines") ls ∧
      ls.Pairwise (·.offset < ·.offset) := by
  have governs : (Demand.list "lines" demand).governs .nothing grammar "statement" = true := by
    decide
  have met := Demand.met_of_parse governs accepted 0
  obtain ⟨first, next, hfirst, hrounds⟩ := exists_rounds accepted
  have indented := indentedAt_of_rounds hfirst hrounds
  have shapes := opensShape_of_parse accepted
  obtain ⟨ls, hls, each⟩ := exists_mapM fun tree htree =>
    exists_line (met tree htree) (allFields_of_mem_list shapes htree) (indented tree htree)
  refine ⟨ls, hls, each, ?_⟩
  have offsets : (t.list "lines").map (·.span.offset) = ls.map Line.offset :=
    List.forall₂_eq_eq_eq ▸ List.forall₂_map_left_iff.2 (List.forall₂_map_right_iff.2
      (each.imp fun _ _ h => h.offset.symm))
  have increasing : (t.list "lines").Pairwise fun a b => a.span.offset < b.span.offset := by
    have laid := ((parseWithin_laid grammar _ _ input).1 t accepted).2
    rw [Tree.list]
    cases hnode : t.get? "lines" with
    | none => exact .nil
    | some node =>
      cases laid.fields _ (mem_of_lookup hnode) with
      | token | tree => exact .nil
      | list _ increasing => exact increasing
  rw [← List.pairwise_map, ← offsets, List.pairwise_map]
  exact increasing

end DiagramText.Mindmap
