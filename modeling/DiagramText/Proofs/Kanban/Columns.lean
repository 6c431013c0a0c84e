import DiagramText.Proofs.Peg.BodyLines
import DiagramText.Proofs.ReadingChecks

/-!
# Columns and cards

The trees of a board are the lines of its document with content, and a comment that no line feed ends
(`forall₂_isOf`). Line by line they become columns and cards: the lines fall into runs, each a line that is
indented no further than the first one with the deeper lines below it, and each run is a column with its cards
(`Board.Shows`). A card comes behind the first line, so that there always is a column for it
(`isSome_addCard?`).

So no line is lost, and besides the lines with content only a loose comment counts (`keeps_lines_iff`).
-/

namespace DiagramText.Kanban

open Peg Reading

/-! ## Lines of the document -/

/-- The lines of a document that are neither blank nor comments, without that of the header. -/
def nodeLines (input : String) : List (List Char) := (Chars.contentLines input.toList).tail

/-- A line of the document as it is read: its tree goes over the text and its end. -/
structure Line.IsOf (t : Tree) (text : List Char) (line : Line) : Prop where
  indent : line.indent = (Chars.indentation text).length
  tree : ∃ tree, (t.list "lines")[line.number]? = some tree ∧ Chars.lines tree.span.text.toList = [text] ∧
    tree.span.offset = line.offset ∧ entries.read tree = .ok line.entry

theorem node_takesInLine {depth : Nat} : (Rule.ref "node").TakesInLine grammar.rules depth := by
  refine takesInLine_ref rfl (fun name r hr => ?_) rfl rfl
  obtain ⟨-, rfl⟩ := Prod.mk.inj (List.mem_singleton.1 (mem_of_lookup hr))
  rfl

section

variable {t : Tree} {ls : List Line} {texts : List (List Char)}

/-- The lines are read from the trees, each from one. -/
theorem exists_tree (h : lines t = .ok ls) : ls.length = (t.list "lines").length ∧
    ∀ (i : Nat) (line : Line), ls[i]? = some line → ∃ tree, (t.list "lines")[i]? = some tree ∧
      entries.read tree = .ok line.entry ∧
        line = ⟨tree.span.offset, i, (tree.text? "indent").elim 0 String.length, line.entry⟩ := by
  simp only [lines, bind_eq_ok, pure_eq_ok] at h
  obtain ⟨es, hes, rfl⟩ := h
  have each := forall₂_of_mapM hes
  refine ⟨by simp [each.length_eq], fun i line hi => ?_⟩
  rw [List.getElem?_mapIdx] at hi
  obtain ⟨⟨tree, entry⟩, hpair, rfl⟩ := Option.map_eq_some_iff.1 hi
  exact ⟨tree, (List.getElem?_zip_eq_some.1 hpair).1, List.forall₂_zip each (List.mem_of_getElem? hpair), rfl⟩

/-- Each text is read as a line. -/
theorem forall₂_isOf (h : lines t = .ok ls) (each : List.Forall₂ IsLine texts (t.list "lines")) :
    List.Forall₂ (Line.IsOf t) texts ls := by
  obtain ⟨length, trees⟩ := exists_tree h
  refine List.forall₂_iff_get.2 ⟨each.length_eq.trans length.symm, fun i hi hi' => ?_⟩
  obtain ⟨tree, htree, hentry, e⟩ := trees i _ (List.getElem?_eq_getElem hi')
  obtain ⟨htree', found⟩ := List.getElem?_eq_some_iff.1 htree
  have line : IsLine texts[i] tree := found ▸ each.get hi htree'
  show Line.IsOf t texts[i] ls[i]
  refine ⟨?_, tree, ?_, line.text, ?_, hentry⟩
  · rw [e, line.indent, Option.elim_some, String.length_ofList]
  · rw [e]
    exact htree
  · rw [e]

end

/-! ## Columns with their cards -/

section

variable {first : Nat} {line : Line} {ls before : List Line} {runs : List (List Line)} {columns : List Column}
  {last : Column} {card : Card} {state state' : Option Nat × Board}

/-- The first of some lines is the column, and those below it are its cards, one by one. They are indented further
than the first line of the document, and the column is not. -/
def Column.Shows (first : Nat) (ls : List Line) (column : Column) : Prop :=
  ∃ head below, ls = head :: below ∧ head.indent ≤ first ∧ column.id = head.id (some first) ∧
    column.label = head.entry.label ∧ List.Forall₂ (fun line card => first < line.indent ∧
      line.entry.card (line.id (some first)) line.offset = .ok card) below column.cards

/-- The lines fall into runs, and each run is shown by a column, one by one and in order. -/
def Shown (first : Nat) (ls : List Line) (columns : List Column) : Prop :=
  ∃ runs, ls = runs.flatten ∧ List.Forall₂ (Column.Shows first) runs columns

/-- The board shows the lines: what a line is depends on the indentation of the first one. -/
def Board.Shows (b : Board) (ls : List Line) : Prop := Shown (ls.head?.elim 0 Line.indent) ls b.columns

theorem exists_of_forall₂_concat {α β : Type} {R : α → β → Prop} {items : List α} {bs : List β} {b : β}
    (h : List.Forall₂ R items (bs ++ [b])) : ∃ items' a, items = items' ++ [a] ∧ List.Forall₂ R items' bs ∧ R a b := by
  induction bs generalizing items with
  | nil =>
    cases h with
    | cons related rest =>
      cases rest
      exact ⟨[], _, rfl, .nil, related⟩
  | cons b' bs ih =>
    cases h with
    | cons related rest =>
      obtain ⟨items', a, rfl, rest, last⟩ := ih rest
      exact ⟨_ :: items', a, rfl, .cons related rest, last⟩

theorem Shown.concat_column (h : Shown first ls columns) (indent : line.indent ≤ first) :
    Shown first (ls ++ [line]) (columns ++ [{ id := line.id (some first), label := line.entry.label }]) := by
  obtain ⟨runs, rfl, each⟩ := h
  refine ⟨runs ++ [[line]], by simp, List.rel_append each (.cons ?_ .nil)⟩
  exact ⟨line, [], rfl, indent, rfl, rfl, .nil⟩

/-- A card goes into the column of the nearest column line before it. -/
theorem Shown.concat_card (h : Shown first ls (columns ++ [last])) (indent : first < line.indent)
    (hcard : line.entry.card (line.id (some first)) line.offset = .ok card) :
    Shown first (ls ++ [line]) (columns ++ [{ last with cards := last.cards ++ [card] }]) := by
  obtain ⟨runs, rfl, each⟩ := h
  obtain ⟨earlier, run, rfl, before, head, below, rfl, column, id, label, cards⟩ := exists_of_forall₂_concat each
  refine ⟨earlier ++ [head :: (below ++ [line])], by simp, List.rel_append before (.cons ?_ .nil)⟩
  exact ⟨head, below ++ [line], rfl, column, id, label, List.rel_append cards (.cons ⟨indent, hcard⟩ .nil)⟩

/-- There are as many columns and cards as lines. -/
theorem Shown.length_eq (h : Shown first ls columns) :
    columns.length + (columns.flatMap Column.cards).length = ls.length := by
  obtain ⟨runs, rfl, each⟩ := h
  induction each with
  | nil => rfl
  | cons shows each ih =>
    obtain ⟨head, below, rfl, -, -, -, cards⟩ := shows
    rw [List.flatten_cons, List.length_append, ← ih, List.length_cons, List.flatMap_cons, List.length_append,
      List.length_cons, cards.length_eq]
    omega

/-- What the lines before have made of a board: `first` is the indentation of the first line. -/
structure Board.After (first : Nat) (before : List Line) (state : Option Nat × Board) : Prop where
  first_eq : state.1 = if before = [] then none else some first
  shown : Shown first before state.2.columns

theorem Board.After.columns_ne (h : Board.After first before state) (hne : before ≠ []) : state.2.columns ≠ [] := by
  intro empty
  have := h.shown.length_eq
  rw [empty] at this
  exact hne (List.eq_nil_of_length_eq_zero this.symm)

theorem Board.After.isColumn_iff (h : Board.After first before state) (hfirst : before = [] → line.indent = first) :
    line.isColumn state.1 = true ↔ line.indent ≤ first := by
  rw [h.first_eq, Line.isColumn]
  split
  · rename_i empty
    simp [hfirst empty]
  · simp

theorem Board.After.id_eq (h : Board.After first before state) (hfirst : before = [] → line.indent = first) :
    line.id state.1 = line.id (some first) := by
  have same : line.isColumn state.1 = line.isColumn (some first) := by
    rw [Bool.eq_iff_iff, h.isColumn_iff hfirst]
    simp [Line.isColumn]
  rw [Line.id, Line.id, same]

/-- A line adds what it is to what is shown. -/
theorem Board.After.apply (h : Board.After first before state) (hfirst : before = [] → line.indent = first)
    (e : Board.apply state line = .ok state') : Board.After first (before ++ [line]) state' := by
  have isColumn := h.isColumn_iff hfirst
  have id := h.id_eq hfirst
  have hne : before ++ [line] ≠ [] := by simp
  obtain ⟨opened, b⟩ := state
  obtain ⟨opened', b'⟩ := state'
  obtain ⟨-, ⟨column, -, rfl, rfl⟩ | ⟨notColumn, rfl, card, hcard, rfl⟩⟩ := Board.apply_eq_ok e
  · refine ⟨?_, ?_⟩
    · rw [if_neg hne]
      obtain rfl : opened = _ := h.first_eq
      split
      · rename_i empty
        exact congrArg some (hfirst empty)
      · rfl
    · rw [id]
      exact h.shown.concat_column (isColumn.1 column)
  · have deeper : first < line.indent := by
      rw [← Nat.not_le, ← isColumn, notColumn]
      exact Bool.false_ne_true
    have started : before ≠ [] := fun empty => Nat.lt_irrefl _ (hfirst empty ▸ deeper)
    obtain ⟨columns, last, hcolumns⟩ := (List.eq_nil_or_concat' b.columns).resolve_left (h.columns_ne started)
    refine ⟨?_, ?_⟩
    · rw [if_neg hne]
      exact h.first_eq.trans (if_neg started)
    · rw [Board.addCard?_concat hcolumns, Option.getD_some]
      refine Shown.concat_card (hcolumns ▸ h.shown) deeper ?_
      rw [← id]
      exact hcard

/-- The lines so far are shown by the board that they have made. -/
theorem Board.after_of_foldlM (hfirst : ∀ line ∈ ls.head?, line.indent = first)
    (e : ls.foldlM Board.apply (none, {}) = .ok state) : Board.After first ls state := by
  induction ls using List.reverseRecOn generalizing state with
  | nil =>
    obtain rfl := pure_eq_ok.1 e
    exact ⟨rfl, [], rfl, .nil⟩
  | append_singleton ls line ih =>
    rw [List.foldlM_append, bind_eq_ok] at e
    obtain ⟨mid, hmid, e⟩ := e
    rw [List.foldlM_cons, bind_eq_ok] at e
    obtain ⟨last, hlast, e⟩ := e
    obtain rfl := pure_eq_ok.1 e
    have before : ∀ line ∈ ls.head?, line.indent = first := by
      intro earlier h
      exact hfirst earlier (by rw [List.head?_append, Option.mem_def.1 h]; rfl)
    refine (ih before hmid).apply (fun empty => hfirst line ?_) hlast
    rw [empty]
    rfl

/-- A card that comes to its turn finds a column. -/
theorem isSome_addCard? {later : List Line} (hfirst : ∀ line ∈ ls.head?, line.indent = first)
    (split : ls = before ++ line :: later) (e : ls.foldlM Board.apply (none, {}) = .ok state) :
    ∃ mid, before.foldlM Board.apply (none, {}) = .ok mid ∧
      (line.isColumn mid.1 = false → ∀ card, (mid.2.addCard? card).isSome = true) := by
  rw [split, List.foldlM_append, bind_eq_ok] at e
  obtain ⟨mid, hmid, -⟩ := e
  refine ⟨mid, hmid, fun isCard card => ?_⟩
  have after : Board.After first before mid := by
    refine Board.after_of_foldlM (fun line h => hfirst line ?_) hmid
    rw [split, List.head?_append, Option.mem_def.1 h]
    rfl
  have started : before ≠ [] := by
    rintro rfl
    rw [after.first_eq] at isCard
    cases isCard
  obtain ⟨columns, last, hcolumns⟩ := (List.eq_nil_or_concat' mid.2.columns).resolve_left (after.columns_ne started)
  rw [Board.addCard?_concat hcolumns]
  rfl

end

/-! ## No line is lost -/

/-- The board has what the texts of some lines say, and nothing else. The lines are those of the document, one for
each text and in order; they are shown as columns and cards with ids of their own; and where a card comes to its
turn, the board so far has a column for it. -/
structure Board.Keeps (t : Tree) (texts : List (List Char)) (ls : List Line) (b : Board) : Prop where
  lines : lines t = .ok ls
  each : List.Forall₂ (Line.IsOf t) texts ls
  shows : b.Shows ls
  distinct : b.ids.Nodup
  count : b.entityCount = texts.length
  takesCards : ∀ before line later, ls = before ++ line :: later →
    ∃ mid, before.foldlM Board.apply (none, {}) = .ok mid ∧
      (line.isColumn mid.1 = false → ∀ card, (mid.2.addCard? card).isSome = true)

/-- A board keeps the lines with content behind the header, and a comment that no line feed ends as well. It keeps
the lines with content alone if there is no such comment, and only then. -/
theorem keeps_lines_iff {depth : Nat} {input : String} {t : Tree} {b : Board}
    (accepted : grammar.parse depth input = .ok t)
    (hread : read t = .ok b) :
    (∃ ls, b.Keeps t (nodeLines input ++ (Chars.looseComment? input.toList).toList) ls) ∧
      ((∃ ls, b.Keeps t (nodeLines input) ls) ↔ Chars.looseComment? input.toList = none) := by
  have trees : List.Forall₂ IsLine (nodeLines input ++ (Chars.looseComment? input.toList).toList) (t.list "lines") :=
    forall₂_of_parse rfl (keywords_wordChars .kanban _ List.mem_cons_self) node_takesInLine accepted
  have hread' := hread
  rw [read_eq, bind_eq_ok] at hread'
  obtain ⟨ls, hls, hread'⟩ := hread'
  obtain ⟨state, hstate, rfl⟩ := map_eq_ok.1 hread'
  have each := forall₂_isOf hls trees
  have hfirst : ∀ line ∈ ls.head?, line.indent = ls.head?.elim 0 Line.indent := by
    intro line h
    rw [Option.mem_def.1 h]
    rfl
  have shows : state.2.Shows ls := (Board.after_of_foldlM hfirst hstate).shown
  have keeps : state.2.Keeps t (nodeLines input ++ (Chars.looseComment? input.toList).toList) ls :=
    { lines := hls
      each
      shows
      distinct := nodup_of_read hread
      count := shows.length_eq.trans each.length_eq.symm
      takesCards := fun _ _ _ split => isSome_addCard? hfirst split hstate }
  refine ⟨⟨ls, keeps⟩, fun ⟨ls', alone⟩ => ?_, fun none => ⟨ls, ?_⟩⟩
  · have same := keeps.count.symm.trans alone.count
    rw [List.length_append, Nat.add_eq_left] at same
    simpa using same
  · rw [none, Option.toList_none, List.append_nil] at keeps
    exact keeps

theorem exists_read_of_entityCount {depth : Nat} {input : String} {count : Nat}
    (h : ((grammar.parse depth input).toOption.bind fun t => (read t).toOption).map Board.entityCount = some count) :
    ∃ t b, grammar.parse depth input = .ok t ∧ read t = .ok b ∧ b.entityCount = count := by
  obtain ⟨b, hb, hcount⟩ := Option.map_eq_some_iff.1 h
  obtain ⟨t, ht, hread⟩ := Option.bind_eq_some_iff.1 hb
  exact ⟨t, b, toOption_eq_some.1 ht, toOption_eq_some.1 hread, hcount⟩

/-- A card between two columns, with comments and a blank line in between. -/
theorem keeps_lines_board :
    nodeLines "%% a board\nkanban\n Todo\n\n  %% cards\r\n  a[Fix]\r\nDone\n" =
        [" Todo".toList, "  a[Fix]".toList, "Done".toList] ∧
      ∃ t b, grammar.parse 20 "%% a board\nkanban\n Todo\n\n  %% cards\r\n  a[Fix]\r\nDone\n" = .ok t ∧
        read t = .ok b ∧
          ∃ ls, b.Keeps t (nodeLines "%% a board\nkanban\n Todo\n\n  %% cards\r\n  a[Fix]\r\nDone\n") ls := by
  have three : ((grammar.parse 20 "%% a board\nkanban\n Todo\n\n  %% cards\r\n  a[Fix]\r\nDone\n").toOption.bind
      fun t => (read t).toOption).map Board.entityCount = some 3 := by decide +kernel
  obtain ⟨t, b, accepted, hread, -⟩ := exists_read_of_entityCount three
  exact ⟨by decide +kernel, t, b, accepted, hread, (keeps_lines_iff accepted hread).2.2 (by decide +kernel)⟩

/-- A comment that ends the input becomes a column. -/
theorem exists_comment_kept :
    nodeLines "kanban\nTodo\n%% later" = ["Todo".toList] ∧
      ∃ t b, grammar.parse 20 "kanban\nTodo\n%% later" = .ok t ∧ read t = .ok b ∧
        ¬ ∃ ls, b.Keeps t (nodeLines "kanban\nTodo\n%% later") ls := by
  have two : ((grammar.parse 20 "kanban\nTodo\n%% later").toOption.bind
      fun t => (read t).toOption).map Board.entityCount = some 2 := by decide +kernel
  have alone : nodeLines "kanban\nTodo\n%% later" = ["Todo".toList] := by decide +kernel
  obtain ⟨t, b, accepted, hread, count⟩ := exists_read_of_entityCount two
  refine ⟨alone, t, b, accepted, hread, fun ⟨ls, keeps⟩ => ?_⟩
  have := keeps.count
  rw [count, alone] at this
  cases this

end DiagramText.Kanban
