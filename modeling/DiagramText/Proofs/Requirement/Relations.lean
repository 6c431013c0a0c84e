import DiagramText.Proofs.ReadingChecks
import DiagramText.Proofs.Recast.Graphs
import DiagramText.Proofs.Requirement.Spellings

/-!
# Relations in documents

A document is read by reading its statements one by one; its relations are those among them, in turn, and their
ends must be declared (`read_eq_ok`). What is read of a statement does not depend on where it stands, up to
offsets. So a relation of a document may be replaced: its `Place` holds what stands around it, and the document
with another relation in the place has that relation where it had the old one and is otherwise as it was
(`Place.Shows.replaced`). Relations of the same size that are read alike even make the same outcome, errors
included (`Place.Shows.parseAs_eq`), and this goes for the two spellings of a relation (`spellings_alike_iff`).
-/

namespace DiagramText.Requirement

open Peg Reading

/-! ## Reading statements -/

/-- The relation that a statement is. -/
def Statement.link? : Statement → Option Link
  | .link l => some l
  | _ => none

/-- The relations among statements that are read. -/
def linksOf (placed : List (Nat × Statement)) : List Link := placed.filterMap (·.2.link?)

section

variable {d d' : Diagram} {placed placed' : List (Nat × Statement)} {t : Tree}

@[simp] theorem linksOf_append (placed placed' : List (Nat × Statement)) :
    linksOf (placed ++ placed') = linksOf placed ++ linksOf placed' := List.filterMap_append

@[simp] theorem linksOf_cons_link (offset : Nat) (link : Link) (placed : List (Nat × Statement)) :
    linksOf ((offset, .link link) :: placed) = link :: linksOf placed := rfl

theorem linksOf_alike (e : placed.map (·.2) = placed'.map (·.2)) : linksOf placed = linksOf placed' := by
  have links (placed : List (Nat × Statement)) :
      linksOf placed = (placed.map (·.2)).filterMap Statement.link? := by
    rw [List.filterMap_map]
    rfl
  rw [links, links, e]

/-- Relations are added in turn if the ends of all of them are declared. -/
theorem foldlM_applyLink : placed.foldlM Diagram.applyLink d = .ok d' ↔
    (∀ link ∈ linksOf placed, d.missingEnds link = []) ∧ d' = { d with links := d.links ++ linksOf placed } := by
  induction placed generalizing d with
  | nil =>
    rw [List.foldlM_nil, pure_eq_ok, linksOf, List.filterMap_nil, List.append_nil, eq_comm]
    exact ⟨fun e => ⟨fun link hlink => absurd hlink List.not_mem_nil, e⟩, And.right⟩
  | cons first placed ih =>
    obtain ⟨offset, statement⟩ := first
    have skip (h : statement.link? = none) : (((offset, statement) :: placed).foldlM Diagram.applyLink d =
        placed.foldlM Diagram.applyLink d) ∧ linksOf ((offset, statement) :: placed) = linksOf placed := by
      cases statement with
      | link => cases h
      | _ => exact ⟨rfl, rfl⟩
    cases statement with
    | link link =>
      rw [List.foldlM_cons, linksOf_cons_link, Diagram.applyLink]
      cases hmissing : d.missingEnds link with
      | nil =>
        have ends (l : Link) : (d.addLink link).missingEnds l = d.missingEnds l := rfl
        have all : (d.addLink link).links ++ linksOf placed = d.links ++ link :: linksOf placed :=
          List.append_assoc d.links [link] (linksOf placed)
        show placed.foldlM Diagram.applyLink (d.addLink link) = .ok d' ↔ _
        simp only [ih, ends, all, List.forall_mem_cons, hmissing, true_and]
        rfl
      | cons name names =>
        refine ⟨fun stuck => (by cases stuck), fun h => ?_⟩
        rw [h.1 link List.mem_cons_self] at hmissing
        cases hmissing
    | _ => rw [(skip rfl).1, (skip rfl).2, ih]

/-- The relations of a diagram are those of its statements, and their ends are declared. -/
theorem read_eq_ok : read t = .ok d ↔ ∃ placed base, statements.readPlaced (t.list "statements") = .ok placed ∧
    placed.foldlM Diagram.apply {} = .ok base ∧
      (∀ link ∈ linksOf placed, base.missingEnds link = []) ∧
        d = { base with links := linksOf placed } := by
  have unlinked {placed : List (Nat × Statement)} {base : Diagram}
      (h : placed.foldlM Diagram.apply {} = .ok base) : base.links = [] :=
    foldlM_invariant (P := fun d : Diagram => d.links = []) (fun _ _ _ h e => (Diagram.links_apply e).trans h) rfl h
  simp only [read, bind_eq_ok, foldlM_applyLink]
  constructor
  · rintro ⟨placed, hplaced, base, hbase, declared, rfl⟩
    exact ⟨placed, base, hplaced, hbase, declared, by rw [unlinked hbase, List.nil_append]⟩
  · rintro ⟨placed, base, hplaced, hbase, declared, rfl⟩
    exact ⟨placed, hplaced, base, hbase, declared, by rw [unlinked hbase, List.nil_append]⟩

/-- A statement in the midst of others is read between them. -/
theorem readPlaced_eq_ok {before after : List Tree} :
    statements.readPlaced (before ++ t :: after) = .ok placed ↔
      ∃ earlier statement later, statements.readPlaced before = .ok earlier ∧ statements.read t = .ok statement ∧
        statements.readPlaced after = .ok later ∧ placed = earlier ++ (t.span.offset, statement) :: later := by
  simp only [Shapes.readPlaced, List.mapM_append, List.mapM_cons, bind_eq_ok, pure_eq_ok]
  constructor
  · rintro ⟨earlier, hearlier, _, ⟨_, ⟨statement, hstatement, rfl⟩, later, hlater, rfl⟩, rfl⟩
    exact ⟨earlier, statement, later, hearlier, hstatement, hlater, rfl⟩
  · rintro ⟨earlier, statement, later, hearlier, hstatement, hlater, rfl⟩
    exact ⟨earlier, hearlier, _, ⟨_, ⟨statement, hstatement, rfl⟩, later, hlater, rfl⟩, rfl⟩

/-- What is read of statements among others depends on where one of them starts and on what is read of it. -/
theorem readPlaced_congr {t' : Tree} (offset : t.span.offset = t'.span.offset)
    (same : statements.read t = statements.read t') (before after : List Tree) :
    statements.readPlaced (before ++ t :: after) = statements.readPlaced (before ++ t' :: after) := by
  simp only [Shapes.readPlaced, List.mapM_append, List.mapM_cons, offset, same]

/-- Statements further on in the text are read alike. -/
theorem exists_readPlaced_shifted {k : Nat} {ts : List Tree}
    (h : statements.readPlaced (mapAll (.shifted k) ts) = .ok placed) (k' : Nat) :
    ∃ placed', statements.readPlaced (mapAll (.shifted k') ts) = .ok placed' ∧
      placed.map (·.2) = placed'.map (·.2) := by
  have alike (k : Nat) : (statements.readPlaced (mapAll (.shifted k) ts)).toOption.map (·.map (·.2)) =
      (statements.readAll ts).toOption := by
    rw [toOption_readPlaced, mapAll_eq]
    exact toOption_readAll_map fun _ _ => recast_statement (.of_text fun _ => rfl)
  have same := (alike k).trans (alike k').symm
  rw [h, toOption_ok, Option.map_some, eq_comm, Option.map_eq_some_iff] at same
  obtain ⟨placed', read, texts⟩ := same
  exact ⟨placed', toOption_eq_some.1 read, texts.symm⟩

/-- A relation declares nothing. -/
theorem foldlM_apply_link (earlier later : List (Nat × Statement)) (offset : Nat) (link : Link) (d : Diagram) :
    (earlier ++ (offset, .link link) :: later).foldlM Diagram.apply d =
      (earlier ++ later).foldlM Diagram.apply d := by
  simp only [List.foldlM_append, List.foldlM_cons]
  rfl

theorem read_relation {span : Token} {node : Tree} {a b : String} {r : Relation} (ha : IsName a) (hb : IsName b)
    (source : node.text? "source" = some a) (target : node.text? "target" = some b)
    (relation : node.text? "relation" = some r.word) :
    statements.read (.mk span [("relationship", .tree node)]) = .ok (.link ⟨unquote a, unquote b, r⟩) := by
  have hsource : (node.needText "source" : Reading Fallacy String) = .ok a :=
    needText_of_text? _ _ source ha.trim_eq
  have htarget : (node.needText "target" : Reading Fallacy String) = .ok b :=
    needText_of_text? _ _ target hb.trim_eq
  have hrelation : (node.needText "relation" : Reading Fallacy String) = .ok r.word :=
    needText_of_text? _ _ relation (by cases r <;> decide)
  have known : Relation.ofWord? r.word = some r := by cases r <;> decide
  refine (read_of_find? rfl).trans ?_
  refine bind_eq_ok.2 ⟨node, rfl, bind_eq_ok.2 ⟨_, hrelation, bind_eq_ok.2 ⟨r, orComplain_eq_ok.2 known, ?_⟩⟩⟩
  refine bind_eq_ok.2 ⟨unquote a, bind_eq_ok.2 ⟨a, hsource, rfl⟩, ?_⟩
  exact bind_eq_ok.2 ⟨unquote b, bind_eq_ok.2 ⟨b, htarget, rfl⟩, rfl⟩

/-- Whatever is read from a tree of this shape is a relation. -/
theorem exists_link {span : Token} {node : Node} {statement : Statement}
    (h : statements.read (.mk span [("relationship", node)]) = .ok statement) :
    ∃ link, statement = .link link := by
  rw [read_of_find? rfl] at h
  simp only [bind_eq_ok, pure_eq_ok] at h
  obtain ⟨_, -, _, -, _, -, _, -, _, -, rfl⟩ := h
  exact ⟨_, rfl⟩

end

/-! ## The place of a relation -/

/-- What is left of a trimmed text behind its front is what is left of the rest. -/
theorem trimEnd_of_append {as bs cs : List Char} (h : Chars.trimEnd (as ++ bs) = as ++ cs) :
    Chars.trimEnd bs = cs := by
  by_cases hblank : Chars.trimEnd bs = []
  · obtain ⟨blanks, e, blank⟩ := Chars.exists_append_trimEnd bs
    rw [hblank, List.nil_append] at e
    have trimmed : Chars.trimEnd (as ++ bs) = Chars.trimEnd as := by
      rw [Chars.trimEnd, Chars.trimEndBy, List.reverse_append, List.dropWhile_append_of_pos]
      · rfl
      · exact fun c hc => blank c (e ▸ List.mem_reverse.1 hc)
    have shorter := (Chars.trimEnd_isPrefix as).length_le
    rw [← trimmed, h, List.length_append] at shorter
    rw [hblank, List.eq_nil_of_length_eq_zero (l := cs) (by omega)]
  · rw [Chars.trimEnd_append_of_ne_nil as hblank] at h
    exact List.append_cancel_left h

/-- A text is told from one that follows it by its bytes. -/
theorem append_inj_of_byteSize {as bs cs ds : List Char} (h : as ++ bs = cs ++ ds)
    (size : Chars.byteSize as = Chars.byteSize cs) : as = cs ∧ bs = ds := by
  have front : as = cs := by
    rw [← Chars.takeBytes_append as bs, h, size, Chars.takeBytes_append]
  exact ⟨front, List.append_cancel_left (front ▸ h)⟩

/-- Whether a text of a document is one of its relations. -/
def RelationAt (options : ParseOptions) (front text back : String) : Prop :=
  ∃ tree, grammar.parse (options.nesting + 1) (sourceOf options (front ++ text ++ back)) = .ok tree ∧
    ∃ t ∈ tree.list "statements", ∃ link, t.tree? "relationship" = some link ∧
      link.span = ⟨text, front.utf8ByteSize⟩

instance (options : ParseOptions) (front text back : String) : Decidable (RelationAt options front text back) :=
  decidable_of_iff ((grammar.parse (options.nesting + 1)
      (sourceOf options (front ++ text ++ back))).toOption.any fun tree =>
      (tree.list "statements").any fun t =>
        (t.tree? "relationship").any (·.span == ⟨text, front.utf8ByteSize⟩)) (by
    simp only [RelationAt, Option.any_eq_true, List.any_eq_true, beq_iff_eq, toOption_eq_some])

section

variable {options : ParseOptions} {front text back name : String} {depth : Nat} {cur next : Cursor} {a : Fragment}

/-- A field of this name is left by a relation only. -/
theorem relationship_of_field {node : Node} (hm : statementRule.outcome grammar.rules depth cur = some (next, a))
    (hfield : ("relationship", node) ∈ a.toFields) :
    relationshipRule.outcome grammar.rules depth cur = some (next, a) := by
  have others : ∀ r ∈ [requirementRule, elementRule, directionRule, accessibility "acc_title" "acc_descr"],
      ∀ o ∈ r.outlinesIn grammar.rules, o.excludes "relationship" = true := by decide
  rw [statementRule_eq, outcome_labelled] at hm
  obtain ⟨r, hr, hm⟩ := choice_eq_some hm
  obtain ⟨o, ho, fits⟩ := exists_fits r _ ⟨depth, cur, next, a, hm, rfl⟩
  obtain hr | hr := List.mem_append.1 (show r ∈ [_, _, _, _] ++ [relationshipRule] from hr)
  · exact absurd hfield (fits.excluded (others r hr o ho) node)
  · obtain rfl := List.mem_singleton.1 hr
    exact hm

/-- What is parsed of a document when a text that ends with a name is put between its parts. -/
theorem sourceOf_append {behind : List Char} (h : (sourceOf options (front ++ text ++ back)).toList =
    front.toList ++ (text.toList ++ behind)) (hname : IsName name) (start : String) :
    sourceOf options (front ++ (start ++ name) ++ back) =
      String.ofList (front.toList ++ ((start ++ name).toList ++ behind)) := by
  rw [sourceOf] at h ⊢
  split at h
  · rename_i htrim
    simp only [String.toList_ofList, String.toList_append, ← List.append_assoc] at h
    rw [if_pos htrim]
    have trimmed := hname.trimEnd_append (front.toList ++ start.toList) back.toList
    simp only [List.append_assoc, trimEnd_of_append h] at trimmed
    simp only [String.toList_append, List.append_assoc, trimmed]
  · rename_i htrim
    simp only [String.toList_append, List.append_assoc, List.append_cancel_left_eq] at h
    rw [if_neg htrim, ← h]
    simp [← String.toList_inj]

theorem statementRound_moves (cur : Cursor) (a : Fragment) :
    (statementRound (.ref "statement")).outcome grammar.rules depth cur ≠ some (cur, a) := by
  have consume : ∀ name r, grammar.rules.lookup name = some r → r.consumes = true := by
    intro name r hr
    obtain ⟨rfl, rfl⟩ := Prod.mk.inj (List.mem_singleton.1 (mem_of_lookup hr))
    decide
  exact fun h => Nat.lt_irrefl _ (lt_of_consumes consume (by decide) h)

theorem outcome_statement (cur : Cursor) : (Rule.ref "statement").outcome grammar.rules (depth + 1) cur =
    statementRule.outcome grammar.rules depth cur := by
  rw [outcome_ref]
  rfl

theorem keeps_ref : (Rule.ref "statement").Keeps grammar.rules (depth + 1) :=
  @Peg.keeps_ref grammar.rules depth statementRule "statement" rfl keeps_statement

theorem inked_of_relationship (h : relationshipRule.outcome grammar.rules depth cur = some (next, a)) :
    Inked cur.rest := by
  obtain ⟨offset, rest⟩ := cur
  by_contra blank
  have noName : nameRule.Misses grammar.rules depth rest :=
    misses_name fun c hc => Bool.eq_false_iff.2 fun start => blank (inked_of_head hc start)
  have noRelation : relationshipRule.Misses grammar.rules depth rest :=
    Rule.Misses.capture ((noName.capture "source").sequence.or
      ((noName.capture "target").sequence.or misses_choice_nil)) "relationship"
  rw [noRelation offset] at h
  cases h

/-- What a relation leaves covers what is taken of the text. -/
theorem relation_spans {found behind : List Char} {offset stop : Nat} {link : Tree}
    (h : relationshipRule.outcome grammar.rules depth ⟨offset, found ++ behind⟩ = some (⟨stop, behind⟩, a))
    (hfield : ("relationship", .tree link) ∈ a.toFields) :
    a = .fields [("relationship", .tree link)] ∧ link.span = ⟨String.ofList found, offset⟩ ∧
      stop = offset + Chars.byteSize found := by
  rw [relationshipRule, outcome_capture] at h
  obtain ⟨⟨next, b⟩, hchoice, e⟩ := Option.map_eq_some_iff.1 h
  obtain ⟨rfl, rfl⟩ := Prod.mk.inj e
  obtain ⟨found', hs⟩ := outcome_reaches hchoice
  obtain rfl : found = found' := List.append_cancel_right hs.rest
  have node : .tree link = b.toNode (Cursor.spanTo ⟨offset, found ++ behind⟩ ⟨stop, behind⟩) :=
    (Prod.mk.inj (List.mem_singleton.1 hfield)).2
  refine ⟨by rw [node], ?_, hs.offset⟩
  rw [hs.spanTo] at node
  rcases b with (_ | ⟨field, fields⟩) | (_ | ⟨t, ts⟩) <;> cases node
  rfl

/-- What is parsed of a document is the start of it. -/
theorem sourceOf_isPrefix (options : ParseOptions) (input : String) :
    (sourceOf options input).toList <+: input.toList := by
  rw [sourceOf]
  split
  · rw [String.toList_ofList]
    exact Chars.trimEnd_isPrefix _
  · exact List.prefix_rfl

/-- The place of a relation between two parts of a document: the lines in front of it, the blanks that its line
starts with, what is parsed of the document behind it, and the statements around it. Those behind it are further
on by the bytes of the relation and `base` others. -/
structure Place (options : ParseOptions) (front back : String) where
  line : List Char
  blanks : List Char
  behind : List Char
  base : Nat
  before : List Tree
  after : List Tree
  start : front.toList = line ++ blanks
  stands : Stands grammar (options.nesting + 1) "statements" (.ref "statement") line blanks behind base before after
  source : ∀ start name, IsName name → sourceOf options (front ++ (start ++ name) ++ back) =
    String.ofList (line ++ (blanks ++ ((start ++ name).toList ++ behind)))

/-- Whether the document with this text in the place has this statement there. -/
def Place.Shows (place : Place options front back) (text : String) (t : Tree) : Prop :=
  ∃ tree, grammar.parse (options.nesting + 1) (sourceOf options (front ++ text ++ back)) = .ok tree ∧
    t.span.offset = Chars.byteSize place.line ∧
    tree.list "statements" = place.before ++ t :: mapAll (.shifted (place.base + text.utf8ByteSize)) place.after

theorem RelationAt.exists_place (h : RelationAt options front text back) :
    ∃ place : Place options front back, ∃ span node, place.Shows text (.mk span [("relationship", node)]) := by
  obtain ⟨tree, parsed, t, ht, link, hlink, span⟩ := h
  obtain ⟨line, blanks, found, behind, base, before, after, stop, a, source, hm, fields, stands⟩ :=
    @exists_stands _ (.ref "statement") grammar (keyword "requirementDiagram") "statements" _ tree t rfl rfl
      (keeps_of_isLineWise rfl) keeps_ref statementRound_moves parsed ht
  have hfield : ("relationship", .tree link) ∈ a.toFields := by
    obtain ⟨node, hnode, e⟩ := Option.bind_eq_some_iff.1 hlink
    cases node with
    | tree inner =>
      obtain rfl : inner = link := Option.some.inj e
      exact fields ▸ Tree.mem_fields_of_get? hnode
    | token | list => cases e
  have relation := relationship_of_field (outcome_statement _ ▸ hm) hfield
  have inked := inked_of_relationship relation
  have hne : found ≠ [] := by
    rintro rfl
    exact stands.ends inked
  obtain ⟨rfl, covers, rfl⟩ := relation_spans relation hfield
  obtain ⟨rfl, size⟩ := Token.mk.inj (covers.symm.trans span)
  obtain ⟨trimmed, whole⟩ := sourceOf_isPrefix options (front ++ String.ofList found ++ back)
  rw [source] at whole
  have start : front.toList = line ++ blanks := by
    refine (@append_inj_of_byteSize _ (found ++ back.toList) _ (found ++ behind ++ trimmed) ?_ ?_).1
    · simpa [String.toList_append] using whole.symm
    · rw [size, Chars.byteSize_toList]
  have split : (sourceOf options (front ++ String.ofList found ++ back)).toList =
      front.toList ++ ((String.ofList found).toList ++ behind) := by
    rw [source, start, String.toList_ofList, List.append_assoc]
  obtain ⟨tree', span', parsed', place, statements⟩ :=
    stands.replaced found _ (inked.of_append hne) (List.cons_ne_nil _ _) hm
  rw [← source, String.ofList_toList] at parsed'
  refine ⟨⟨line, blanks, behind, base, before, after, start, stands, fun start' name hname => ?_⟩, span',
    .tree link, tree', parsed', place, ?_⟩
  · rw [sourceOf_append split hname, start, List.append_assoc]
  · rw [statements, ← Chars.byteSize_toList, String.toList_ofList]

end

/-! ## Other relations in its place -/

/-- A text that ends with a name and is read as a relation. -/
structure Spells (text : String) (link : Link) : Prop where
  ends : ∃ start name, IsName name ∧ text = start ++ name
  inked : Inked text.toList
  takes : ∀ depth rest, (∀ c ∈ rest.head?, isNameChar c = false) → ∃ node : Nat → Tree,
    statementRule.Takes grammar.rules depth text.toList rest
        (fun offset => .fields [("relationship", .tree (node offset))]) ∧
      ∀ offset span, statements.read (.mk span [("relationship", .tree (node offset))]) = .ok (.link link)

section

variable {options : ParseOptions} {front back text text' a b : String} {r : Relation} {link : Link} {t t' : Tree}

theorem exists_forward (hb : IsName b) : ∃ start name, IsName name ∧ forward a r b = start ++ name :=
  ⟨a ++ (" " ++ ("-" ++ (" " ++ (r.word ++ (" " ++ ("->" ++ " ")))))), b, hb, by
    simp only [forward, String.append_assoc]⟩

theorem inked_forward (ha : IsName a) : Inked (forward a r b).toList := by
  rw [forward, String.toList_append]
  exact ha.inked _

theorem spells_forward (ha : IsName a) (hb : IsName b) (hne : a ≠ "direction") :
    Spells (forward a r b) ⟨unquote a, unquote b, r⟩ where
  ends := exists_forward hb
  inked := inked_forward ha
  takes depth rest hstop := by
    obtain ⟨node, takes, texts⟩ := takes_statement_forward ha hb r hne hstop
    exact ⟨node, takes, fun offset span => read_relation ha hb (text?_of_texts _ _ (texts offset) rfl)
      (text?_of_texts _ _ (texts offset) rfl) (text?_of_texts _ _ (texts offset) rfl)⟩

theorem spells_backward (ha : IsName a) (hb : IsName b) :
    Spells (backward a r b) ⟨unquote a, unquote b, r⟩ where
  ends := ⟨b ++ (" " ++ ("<-" ++ (" " ++ (r.word ++ (" " ++ ("-" ++ " ")))))), a, ha, by
    simp only [backward, String.append_assoc]⟩
  inked := by
    rw [backward, String.toList_append]
    exact hb.inked _
  takes depth rest hstop := by
    obtain ⟨node, takes, texts⟩ := takes_statement_backward ha hb r hstop
    exact ⟨node, takes, fun offset span => read_relation ha hb (text?_of_texts _ _ (texts offset) rfl)
      (text?_of_texts _ _ (texts offset) rfl) (text?_of_texts _ _ (texts offset) rfl)⟩

namespace Place

variable (place : Place options front back)

theorem stops : ∀ c ∈ place.behind.head?, isNameChar c = false :=
  fun c hc => Bool.eq_false_iff.2 fun isName =>
    place.stands.ends (inked_of_head hc (by rw [isNameStart, isName, Bool.or_true]))

/-- A relation may be put in the place. -/
theorem exists_shows (h : Spells text link) :
    ∃ t, place.Shows text t ∧ statements.read t = .ok (.link link) := by
  obtain ⟨node, takes, read⟩ := h.takes options.nesting place.behind place.stops
  obtain ⟨start, name, hname, rfl⟩ := h.ends
  have taken : (Rule.ref "statement").Takes grammar.rules (options.nesting + 1) _ _ _ := takes.ref rfl
  obtain ⟨tree, span, parsed, offset, statements⟩ :=
    place.stands.replaced _ _ h.inked (List.cons_ne_nil _ _) (taken _)
  rw [← place.source start name hname] at parsed
  let relation := node (Chars.byteSize (place.line ++ place.blanks))
  refine ⟨.mk span [("relationship", .tree relation)], ⟨tree, parsed, offset, ?_⟩, read _ span⟩
  rw [statements, Chars.byteSize_toList]

/-- A text that does not end its line as a statement cannot be put in the place. -/
theorem not_parsed (hends : ∃ start name, IsName name ∧ text = start ++ name) (inked : Inked text.toList)
    (h : (Rule.sequence [.ref "statement", eol]).Misses grammar.rules (options.nesting + 1)
      (text.toList ++ place.behind)) (tree : Tree) :
    grammar.parse (options.nesting + 1) (sourceOf options (front ++ text ++ back)) ≠ .ok tree := by
  obtain ⟨start, name, hname, rfl⟩ := hends
  rw [place.source start name hname]
  exact place.stands.spoiled _ (inked.append _) h tree

variable {place}

/-- Relations of one size that are read alike make the same of a document. -/
theorem Shows.parseAs_eq (h : place.Shows text t) (h' : place.Shows text' t')
    (size : text.utf8ByteSize = text'.utf8ByteSize) (same : statements.read t = statements.read t') :
    parseAs .all options .requirement (front ++ text ++ back) =
      parseAs .all options .requirement (front ++ text' ++ back) := by
  obtain ⟨tree, parsed, offset, list⟩ := h
  obtain ⟨tree', parsed', offset', list'⟩ := h'
  refine parseAs_alike parsed parsed' (?_ : read tree = read tree')
  rw [read, read, list, list', size, readPlaced_congr (offset.trans offset'.symm) same]

/-- A document with a relation in the place is accepted if the ends of all relations are declared. -/
theorem Shows.accepted_iff (h : place.Shows text t) (hread : statements.read t = .ok (.link link)) {d : Diagram} :
    parseAs .all options .requirement (front ++ text ++ back) = .ok ⟨.requirement, d⟩ ↔
      ∃ earlier later base, statements.readPlaced place.before = .ok earlier ∧
        statements.readPlaced (mapAll (.shifted (place.base + text.utf8ByteSize)) place.after) = .ok later ∧
        (earlier ++ later).foldlM Diagram.apply {} = .ok base ∧
        (∀ l ∈ linksOf earlier ++ link :: linksOf later, base.missingEnds l = []) ∧
        d = { base with links := linksOf earlier ++ link :: linksOf later } := by
  obtain ⟨tree, parsed, -, list⟩ := h
  rw [parseAs_eq_ok_iff_reads rfl]
  constructor
  · rintro ⟨content, ⟨tree', parsed', hcontent⟩, same⟩
    obtain rfl : tree = tree' := Except.ok.inj (parsed.symm.trans parsed')
    obtain ⟨placed, base, hplaced, hbase, declared, rfl⟩ := read_eq_ok.1 hcontent
    rw [list, readPlaced_eq_ok] at hplaced
    obtain ⟨earlier, statement, later, hearlier, hstatement, hlater, rfl⟩ := hplaced
    obtain rfl := Except.ok.inj (hread.symm.trans hstatement)
    rw [foldlM_apply_link] at hbase
    rw [linksOf_append, linksOf_cons_link] at declared same
    exact ⟨earlier, later, base, hearlier, hlater, hbase, declared, eq_of_heq (Model.mk.inj same).2⟩
  · rintro ⟨earlier, later, base, hearlier, hlater, hbase, declared, rfl⟩
    refine ⟨_, ⟨tree, parsed, read_eq_ok.2
      ⟨earlier ++ (t.span.offset, .link link) :: later, base, ?_, ?_, ?_, rfl⟩⟩, ?_⟩
    · exact list ▸ readPlaced_eq_ok.2 ⟨earlier, _, later, hearlier, hread, hlater, rfl⟩
    · rwa [foldlM_apply_link]
    · rwa [linksOf_append, linksOf_cons_link]
    · rw [linksOf_append, linksOf_cons_link]

theorem Shows.exists_read {node : Node} {span : Token} {d : Diagram}
    (h : place.Shows text (.mk span [("relationship", node)]))
    (accepted : parseAs .all options .requirement (front ++ text ++ back) = .ok ⟨.requirement, d⟩) :
    ∃ link, statements.read (.mk span [("relationship", node)]) = .ok (.link link) := by
  obtain ⟨tree, parsed, -, list⟩ := h
  obtain ⟨content, ⟨tree', parsed', hcontent⟩, -⟩ := (parseAs_eq_ok_iff_reads rfl).1 accepted
  obtain rfl : tree = tree' := Except.ok.inj (parsed.symm.trans parsed')
  obtain ⟨placed, base, hplaced, -⟩ := read_eq_ok.1 hcontent
  rw [list, readPlaced_eq_ok] at hplaced
  obtain ⟨earlier, statement, later, -, hstatement, -⟩ := hplaced
  obtain ⟨link, rfl⟩ := exists_link hstatement
  exact ⟨link, hstatement⟩

/-- Where a document is accepted, another relation in the place of one is the only change. -/
theorem Shows.replaced {node : Node} {span : Token} {d : Diagram}
    (h : place.Shows text (.mk span [("relationship", node)])) (h' : place.Shows text' t)
    (hread : statements.read t = .ok (.link link)) (declared : d.missingEnds link = [])
    (accepted : parseAs .all options .requirement (front ++ text ++ back) = .ok ⟨.requirement, d⟩) :
    ∃ earlier old later, d.links = earlier ++ old :: later ∧
      parseAs .all options .requirement (front ++ text' ++ back) =
        .ok ⟨.requirement, { d with links := earlier ++ link :: later }⟩ := by
  obtain ⟨old, hold⟩ := h.exists_read accepted
  obtain ⟨earlier, later, base, hearlier, hlater, hbase, known, rfl⟩ := (h.accepted_iff hold).1 accepted
  obtain ⟨later', hlater', same⟩ := exists_readPlaced_shifted hlater (place.base + text'.utf8ByteSize)
  refine ⟨linksOf earlier, old, linksOf later, rfl, (h'.accepted_iff hread).2 ⟨earlier, later', base, hearlier,
    hlater', ?_, ?_, ?_⟩⟩
  · have alike : (earlier ++ later).map (·.2) = (earlier ++ later').map (·.2) := by
      rw [List.map_append, List.map_append, same]
    rw [← toOption_eq_some, ← toOption_foldlM_placed toOption_apply alike, hbase, toOption_ok]
  · rw [← linksOf_alike same]
    simp only [List.mem_append, List.mem_cons] at known ⊢
    rintro l (hl | rfl | hl)
    · exact known l (.inl hl)
    · exact declared
    · exact known l (.inr (.inr hl))
  · rw [linksOf_alike same]

end Place

/-- A relation whose source is named like the keyword of directions cannot be written from it. -/
theorem Place.forward_direction (place : Place options front back) (ha : IsName "direction") (hb : IsName b)
    (r : Relation) :
    parseAs .all options .requirement (front ++ forward "direction" r b ++ back) ≠
      parseAs .all options .requirement (front ++ backward "direction" r b ++ back) := by
  have misses := @misses_forward_direction grammar.rules options.nesting place.behind b "statement" rfl ha hb r
    place.stops
  have unparsed := place.not_parsed (exists_forward hb) (inked_forward ha) misses
  obtain ⟨t, ⟨tree, parsed, -⟩, -⟩ := place.exists_shows (spells_backward (r := r) ha hb)
  intro same
  cases hforward : grammar.parse (options.nesting + 1)
      (sourceOf options (front ++ forward "direction" r b ++ back)) with
  | ok tree => exact unparsed tree hforward
  | error failure =>
    obtain ⟨_, malformed, -⟩ := failure_of_parseAs_malformed (same.symm.trans (parseAs_malformed hforward))
    exact absurd (parsed.symm.trans malformed) nofun

theorem utf8ByteSize_forward (a : String) (r : Relation) (b : String) :
    (forward a r b).utf8ByteSize = (backward a r b).utf8ByteSize := by
  have marks : "->".utf8ByteSize = "<-".utf8ByteSize := rfl
  simp only [forward, backward, String.utf8ByteSize_append, marks]
  omega

theorem missingEnds_eq_nil {d : Diagram} {link : Link} :
    d.missingEnds link = [] ↔ d.contains link.source = true ∧ d.contains link.target = true := by
  simp [Diagram.missingEnds]

/-- Written from its source or from its target, a relation makes the same of a document, unless its source is
named like the keyword of directions. It goes from the one name to the other, and where a document is accepted that
declares both names, it is the only change. -/
theorem spellings_alike_iff (h : RelationAt options front text back) (ha : IsName a) (hb : IsName b)
    (r : Relation) :
    (parseAs .all options .requirement (front ++ forward a r b ++ back) =
        parseAs .all options .requirement (front ++ backward a r b ++ back) ↔ a ≠ "direction") ∧
    (∀ d : Diagram,
      parseAs .all options .requirement (front ++ backward a r b ++ back) = .ok ⟨.requirement, d⟩ →
        ⟨unquote a, unquote b, r⟩ ∈ d.links) ∧
    (∀ d : Diagram, parseAs .all options .requirement (front ++ text ++ back) = .ok ⟨.requirement, d⟩ →
      d.contains (unquote a) = true → d.contains (unquote b) = true →
        ∃ earlier old later, d.links = earlier ++ old :: later ∧
          parseAs .all options .requirement (front ++ backward a r b ++ back) =
            .ok ⟨.requirement, { d with links := earlier ++ ⟨unquote a, unquote b, r⟩ :: later }⟩) := by
  obtain ⟨place, span, node, shown⟩ := h.exists_place
  obtain ⟨t, shows, read⟩ := place.exists_shows (spells_backward (r := r) ha hb)
  refine ⟨⟨fun same => ?_, fun hne => ?_⟩, fun d accepted => ?_, fun d accepted source target => ?_⟩
  · rintro rfl
    exact place.forward_direction ha hb r same
  · obtain ⟨t', shows', read'⟩ := place.exists_shows (spells_forward (r := r) ha hb hne)
    exact shows'.parseAs_eq shows (utf8ByteSize_forward a r b) (read'.trans read.symm)
  · obtain ⟨earlier, later, base, -, -, -, -, rfl⟩ := (shows.accepted_iff read).1 accepted
    exact List.mem_append_right _ List.mem_cons_self
  · exact shown.replaced shows read (missingEnds_eq_nil.2 ⟨source, target⟩) accepted

end

instance (options : ParseOptions) (input : String) (d : Diagram) :
    Decidable (parseAs .all options .requirement input = .ok ⟨.requirement, d⟩) :=
  decidable_of_iff
    (((grammar.parse (options.nesting + 1) (sourceOf options input)).toOption.bind fun tree =>
      (read tree).toOption) = some d) (by
      rw [parseAs_eq_ok_iff_reads rfl]
      constructor
      · intro found
        obtain ⟨tree, parsed, content⟩ := Option.bind_eq_some_iff.1 found
        exact ⟨d, ⟨tree, toOption_eq_some.1 parsed, toOption_eq_some.1 content⟩, rfl⟩
      · rintro ⟨_, ⟨tree, parsed, content⟩, ⟨⟩⟩
        exact Option.bind_eq_some_iff.2 ⟨tree, toOption_eq_some.2 parsed, toOption_eq_some.2 content⟩)

/-- A relation of an element to itself, written from its source with a quoted name instead. -/
theorem spellings_alike_of_quoted :
    parseAs .all { nesting := 20 } .requirement
        ("requirementDiagram\nelement a\x7b\n\x7d\n" ++ forward "\"a\"" .traces "a" ++ "") =
      .ok ⟨.requirement, { elements := [{ name := "a" }], links := [⟨"a", "a", .traces⟩] }⟩ := by
  have relation : RelationAt { nesting := 20 } "requirementDiagram\nelement a\x7b\n\x7d\n" "a-copies ->a" "" := by
    decide +kernel
  have names : IsName "\"a\"" ∧ IsName "a" := by decide +kernel
  obtain ⟨alike, -, replaced⟩ := spellings_alike_iff relation names.1 names.2 .traces
  obtain ⟨earlier, old, later, links, accepted⟩ := replaced
    { elements := [{ name := "a" }], links := [⟨"a", "a", .copies⟩] } (by decide +kernel) (by decide)
    (by decide)
  have single : 1 = earlier.length + (later.length + 1) := (congrArg List.length links).trans List.length_append
  obtain rfl : earlier = [] := List.eq_nil_of_length_eq_zero (by omega)
  obtain rfl : later = [] := List.eq_nil_of_length_eq_zero (by omega)
  exact (alike.2 (by decide)).trans accepted

/-- A requirement that contains itself and has the name of the keyword of directions. The document is accepted if
the relation is written from its target, and rejected if it is written from its source. -/
theorem direction_overtakes_relation :
    IsName "direction" ∧
    parseAs .all { nesting := 20 } .requirement ("requirementDiagram\nrequirement direction \x7b\n\x7d\n" ++
        backward "direction" .contains "direction" ++ "\n") =
      .ok ⟨.requirement, {
        requirements := [{ name := "direction", topic := .requirement }]
        links := [⟨"direction", "direction", .contains⟩] }⟩ ∧
    (parseAs .all { nesting := 20 } .requirement ("requirementDiagram\nrequirement direction \x7b\n\x7d\n" ++
        forward "direction" .contains "direction" ++ "\n")).isOk = false := by
  decide +kernel

end DiagramText.Requirement
