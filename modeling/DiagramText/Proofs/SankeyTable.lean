import DiagramText.Proofs.Endpoints
import DiagramText.Proofs.Indexed
import DiagramText.Proofs.Parse
import DiagramText.Proofs.Peg.Takes
import DiagramText.Proofs.Text.Numeral
import DiagramText.Proofs.Text.Quoting
import Mathlib.Data.List.Induction

/-!
# Tables of flows

A table of flows is a document with a row for each flow, in which both names are quoted (`Table.document`).
Its grammar takes each row apart at the commas between the fields, whatever the quoted names contain
(`takes_row`), and each field is decoded to what was quoted. So the network of the table has its flows, row by
row, and their names in the order in which they first occur (`parseAs_document_iff`). The one way for a table
to be rejected is a numeral whose value is no flow: a negative one, or one that is beyond the range of floats.
-/

namespace DiagramText.Sankey

open Peg Reading

/-- A row of a table: two names, each on one line, and a decimal numeral. -/
structure Row where
  source : String
  target : String
  value : Numeral.Decimal
  source_inLine : ∀ c ∈ source.toList, c ≠ '\r' ∧ c ≠ '\n'
  target_inLine : ∀ c ∈ target.toList, c ≠ '\r' ∧ c ≠ '\n'

namespace Row

/-- The text of the row, without the end of the line. -/
def text (r : Row) : String := quoteCsv r.source ++ "," ++ quoteCsv r.target ++ "," ++ r.value.text

/-- The flow that the row says. -/
noncomputable def link (r : Row) : Link := ⟨r.source, r.target, r.value.value⟩

end Row

/-- The document with these rows. -/
def document (rows : List Row) : String := String.join ("sankey-beta\n" :: rows.map fun r => r.text ++ "\n")

/-- The names in rows, as they first occur. -/
def names (rows : List Row) : List String := (rows.flatMap fun r => [r.source, r.target]).eraseDups

theorem nodup_names (rows : List Row) : (Keyed.ids (names rows)).Nodup := by
  rw [Keyed.ids, show (Keyed.id : String → String) = fun name => name from rfl, List.map_id']
  exact Distinct.nodup_eraseDups _

/-- The network of the flows of rows. -/
noncomputable def network (rows : List Row) : Network where
  roster := .of (names rows) (nodup_names rows)
  links := rows.map Row.link

/-! ## Rows -/

section

variable {table : List (String × Rule)} {depth : Nat}

/-- The inside of a quoted name goes on up to the quote that is not doubled. -/
theorem takes_encode {cs rest : List Char} (h : ∀ c ∈ cs, c ≠ '\r' ∧ c ≠ '\n') (hrest : '"' ∉ rest.head?) :
    (many (.choice [lit "\"\"", noneOf "\"\r\n"])).Takes table depth (Csv.encode cs) ('"' :: rest)
      fun _ => .items [] := by
  induction cs with
  | nil =>
    refine (Rule.Misses.or (misses_lit ?_) (Rule.Misses.or (misses_char ?_) misses_choice_nil)).many
    · rintro ⟨more, e⟩
      obtain ⟨-, e⟩ := List.cons.inj e
      exact hrest (by rw [← e]; rfl)
    · simp [CharClass.contains]
  | cons c cs ih =>
    rw [List.forall_mem_cons] at h
    rw [Csv.encode]
    split
    · rename_i same
      subst same
      have doubled : (Rule.choice [lit "\"\"", noneOf "\"\r\n"]).Takes table depth ['"', '"']
          (Csv.encode cs ++ '"' :: rest) fun _ => .empty := (takes_lit "\"\"" _).choice
      exact doubled.manySkip rfl (List.cons_ne_nil _ _) (ih h.2)
    · rename_i other
      refine Rule.Takes.manySkip (Rule.Misses.choice (misses_lit ?_) (Rule.Takes.choice (takes_char ?_ _))) rfl
        (List.cons_ne_nil _ _) (ih h.2)
      · rintro ⟨more, e⟩
        exact other (List.cons.inj e).1.symm
      · simp [CharClass.contains, other, h.1]

theorem takes_field {s : String} {rest : List Char} (h : ∀ c ∈ s.toList, c ≠ '\r' ∧ c ≠ '\n')
    (hrest : '"' ∉ rest.head?) : fieldRule.Takes table depth (quoteCsv s).toList rest fun _ => .fields [] := by
  have inside := (@takes_encode table depth _ rest h hrest).quiet
  have closing : (Rule.labelled "closing quote" (lit "\"")).Takes table depth ['"'] rest fun _ => .empty :=
    (takes_lit "\"" rest).labelled _
  have opening : (lit "\"").Takes table depth ['"'] (Csv.encode s.toList ++ ['"'] ++ rest) fun _ => .empty :=
    takes_lit "\"" _
  have whole := opening.skip rfl (inside.skip rfl (closing.skipLast rfl))
  rw [toList_quoteCsv]
  exact Rule.Takes.choice whole

/-- Whether a syntax tree is this row, taken apart into its fields. -/
def Row.IsIn (r : Row) (t : Tree) : Prop :=
  texts t = [("source", quoteCsv r.source), ("target", quoteCsv r.target), ("value", r.value.text)]

theorem takes_row (r : Row) {rest : List Char} (hrest : ∀ c ∈ rest.head?, c ∈ [',', '\r', '\n']) :
    ∃ fields : Nat → List (String × Node),
      rowRule.Takes table depth r.text.toList rest (fun offset => .fields (fields offset)) ∧
        ∀ offset span, r.IsIn (.mk span (fields offset)) := by
  have inField : ∀ c ∈ r.value.text.toList, c ∉ ",\r\n".toList :=
    Numeral.Decimal.forall_mem_text (by decide) (by decide) r.value
  have comma (after : List Char) :
      (Rule.labelled "','" (lit ",")).Takes table depth [','] after fun _ => .empty :=
    (takes_lit "," after).labelled _
  have value : (text1Until ",\r\n" "value").Takes table depth r.value.text.toList rest fun _ => .items [] :=
    takes_text1Until r.value.text_ne_nil inField hrest _
  have target (more : List Char) :
      fieldRule.Takes table depth (quoteCsv r.target).toList ([','] ++ more ++ rest)
        fun _ => .fields [] := takes_field r.target_inLine (by simp)
  have source (more : List Char) :
      fieldRule.Takes table depth (quoteCsv r.source).toList ([','] ++ more ++ rest)
        fun _ => .fields [] := takes_field r.source_inLine (by simp)
  have ofValue := (value.token rfl "value").last
  have ofTarget := ((target _).token rfl "target").cons ((comma (r.value.text.toList ++ rest)).skip rfl ofValue)
  have ofSource := ((source _).token rfl "source").cons ((comma (_ ++ rest)).skip rfl ofTarget)
  have whole : r.text.toList = (quoteCsv r.source).toList ++ ([','] ++ ((quoteCsv r.target).toList ++ ([','] ++
      r.value.text.toList))) := by
    simp [Row.text]
  rw [whole]
  exact ⟨_, ofSource.labelled "row", fun offset span => rfl⟩

theorem Row.inked (r : Row) : Inked r.text.toList := ⟨'"', by simp [Row.text], by decide⟩

theorem Row.IsIn.round {r : Row} {span : Token} {fields : List (String × Node)} (h : r.IsIn (.mk span fields)) :
    Fragment.round (.fields fields) span = [.mk span fields] := by
  have filled : fields ≠ [] := by
    rintro rfl
    cases h
  exact if_neg filled

/-- The line of a row, and the lines behind it. -/
theorem takes_line (r : Row) {ending more : List Char} {trees : Nat → List Tree} (hend : Ends ending more)
    (later : (statementLines rowRule).Takes table depth more [] fun offset => .items (trees offset)) :
    ∃ tree : Nat → Tree, (statementLines rowRule).Takes table depth (r.text.toList ++ ending ++ more) []
      (fun offset => .items (tree offset :: trees (offset + Chars.byteSize (r.text.toList ++ ending)))) ∧
        ∀ offset, r.IsIn (tree offset) := by
  have stop : ∀ c ∈ (ending ++ (more ++ [])).head?, c ∈ [',', '\r', '\n'] := by
    obtain rfl | ⟨rfl, rfl⟩ := hend <;> simp
  obtain ⟨fields, taken, isIn⟩ := @takes_row table depth r _ stop
  have whole := takes_statementLines_cons r.inked taken (by rwa [List.append_nil]) later
  refine ⟨fun offset => .mk ⟨String.ofList (r.text.toList ++ ending), offset⟩ (fields offset), ?_,
    fun offset => isIn offset _⟩
  simpa only [Fragment.toFields, (isIn _ _).round, List.singleton_append] using whole

/-- The lines behind the header are taken apart row by row. The last line feed may be missing. -/
theorem takes_rows {tail : List Char} (htail : Ends tail []) (rows : List Row) :
    ∃ (ending lines : List Char) (trees : Nat → List Tree),
      rows.flatMap (fun r => '\n' :: r.text.toList) ++ tail = ending ++ lines ∧ Ends ending lines ∧
        (statementLines rowRule).Takes table depth lines [] (fun offset => .items (trees offset)) ∧
          ∀ offset, List.Forall₂ Row.IsIn rows (trees offset) := by
  induction rows with
  | nil =>
    have noRow : rowRule.Misses table depth [] := fun _ => rfl
    exact ⟨tail, [], _, by simp, htail, takes_statementLines_nil noRow, fun _ => .nil⟩
  | cons r rows ih =>
    obtain ⟨ending, lines, trees, split, hend, later, areIn⟩ := ih
    obtain ⟨tree, taken, isIn⟩ := takes_line r hend later
    refine ⟨['\n'], _, _, ?_, .inl rfl, taken, fun offset => .cons (isIn offset) (areIn _)⟩
    simp [split]

end

/-! ## Documents -/

theorem toList_document (rows : List Row) : (document rows).toList =
    "sankey-beta".toList ++ (rows.flatMap (fun r => '\n' :: r.text.toList) ++ ['\n']) := by
  have shifted : '\n' :: rows.flatMap (fun r => r.text.toList ++ ['\n']) =
      rows.flatMap (fun r => '\n' :: r.text.toList) ++ ['\n'] := by
    induction rows with
    | nil => rfl
    | cons r rows ih => simp [ih]
  rw [← shifted]
  simp [document, String.toList_join, List.flatMap_map]

theorem trimEnd_document (rows : List Row) : Chars.trimEnd (document rows).toList =
    "sankey-beta".toList ++ rows.flatMap (fun r => '\n' :: r.text.toList) := by
  rw [toList_document]
  obtain rfl | ⟨before, last, rfl⟩ := List.eq_nil_or_concat rows
  · decide
  · have stop (front : List Char) :=
      Chars.trimEnd_append_word front last.value.text_ne_nil last.value.not_isBlank ['\n']
    obtain ⟨front, hfront⟩ : ∃ front, last.text.toList = front ++ last.value.text.toList :=
      ⟨_, String.toList_append⟩
    simpa [hfront, show Chars.trimEnd ['\n'] = [] from rfl] using
      stop ("sankey-beta".toList ++ (before.flatMap (fun r => '\n' :: r.text.toList) ++ '\n' :: front))

/-- What is parsed of a document is all of it, but perhaps for the last line feed. -/
theorem exists_sourceOf (options : ParseOptions) (rows : List Row) :
    ∃ tail, Ends tail [] ∧ sourceOf options (document rows) =
      String.ofList ("sankey-beta".toList ++ (rows.flatMap (fun r => '\n' :: r.text.toList) ++ tail)) := by
  rw [sourceOf]
  split
  · refine ⟨[], .inr ⟨rfl, rfl⟩, ?_⟩
    rw [trimEnd_document, List.append_nil]
  · refine ⟨['\n'], .inl rfl, ?_⟩
    rw [← toList_document, String.ofList_toList]

/-- The tree of a document has a statement for each row. -/
theorem exists_tree (options : ParseOptions) (rows : List Row) :
    ∃ t, grammar.parse (options.nesting + 1) (sourceOf options (document rows)) = .ok t ∧
      List.Forall₂ Row.IsIn rows (t.list "statements") := by
  obtain ⟨tail, htail, source⟩ := exists_sourceOf options rows
  obtain ⟨ending, lines, trees, split, hend, taken, areIn⟩ :=
    @takes_rows grammar.rules (options.nesting + 1) tail htail rows
  have stop : ∀ c ∈ (ending ++ lines).head?, isWordChar c = false := by
    obtain rfl | ⟨rfl, rfl⟩ := hend
    · rintro c ⟨⟩
      rfl
    · nofun
  have header : (Rule.choice [keyword "sankey-beta", keyword "sankey"]).Takes grammar.rules (options.nesting + 1)
      "sankey-beta".toList (ending ++ lines) fun _ => .fields [] := (takes_keyword "sankey-beta" stop).choice
  obtain ⟨t, offset, parsed, statements⟩ :=
    exists_rounds rfl ⟨'s', rfl, by decide⟩ header rfl hend taken
  rw [List.append_assoc] at parsed
  exact ⟨t, by rw [source, split, parsed], statements ▸ areIn offset⟩

/-! ## Networks -/

/-- A row is read as the flow that it says, unless its value is none. -/
theorem read_row {r : Row} {t : Tree} (h : r.IsIn t) {l : Link} :
    rows.read t = .ok l ↔ isFlow r.value.value = true ∧ r.link = l := by
  have source : t.text? "source" = some (quoteCsv r.source) := text?_of_texts _ _ h rfl
  have target : t.text? "target" = some (quoteCsv r.target) := text?_of_texts _ _ h rfl
  have value : t.text? "value" = some r.value.text := text?_of_texts _ _ h rfl
  have shape : ["source", "target", "value"].all t.has = true := by simp [has_eq_isSome, source, target, value]
  rw [rows, Shapes.ofList, Shapes.read]
  simp only [Shapes.on, Shapes.place, List.foldl_cons, List.foldl_nil, List.find?_cons, shape]
  simp [needText_of_text? t _ source (trim_quoteCsv _), needText_of_text? t _ target (trim_quoteCsv _),
    needText_of_text? t _ value r.value.trim_text, bind_eq_ok, orComplain_eq_ok, Numeral.float?_text,
    csvField_quoteCsv, and_assoc, Row.link]

/-- Rows are read as their flows. -/
theorem readAll_rows {rs : List Row} {ts : List Tree} (h : List.Forall₂ Row.IsIn rs ts) {ls : List Link} :
    rows.readAll ts = .ok ls ↔ (∀ r ∈ rs, isFlow r.value.value = true) ∧ rs.map Row.link = ls := by
  rw [Shapes.readAll]
  induction h generalizing ls with
  | nil => simp [pure_eq_ok]
  | cons isIn _ ih =>
    simp only [List.mapM_cons, bind_eq_ok, pure_eq_ok, read_row isIn, ih, List.forall_mem_cons, List.map_cons]
    grind

theorem nodes_foldl_addRow (rs : List Row) (n : Network) :
    ((rs.map Row.link).foldl Network.addRow n).nodes =
      Distinct.addAll n.nodes (rs.flatMap fun r => [r.source, r.target]) := by
  induction rs generalizing n with
  | nil => rfl
  | cons r rs ih =>
    have added : (n.addRow r.link).nodes = Distinct.add (Distinct.add n.nodes r.source) r.target :=
      (Network.nodes_addNode _ _).trans (congrArg (Distinct.add · r.target) (n.nodes_addNode r.source))
    rw [List.map_cons, List.foldl_cons, ih, added]
    rfl

theorem links_foldl_addRow (rs : List Row) (n : Network) :
    ((rs.map Row.link).foldl Network.addRow n).links = n.links ++ rs.map Row.link := by
  induction rs generalizing n with
  | nil => exact (List.append_nil _).symm
  | cons r rs ih =>
    rw [List.map_cons, List.foldl_cons, ih, List.append_cons]
    rfl

/-- The flows of a table come in its order, and their names as they first occur. -/
theorem foldl_addRow (rs : List Row) : (rs.map Row.link).foldl Network.addRow {} = network rs := by
  have roster : ((rs.map Row.link).foldl Network.addRow {}).roster = .of (names rs) (nodup_names rs) :=
    Roster.ext ((nodes_foldl_addRow rs {}).trans (Distinct.addAll_eraseDups [] _))
  have links : ((rs.map Row.link).foldl Network.addRow {}).links = rs.map Row.link := links_foldl_addRow rs {}
  calc (rs.map Row.link).foldl Network.addRow {}
    _ = ⟨((rs.map Row.link).foldl Network.addRow {}).roster, ((rs.map Row.link).foldl Network.addRow {}).links⟩ := rfl
    _ = network rs := by rw [roster, links, network]

/-- What a network refers to without having it are nodes. -/
theorem exists_dangling {n : Network} {issue : Issue} (h : issue ∈ n.issues)
    (dangling : issue.isDangling = true) : ∃ id, issue = .danglingReference "link" id := by
  cases issue with
  | danglingReference context id =>
    simp only [Network.issues, Network.linkIssues, List.mem_append, Issue.dangling_not_mem_ofCount,
      List.mem_flatMap, Issue.mem_dangling, false_or] at h
    obtain ⟨l, -, ⟨rfl, -⟩ | h⟩ := h
    · exact ⟨id, rfl⟩
    · split at h <;> simp at h
  | _ => cases dangling

/-- What is read from the document of a table is its network, whose values are those of flows. -/
theorem reads_document {options : ParseOptions} {rs : List Row} {n : Network} :
    Kind.sankey.Reads (options.nesting + 1) (sourceOf options (document rs)) n ↔
      (∀ r ∈ rs, isFlow r.value.value = true) ∧ network rs = n := by
  obtain ⟨t, parsed, areIn⟩ := exists_tree options rs
  have reading : Sankey.read t = .ok n ↔ (∀ r ∈ rs, isFlow r.value.value = true) ∧ network rs = n := by
    simp only [Sankey.read, bind_eq_ok, pure_eq_ok, readAll_rows areIn, and_assoc, exists_and_left,
      exists_eq_left', foldl_addRow]
  constructor
  · rintro ⟨t', parsed', reads⟩
    obtain rfl := Except.ok.inj (parsed.symm.trans parsed')
    exact reading.1 reads
  · exact fun h => ⟨t, parsed, reading.2 h⟩

/-- The network of a table is read from it exactly when each value is that of a flow. -/
theorem parseAs_document_iff (options : ParseOptions) (rs : List Row) (m : Model) :
    parseAs .all options .sankey (document rs) = .ok m ↔
      (∀ r ∈ rs, isFlow r.value.value = true) ∧ m = ⟨.sankey, network rs⟩ := by
  rw [parseAs_eq_ok]
  constructor
  · rintro ⟨t, n, parsed, reads, checked⟩
    obtain ⟨flows, rfl⟩ := reads_document.1 ⟨t, parsed, reads⟩
    exact ⟨flows, eq_of_checkedModel checked⟩
  · rintro ⟨flows, rfl⟩
    obtain ⟨t, parsed, reads⟩ := reads_document.2 ⟨flows, rfl⟩
    refine ⟨t, network rs, parsed, reads, checkedModel_of_declared fun issue h => ?_⟩
    rw [Bool.eq_false_iff]
    intro dangling
    obtain ⟨id, rfl⟩ := exists_dangling h dangling
    exact link_not_mem_issues reads id h

/-- The table of one flow with a value beyond the range of floats. -/
def vastTable : List Row :=
  [{ source := "A", target := "B", value := { whole := 1 :: List.replicate 400 0, some_digit := nofun }
     source_inLine := by simp, target_inLine := by simp }]

/-- The table of a value beyond the range of floats is not read. -/
theorem vastTable_rejected : ¬ ∃ m, parseAs .all { nesting := 20 } .sankey (document vastTable) = .ok m := by
  rintro ⟨m, h⟩
  obtain ⟨t, n, parsed, reads, -⟩ := parseAs_eq_ok.1 h
  have flow := (reads_document.1 ⟨t, parsed, reads⟩).1 _ (List.mem_singleton.2 rfl)
  rw [Numeral.Decimal.value, Numeral.Decimal.nearestFloat_number] at flow
  revert flow
  decide +kernel

end DiagramText.Sankey
