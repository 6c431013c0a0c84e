import DiagramText.Proofs.Peg.Captures
import DiagramText.Proofs.Peg.Takes

/-!
# What is decided by the end of a line

How a rule matches may depend on text far behind what it takes. A rule is line-wise (`Rule.isLineWise`) if
it is known by the end of the line: whatever follows a text with a line feed, the rule takes the same part of
that text or misses it (`decided_of_isLineWise`). A repetition of lines is not line-wise, and neither is a run
of characters over line ends. But as a rule that keeps to its text (`Rule.Keeps`) it matches the same whatever
follows, if only it ends before a line feed of the text.
-/

namespace DiagramText.Peg

variable {table : List (String × Rule)} {depth : Nat} {r : Rule} {rules : List Rule} {text : List Char}

/-- Whether the rule does the same with a text whatever follows that. -/
def Rule.Decided (table : List (String × Rule)) (depth : Nat) (r : Rule) (text : List Char) : Prop :=
  (∃ taken rest leaves, text = taken ++ rest ∧ ∀ later, r.Takes table depth taken (rest ++ later) leaves) ∨
    ∀ later, r.Misses table depth (text ++ later)

namespace Rule

mutual

/-- Whether the rule is decided on every text with a line feed. -/
def isLineWise : Rule → Bool
  | literal text _ => !text.toList.dropLast.contains '\n'
  | chars _ => true
  | sequence rules => isLineWiseInTurn rules
  | choice rules => allLineWise rules
  | repeated r _ _ => r.staysInLine && r.isLineWise
  | optional r | notAhead r | capture _ r | labelled _ r | quiet r => r.isLineWise
  | ref _ => false

/-- Whether the rules are line-wise one after the other: only the last may take a line feed. -/
def isLineWiseInTurn : List Rule → Bool
  | [] => true
  | r :: rules => r.isLineWise && (rules.isEmpty || r.staysInLine && isLineWiseInTurn rules)

/-- Whether all of the rules are line-wise. -/
def allLineWise : List Rule → Bool
  | [] => true
  | r :: rules => r.isLineWise && allLineWise rules

end

end Rule

/-! ## Line-wise rules are decided -/

/-- What a rule avoids does not stand in what it takes. -/
theorem Rule.Takes.not_mem {taken rest : List Char} {leaves : Nat → Fragment} {c : Char}
    (h : r.Takes table depth taken rest leaves) (hc : c.isLower = false) (hlower : c.toLower = c)
    (hr : r.avoids c = true) : c ∉ taken := by
  obtain ⟨found, hs, hfound⟩ := without_of_avoids hc hlower hr ⟨0, taken ++ rest⟩ _ _ (h 0)
  rwa [List.append_cancel_right hs.rest]

/-- What a rule takes that stays in its line holds no line feed. -/
theorem Rule.Takes.feed_not_mem {taken rest : List Char} {leaves : Nat → Fragment}
    (h : r.Takes table depth taken rest leaves) (hr : r.staysInLine = true) : '\n' ∉ taken :=
  h.not_mem rfl rfl (r.staysInLine_eq ▸ hr)

theorem takes_spelled {word : String} {anyCase : Bool} {found : List Char} (hf : Spells word anyCase found)
    (rest : List Char) : (Rule.literal word anyCase).Takes table depth found rest fun _ => .empty := by
  intro offset
  have found : Cursor.skip? ⟨offset, found ++ rest⟩ word anyCase = some ⟨offset + Chars.byteSize found, rest⟩ :=
    Cursor.skip?_eq_some.2 ⟨found, hf, rfl, rfl⟩
  rw [outcome_literal, found, Option.map_some]

theorem decided_literal {word : String} {anyCase : Bool} (hword : '\n' ∉ word.toList.dropLast)
    (h : '\n' ∈ text) : (Rule.literal word anyCase).Decided table depth text := by
  by_cases hmatch : ∃ later found rest, Spells word anyCase found ∧ text ++ later = found ++ rest
  · obtain ⟨later, found, rest, hf, e⟩ := hmatch
    obtain ⟨more, rfl, -⟩ | ⟨more, rfl, -⟩ := List.append_eq_append_iff.1 e
    · -- the end of the line would stand inside the word
      cases more with
      | nil =>
        rw [List.append_nil] at hf
        exact .inl ⟨text, [], _, (List.append_nil _).symm, fun later => takes_spelled hf _⟩
      | cons c more =>
        refine absurd ?_ hword
        have inside : '\n' ∈ (text ++ c :: more).dropLast := by
          rw [List.dropLast_append_of_ne_nil (by simp)]
          exact List.mem_append_left _ h
        have lower : '\n' ∈ (word.toList.map Char.toLower).dropLast := by
          rw [← hf.map_toLower, ← List.map_dropLast]
          exact List.mem_map.2 ⟨'\n', inside, rfl⟩
        rw [← List.map_dropLast] at lower
        obtain ⟨d, hd, e⟩ := List.mem_map.1 lower
        exact Chars.eq_of_toLower rfl e ▸ hd
    · exact .inl ⟨found, more, _, rfl, fun later => takes_spelled hf _⟩
  · refine .inr fun later offset => ?_
    rw [outcome_literal, Option.map_eq_none_iff, Cursor.skip?_eq_none]
    exact fun found rest hf e => hmatch ⟨later, found, rest, hf, e⟩

theorem decided_chars {set : CharClass} (h : '\n' ∈ text) : (Rule.chars set).Decided table depth text := by
  obtain ⟨c, cs, rfl⟩ := List.exists_cons_of_ne_nil (List.ne_nil_of_mem h)
  by_cases hc : set.contains c = true
  · exact .inl ⟨[c], cs, _, rfl, fun later => takes_char hc _⟩
  · refine .inr fun later => misses_char ?_
    rintro d ⟨⟩
    simpa using hc

theorem decided_sequence (hrules : Rule.isLineWiseInTurn rules = true)
    (ih : ∀ r ∈ rules, r.isLineWise = true → ∀ text, '\n' ∈ text → r.Decided table depth text)
    (h : '\n' ∈ text) :
    (∃ taken rest, ∃ fields : Nat → List (String × Node), text = taken ++ rest ∧ ∀ later,
      (Rule.sequence rules).Takes table depth taken (rest ++ later) fun offset => .fields (fields offset)) ∨
        ∀ later, (Rule.sequence rules).Misses table depth (text ++ later) := by
  induction rules generalizing text with
  | nil => exact .inl ⟨[], text, _, rfl, fun later => takes_sequence_nil _⟩
  | cons r rules rest_ih =>
    rw [Rule.isLineWiseInTurn, Bool.and_eq_true, Bool.or_eq_true, Bool.and_eq_true] at hrules
    obtain ⟨hr, hrules⟩ := hrules
    obtain ⟨taken, rest, leaves, rfl, takes⟩ | misses := ih r List.mem_cons_self hr text h
    · obtain hnil | ⟨hstays, hrules⟩ := hrules
      · obtain rfl := List.isEmpty_iff.1 hnil
        exact .inl ⟨taken, rest, _, rfl, fun later => (takes later).last⟩
      · have later_ih := fun r' h' => ih r' (List.mem_cons_of_mem _ h')
        have hrest : '\n' ∈ rest := (List.mem_append.1 h).resolve_left ((takes []).feed_not_mem hstays)
        obtain ⟨more, rest, fields, rfl, moreTakes⟩ | moreMisses := rest_ih hrules later_ih hrest
        · simp only [List.append_assoc] at takes
          exact .inl ⟨taken ++ more, rest, _, (List.append_assoc ..).symm,
            fun later => (takes later).cons (moreTakes later)⟩
        · refine .inr fun later => ?_
          rw [List.append_assoc]
          exact (takes later).misses (moreMisses later)
    · exact .inr fun later => (misses later).sequence

theorem decided_choice (hrules : Rule.allLineWise rules = true)
    (ih : ∀ r ∈ rules, r.isLineWise = true → ∀ text, '\n' ∈ text → r.Decided table depth text)
    (h : '\n' ∈ text) : (Rule.choice rules).Decided table depth text := by
  induction rules with
  | nil => exact .inr fun later => misses_choice_nil
  | cons r rules rest_ih =>
    rw [Rule.allLineWise, Bool.and_eq_true] at hrules
    obtain ⟨taken, rest, leaves, rfl, takes⟩ | misses := ih r List.mem_cons_self hrules.1 text h
    · exact .inl ⟨taken, rest, leaves, rfl, fun later => (takes later).choice⟩
    · have later_ih := fun r' h' => ih r' (List.mem_cons_of_mem _ h')
      obtain ⟨taken, rest, leaves, rfl, takes⟩ | missesAll := rest_ih hrules.2 later_ih
      · refine .inl ⟨taken, rest, leaves, rfl, fun later => ?_⟩
        have := misses later
        rw [List.append_assoc] at this
        exact this.choice (takes later)
      · exact .inr fun later => (misses later).or (missesAll later)

section

variable {taken rest more : List Char} {leaves trees : Nat → Fragment} {least : Nat} {most : Option Nat}

theorem Rule.Takes.repeated (h : r.Takes table depth taken (more ++ rest) leaves) (hne : taken ≠ [])
    (hmost : most ≠ some 0)
    (hs : (Rule.repeated r (least - 1) (most.map (· - 1))).Takes table depth more rest trees) :
    (Rule.repeated r least most).Takes table depth (taken ++ more) rest fun offset =>
      (trees (offset + Chars.byteSize taken)).behind ((leaves offset).round ⟨String.ofList taken, offset⟩) := by
  intro offset
  have moved : (⟨offset + Chars.byteSize taken, more ++ rest⟩ : Cursor) ≠ ⟨offset, taken ++ (more ++ rest)⟩ :=
    fun same => hne (List.append_left_eq_self.1 (congrArg Cursor.rest same).symm)
  rw [List.append_assoc, outcome_repeated, if_neg hmost, h offset]
  simp only [if_neg moved, hs (offset + Chars.byteSize taken), Option.map_some, spanTo_taken, Chars.byteSize_append,
    Nat.add_assoc]

theorem Rule.Takes.many1 (h : r.Takes table depth taken (more ++ rest) leaves) (hne : taken ≠ [])
    (hs : (Peg.many r).Takes table depth more rest trees) :
    (Peg.many1 r).Takes table depth (taken ++ more) rest fun offset =>
      (trees (offset + Chars.byteSize taken)).behind ((leaves offset).round ⟨String.ofList taken, offset⟩) :=
  @Rule.Takes.repeated table depth r taken rest more leaves trees 1 none h hne nofun hs

theorem takes_many1_lit {s : String} {c : Char} (hs : s.toList = [c]) (hrest : ∀ d ∈ rest.head?, d ≠ c) {n : Nat}
    (hn : 1 ≤ n) : (Peg.many1 (lit s)).Takes table depth (List.replicate n c) rest fun _ => .items [] := by
  obtain ⟨n, rfl⟩ := Nat.exists_eq_add_of_le' hn
  have one : (lit s).Takes table depth [c] (List.replicate n c ++ rest) fun _ => .empty := takes_lit_of hs
  exact one.many1 (List.cons_ne_nil c []) (takes_many_lit hs hrest n)

theorem Rule.Takes.repeated_misses (h : r.Takes table depth taken rest leaves) (hne : taken ≠ [])
    (hmost : most ≠ some 0)
    (hs : (Rule.repeated r (least - 1) (most.map (· - 1))).Misses table depth rest) :
    (Rule.repeated r least most).Misses table depth (taken ++ rest) := by
  intro offset
  have moved : (⟨offset + Chars.byteSize taken, rest⟩ : Cursor) ≠ ⟨offset, taken ++ rest⟩ :=
    fun same => hne (List.append_left_eq_self.1 (congrArg Cursor.rest same).symm)
  rw [outcome_repeated, if_neg hmost, h offset]
  simp only [if_neg moved, hs (offset + Chars.byteSize taken), Option.map_none]

/-- A round that takes nothing is the last one. -/
theorem outcome_repeated_of_takes_nil (h : r.Takes table depth [] rest leaves) (hmost : most ≠ some 0)
    (offset : Nat) : (Rule.repeated r least most).outcome table depth ⟨offset, rest⟩ =
      if least ≤ 1 then some (⟨offset, rest⟩, .items ((leaves offset).round ⟨"", offset⟩)) else none := by
  have found := h offset
  have span : (⟨offset, rest⟩ : Cursor).spanTo ⟨offset, rest⟩ = ⟨"", offset⟩ := (Cursor.Spans.refl _).spanTo
  rw [List.nil_append, Chars.byteSize_nil, Nat.add_zero] at found
  rw [outcome_repeated, if_neg hmost, found]
  simp only [↓reduceIte, span]

theorem Rule.Takes.repeated_last (h : r.Takes table depth [] rest leaves) (hmost : most ≠ some 0)
    (hleast : least ≤ 1) : (Rule.repeated r least most).Takes table depth [] rest fun offset =>
      .items ((leaves offset).round ⟨"", offset⟩) := by
  intro offset
  rw [List.nil_append, outcome_repeated_of_takes_nil h hmost, if_pos hleast, Chars.byteSize_nil, Nat.add_zero]

theorem outcome_repeated_of_misses (h : r.Misses table depth text) (hmost : most ≠ some 0) (offset : Nat) :
    (Rule.repeated r least most).outcome table depth ⟨offset, text⟩ =
      if least = 0 then some (⟨offset, text⟩, .items []) else none := by
  rw [outcome_repeated, if_neg hmost, h offset]

/-- A condition that does not depend on what follows decides. -/
theorem decided_of_ite {p : Prop} [Decidable p] {trees : Nat → Fragment}
    (h : ∀ later offset, r.outcome table depth ⟨offset, text ++ later⟩ =
      if p then some (⟨offset, text ++ later⟩, trees offset) else none) : r.Decided table depth text := by
  by_cases hp : p
  · refine .inl ⟨[], text, trees, rfl, fun later offset => ?_⟩
    rw [List.nil_append, h, if_pos hp, Chars.byteSize_nil, Nat.add_zero]
  · exact .inr fun later offset => by rw [h, if_neg hp]

theorem decided_repeated (hstays : r.staysInLine = true)
    (ih : ∀ text, '\n' ∈ text → r.Decided table depth text) (least : Nat) (most : Option Nat)
    (h : '\n' ∈ text) : (Rule.repeated r least most).Decided table depth text := by
  induction hn : text.length using Nat.strongRecOn generalizing text least most with
  | ind n rounds =>
    by_cases hmost : most = some 0
    · subst hmost
      exact decided_of_ite fun later offset => by rw [outcome_repeated, if_pos rfl]
    · obtain ⟨taken, rest, leaves, rfl, takes⟩ | misses := ih text h
      · by_cases hne : taken = []
        · subst hne
          exact decided_of_ite fun later offset => outcome_repeated_of_takes_nil (takes later) hmost offset
        · have hrest : '\n' ∈ rest := (List.mem_append.1 h).resolve_left ((takes []).feed_not_mem hstays)
          have shorter : rest.length < n := by
            rw [← hn, List.length_append]
            have := List.length_pos_iff.2 hne
            omega
          obtain ⟨more, rest, trees, rfl, moreTakes⟩ | moreMisses :=
            rounds rest.length shorter (least - 1) (most.map (· - 1)) hrest rfl
          · simp only [List.append_assoc] at takes
            exact .inl ⟨taken ++ more, rest, _, (List.append_assoc ..).symm,
              fun later => (takes later).repeated hne hmost (moreTakes later)⟩
          · refine .inr fun later => ?_
            rw [List.append_assoc]
            exact (takes later).repeated_misses hne hmost (moreMisses later)
      · exact decided_of_ite fun later offset => outcome_repeated_of_misses (misses later) hmost offset

end

/-- On a text with a line feed a line-wise rule does the same whatever follows. -/
theorem decided_of_isLineWise (hr : r.isLineWise = true) (h : '\n' ∈ text) : r.Decided table depth text := by
  induction r using Rule.ind generalizing text with
  | literal word anyCase => exact decided_literal (by simpa [Rule.isLineWise] using hr) h
  | chars set => exact decided_chars h
  | sequence rules ih =>
    obtain ⟨taken, rest, fields, e, takes⟩ | misses := decided_sequence hr (fun r hmem hr text => ih r hmem hr) h
    · exact .inl ⟨taken, rest, _, e, takes⟩
    · exact .inr misses
  | choice rules ih => exact decided_choice hr (fun r hmem hr text => ih r hmem hr) h
  | repeated r least most ih =>
    rw [Rule.isLineWise, Bool.and_eq_true] at hr
    exact decided_repeated hr.1 (fun text => ih hr.2) least most h
  | optional r ih =>
    obtain ⟨taken, rest, leaves, e, takes⟩ | misses := ih hr h
    · exact .inl ⟨taken, rest, _, e, fun later => (takes later).optional⟩
    · exact .inl ⟨[], text, _, rfl, fun later => (misses later).optional⟩
  | notAhead r ih =>
    obtain ⟨taken, rest, leaves, rfl, takes⟩ | misses := ih hr h
    · refine .inr fun later => ?_
      rw [List.append_assoc]
      exact (takes later).misses_notAhead
    · exact .inl ⟨[], text, _, rfl, fun later => (misses later).notAhead⟩
  | capture field r ih =>
    obtain ⟨taken, rest, leaves, e, takes⟩ | misses := ih hr h
    · exact .inl ⟨taken, rest, _, e, fun later => (takes later).capture field⟩
    · exact .inr fun later => (misses later).capture field
  | labelled label r ih =>
    obtain ⟨taken, rest, leaves, e, takes⟩ | misses := ih hr h
    · exact .inl ⟨taken, rest, _, e, fun later => (takes later).labelled label⟩
    · exact .inr fun later => (misses later).labelled label
  | quiet r ih =>
    obtain ⟨taken, rest, leaves, e, takes⟩ | misses := ih hr h
    · exact .inl ⟨taken, rest, _, e, fun later => (takes later).quiet⟩
    · exact .inr fun later => (misses later).quiet
  | ref name => cases hr

/-! ## Rules that keep to their text -/

/-- Where the rule ends before a line feed of the text, it matches the same whatever follows the text. -/
def Rule.Keeps (table : List (String × Rule)) (depth : Nat) (r : Rule) : Prop :=
  ∀ ⦃taken rest later offset stop a⦄, '\n' ∈ rest →
    r.outcome table depth ⟨offset, taken ++ (rest ++ later)⟩ = some (⟨stop, rest ++ later⟩, a) →
    ∃ leaves : Nat → Fragment, leaves offset = a ∧ ∀ later, r.Takes table depth taken (rest ++ later) leaves

section

variable {taken rest later : List Char} {offset stop : Nat} {a : Fragment} {leaves : Nat → Fragment}

/-- What is taken in front of one text is what was taken in front of it. -/
theorem Rule.Takes.unique {taken' rest' : List Char} (h : r.Takes table depth taken' (rest' ++ later) leaves)
    (e : taken ++ rest = taken' ++ rest')
    (hm : r.outcome table depth ⟨offset, taken ++ (rest ++ later)⟩ = some (⟨stop, rest ++ later⟩, a)) :
    taken' = taken ∧ rest' = rest ∧ leaves offset = a := by
  have found := h offset
  rw [← List.append_assoc, ← e, List.append_assoc, hm] at found
  obtain ⟨hcur, rfl⟩ := Prod.mk.inj (Option.some.inj found)
  obtain rfl := List.append_cancel_right (congrArg Cursor.rest hcur)
  exact ⟨(List.append_cancel_right e).symm, rfl, rfl⟩

theorem keeps_of_isLineWise (hr : r.isLineWise = true) : r.Keeps table depth := by
  intro taken rest later offset stop a hrest hm
  obtain ⟨taken', rest', leaves, e, takes⟩ | misses :=
    decided_of_isLineWise hr (List.mem_append_right taken hrest)
  · obtain ⟨rfl, rfl, found⟩ := (takes later).unique e hm
    exact ⟨leaves, found, takes⟩
  · have := misses later offset
    rw [List.append_assoc, hm] at this
    cases this

theorem Rule.Takes.append {more : List Char} {leaves' : Nat → Fragment}
    (h : r.Takes table depth taken (more ++ rest) leaves)
    (hs : (Rule.sequence rules).Takes table depth more rest leaves') :
    (Rule.sequence (r :: rules)).Takes table depth (taken ++ more) rest fun offset =>
      (leaves offset).append (leaves' (offset + Chars.byteSize taken)) := by
  intro offset
  rw [List.append_assoc, outcome_sequence_cons, h offset, Option.bind_some]
  dsimp only
  rw [hs, Option.map_some, Chars.byteSize_append, Nat.add_assoc]

/-- The first rule of a sequence, which leaves the text in front of what the others take. -/
theorem exists_of_sequence_cons
    (hm : (Rule.sequence (r :: rules)).outcome table depth ⟨offset, taken ++ rest⟩ = some (⟨stop, rest⟩, a)) :
    ∃ first more b c, taken = first ++ more ∧ a = b.append c ∧
      r.outcome table depth ⟨offset, first ++ (more ++ rest)⟩ =
        some (⟨offset + Chars.byteSize first, more ++ rest⟩, b) ∧
      (Rule.sequence rules).outcome table depth ⟨offset + Chars.byteSize first, more ++ rest⟩ =
        some (⟨stop, rest⟩, c) := by
  obtain ⟨⟨middle, between⟩, b, c, hb, hc, rfl⟩ := sequence_cons_eq_some.1 hm
  obtain ⟨first, hs⟩ := outcome_reaches hb
  obtain ⟨more, hs'⟩ := outcome_reaches hc
  obtain rfl : between = more ++ rest := hs'.rest
  obtain rfl : middle = offset + Chars.byteSize first := hs.offset
  obtain rfl : taken = first ++ more := List.append_cancel_right (hs.rest.trans (List.append_assoc ..).symm)
  rw [List.append_assoc] at hb
  exact ⟨first, more, b, c, rfl, rfl, hb, hc⟩

theorem keeps_sequence (h : ∀ r ∈ rules, r.Keeps table depth) : (Rule.sequence rules).Keeps table depth := by
  induction rules with
  | nil => exact keeps_of_isLineWise rfl
  | cons r rules ih =>
    intro taken rest later offset stop a hrest hm
    obtain ⟨first, more, b, c, rfl, rfl, hb, hc⟩ := exists_of_sequence_cons hm
    rw [← List.append_assoc more] at hb
    obtain ⟨leaves, rfl, takes⟩ := h r List.mem_cons_self (List.mem_append_right more hrest) hb
    obtain ⟨leaves', rfl, takes'⟩ := ih (fun r hr => h r (List.mem_cons_of_mem _ hr)) hrest hc
    simp only [List.append_assoc] at takes
    exact ⟨_, rfl, fun later => (takes later).append (takes' later)⟩

theorem keeps_capture (h : r.Keeps table depth) (field : String) : (Rule.capture field r).Keeps table depth := by
  intro taken rest later offset stop a hrest hm
  rw [outcome_capture] at hm
  obtain ⟨⟨next, b⟩, hr, e⟩ := Option.map_eq_some_iff.1 hm
  obtain ⟨rfl, rfl⟩ := Prod.mk.inj e
  obtain ⟨leaves, rfl, takes⟩ := h hrest hr
  refine ⟨_, ?_, fun later => (takes later).capture field⟩
  have reached := takes later offset
  rw [hr] at reached
  obtain ⟨hstop, -⟩ := Prod.mk.inj (Option.some.inj reached)
  rw [hstop, spanTo_taken]

theorem keeps_labelled (h : r.Keeps table depth) (label : String) :
    (Rule.labelled label r).Keeps table depth := by
  intro taken rest later offset stop a hrest hm
  rw [outcome_labelled] at hm
  obtain ⟨leaves, found, takes⟩ := h hrest hm
  exact ⟨leaves, found, fun later => (takes later).labelled label⟩

theorem keeps_quiet (h : r.Keeps table depth) : (Rule.quiet r).Keeps table depth := by
  intro taken rest later offset stop a hrest hm
  rw [outcome_quiet] at hm
  obtain ⟨leaves, found, takes⟩ := h hrest hm
  exact ⟨leaves, found, fun later => (takes later).quiet⟩

theorem keeps_ref {name : String} (hr : table.lookup name = some r) (h : r.Keeps table depth) :
    (Rule.ref name).Keeps table (depth + 1) := by
  intro taken rest later offset stop a hrest hm
  rw [outcome_ref, hr, Option.bind_some] at hm
  obtain ⟨leaves, found, takes⟩ := h hrest hm
  exact ⟨leaves, found, fun later => (takes later).ref hr⟩

theorem keeps_choice_nil : (Rule.choice []).Keeps table depth := keeps_of_isLineWise rfl

/-- A choice keeps to its text if its first rule does not match where a later one does. -/
theorem keeps_choice_of_apart (h : r.Keeps table depth) (hs : (Rule.choice rules).Keeps table depth)
    (apart : ∀ r' ∈ rules, ∀ cur found, r'.outcome table depth cur = some found →
      r.outcome table depth cur = none) : (Rule.choice (r :: rules)).Keeps table depth := by
  intro taken rest later offset stop a hrest hm
  rw [outcome_choice_cons, Option.or_eq_some_iff] at hm
  obtain hm | ⟨-, hm⟩ := hm
  · obtain ⟨leaves, found, takes⟩ := h hrest hm
    exact ⟨leaves, found, fun later => (takes later).choice⟩
  · obtain ⟨leaves, found, takes⟩ := hs hrest hm
    refine ⟨leaves, found, fun later => Rule.Misses.choice (fun offset => ?_) (takes later)⟩
    obtain ⟨r', hr', hm'⟩ := choice_eq_some (takes later offset)
    exact apart r' hr' _ _ hm'

/-- A choice keeps to its text if its first rule is line-wise. -/
theorem keeps_choice_of_isLineWise (h : r.isLineWise = true) (hs : (Rule.choice rules).Keeps table depth) :
    (Rule.choice (r :: rules)).Keeps table depth := by
  intro taken rest later offset stop a hrest hm
  rw [outcome_choice_cons, Option.or_eq_some_iff] at hm
  obtain hm | ⟨hnone, hm⟩ := hm
  · obtain ⟨leaves, found, takes⟩ := keeps_of_isLineWise h hrest hm
    exact ⟨leaves, found, fun later => (takes later).choice⟩
  · obtain ⟨leaves, found, takes⟩ := hs hrest hm
    obtain ⟨taken', rest', leaves', e, takes'⟩ | misses :=
      @decided_of_isLineWise table depth r _ h (List.mem_append_right taken hrest)
    · have := takes' later offset
      rw [← List.append_assoc, ← e, List.append_assoc, hnone] at this
      cases this
    · simp only [List.append_assoc] at misses
      exact ⟨leaves, found, fun later => (misses later).choice (takes later)⟩

/-- The rounds of a repetition: none, one that takes nothing, or a first one and those behind it. -/
theorem exists_of_many (hm : (many r).outcome table depth ⟨offset, taken ++ rest⟩ = some (⟨stop, rest⟩, a)) :
    taken = [] ∧ r.outcome table depth ⟨offset, rest⟩ = none ∧ a = .items [] ∨
    (∃ b, taken = [] ∧ r.outcome table depth ⟨offset, rest⟩ = some (⟨offset, rest⟩, b) ∧
      a = .items (b.round ⟨"", offset⟩)) ∨
    ∃ first more b c, first ≠ [] ∧ taken = first ++ more ∧ a = c.behind (b.round ⟨String.ofList first, offset⟩) ∧
      r.outcome table depth ⟨offset, first ++ (more ++ rest)⟩ =
        some (⟨offset + Chars.byteSize first, more ++ rest⟩, b) ∧
      (many r).outcome table depth ⟨offset + Chars.byteSize first, more ++ rest⟩ = some (⟨stop, rest⟩, c) := by
  rw [many, outcome_repeated, if_neg (by rintro ⟨⟩)] at hm
  cases hr : r.outcome table depth ⟨offset, taken ++ rest⟩ with
  | none =>
    rw [hr] at hm
    simp only [↓reduceIte, Option.some.injEq, Prod.mk.injEq, Cursor.mk.injEq] at hm
    obtain ⟨⟨-, e⟩, rfl⟩ := hm
    obtain rfl := List.append_left_eq_self.1 e
    exact .inl ⟨rfl, hr, rfl⟩
  | some found =>
    obtain ⟨⟨middle, between⟩, b⟩ := found
    obtain ⟨first, hs⟩ := outcome_reaches hr
    obtain rfl : middle = offset + Chars.byteSize first := hs.offset
    have e : taken ++ rest = first ++ between := hs.rest
    rw [hr] at hm
    dsimp only at hm
    split at hm
    · rename_i stays
      obtain rfl : first = [] := by
        have := congrArg Cursor.rest stays
        dsimp only at this
        rw [e] at this
        exact List.append_left_eq_self.1 this.symm
      simp only [Nat.zero_le, ↓reduceIte, Option.some.injEq, Prod.mk.injEq, Cursor.mk.injEq] at hm
      obtain ⟨⟨-, rfl⟩, rfl⟩ := hm
      obtain rfl := List.append_left_eq_self.1 e
      exact .inr (.inl ⟨b, rfl, hr, by rw [hs.spanTo]⟩)
    · rename_i moves
      obtain ⟨⟨next, c⟩, hrounds, same⟩ := Option.map_eq_some_iff.1 hm
      obtain ⟨rfl, rfl⟩ := Prod.mk.inj same
      obtain ⟨more, hs'⟩ := outcome_reaches hrounds
      obtain rfl : between = more ++ rest := hs'.rest
      obtain rfl : taken = first ++ more := List.append_cancel_right (e.trans (List.append_assoc ..).symm)
      rw [List.append_assoc] at hr
      refine .inr (.inr ⟨first, more, b, c, ?_, rfl, by rw [hs.spanTo], hr, hrounds⟩)
      rintro rfl
      exact moves (by simp)

/-- A repetition keeps to its text if its rounds are line-wise. -/
theorem keeps_many (h : r.isLineWise = true) : (many r).Keeps table depth := by
  intro taken rest later offset stop a hrest hm
  have hmost : (none : Option Nat) ≠ some 0 := nofun
  induction hn : taken.length using Nat.strongRecOn generalizing taken offset a with
  | ind n ih =>
    obtain ⟨rfl, hnone, rfl⟩ | ⟨b, rfl, hr, rfl⟩ | ⟨first, more, b, c, hne, rfl, rfl, hr, hrounds⟩ :=
      exists_of_many hm
    · obtain ⟨taken, rest, leaves, rfl, takes⟩ | misses := @decided_of_isLineWise table depth r _ h hrest
      · have := takes later offset
        rw [← List.append_assoc, hnone] at this
        cases this
      · exact ⟨_, rfl, fun later => (misses later).many⟩
    · obtain ⟨leaves, rfl, takes⟩ := @keeps_of_isLineWise table depth r h [] rest later _ _ _ hrest hr
      exact ⟨_, rfl, fun later => (takes later).repeated_last hmost (Nat.zero_le 1)⟩
    · rw [← List.append_assoc more] at hr
      obtain ⟨leaves, rfl, takes⟩ := keeps_of_isLineWise h (List.mem_append_right more hrest) hr
      have shorter : more.length < n := by
        rw [← hn, List.length_append]
        have := List.length_pos_iff.2 hne
        omega
      obtain ⟨trees, rfl, rounds⟩ := ih more.length shorter hrounds rfl
      simp only [List.append_assoc] at takes
      exact ⟨_, rfl, fun later => (takes later).repeated hne hmost (rounds later)⟩

end

end DiagramText.Peg
