import DiagramText.Proofs.Peg.Stretch

/-!
# Rules that report

A rule may fail without a word, as a keyword does that is the start of a longer word, and so a run need not
stretch to where it fails. A rule is loud if it does (`Reports.loud`), and it settles if it
stretches to its end where it matches (`Reports.settles`), as a repetition of loud rounds does: the
round that ends it fails there. Both are read off the rule, where the rules that it refers to are taken to
be loud and to move on, which `Outspoken` asks of a table.
-/

namespace DiagramText.Peg

namespace Rule

mutual

/-- Whether the rule moves on wherever it matches. -/
def consumes : Rule → Bool
  | literal text _ => text != ""
  | chars _ | ref _ => true
  | sequence rules => anyConsumes rules
  | choice rules => allConsume rules
  | repeated r least _ => least != 0 && r.consumes
  | optional _ | notAhead _ => false
  | capture _ r | labelled _ r | quiet r => r.consumes

/-- Whether one of the rules moves on wherever it matches. -/
def anyConsumes : List Rule → Bool
  | [] => false
  | r :: rules => r.consumes || anyConsumes rules

/-- Whether each of the rules moves on wherever it matches. -/
def allConsume : List Rule → Bool
  | [] => true
  | r :: rules => r.consumes && allConsume rules

end

/-- Whether the rule matches everywhere. -/
def isTotal : Rule → Bool
  | repeated _ least _ => least == 0
  | optional _ => true
  | capture _ r | labelled _ r | quiet r => r.isTotal
  | _ => false

mutual

/-- Whether the rule stretches at least to its start where it fails. -/
def isLoud (table : List (String × Rule)) : Rule → Bool
  | literal _ _ | chars _ | optional _ | labelled _ _ => true
  | sequence rules => allLoud table rules
  | choice rules => anyLoud table rules
  | repeated r least most => least == 0 || (least == 1 && most.isNone && r.isLoud table)
  | notAhead _ => false
  | capture _ r => r.isLoud table
  | quiet r => r.isTotal
  | ref name => (table.lookup name).isSome

/-- Whether the sequence of the rules stretches at least to its start where it fails. -/
def allLoud (table : List (String × Rule)) : List Rule → Bool
  | [] => true
  | r :: rules => r.isLoud table && (r.settles table || allLoud table rules)

/-- Whether the choice of the rules stretches at least to its start where it fails. -/
def anyLoud (table : List (String × Rule)) : List Rule → Bool
  | [] => false
  | r :: rules => r.isLoud table || anyLoud table rules

/-- Whether the rule stretches at least to its end where it matches. -/
def settles (table : List (String × Rule)) : Rule → Bool
  | repeated r _ most => most.isNone && r.consumes && r.isLoud table
  | capture _ r | labelled _ r => r.settles table
  | _ => false

end

end Rule

variable {table : List (String × Rule)} {depth : Nat} {r : Rule} {cur next : Cursor} {a : Fragment}

/-- The rules of a table move on where they match and are loud where they do not. -/
def Outspoken (table : List (String × Rule)) : Prop :=
  ∀ name r, table.lookup name = some r → r.consumes = true ∧ r.isLoud table = true

/-! ## Rules that move on -/

theorem sequence_lt {rules : List Rule} (h : Rule.anyConsumes rules = true)
    (hr : ∀ r ∈ rules, r.consumes = true → ∀ cur next a,
      r.outcome table depth cur = some (next, a) → cur.offset < next.offset)
    (hm : (Rule.sequence rules).outcome table depth cur = some (next, a)) : cur.offset < next.offset := by
  induction rules generalizing cur a with
  | nil => cases h
  | cons r rules ih =>
    obtain ⟨mid, b, c, hb, hc, -⟩ := sequence_cons_eq_some.1 hm
    rw [Rule.anyConsumes, Bool.or_eq_true] at h
    obtain h | h := h
    · exact Nat.lt_of_lt_of_le (hr r List.mem_cons_self h cur mid b hb) (outcome_reaches hc).offset_le
    · exact Nat.lt_of_le_of_lt (outcome_reaches hb).offset_le
        (ih h (fun r' h' => hr r' (List.mem_cons_of_mem _ h')) hc)

theorem consumes_of_mem {rules : List Rule} (h : Rule.allConsume rules = true) (hr : r ∈ rules) :
    r.consumes = true := by
  induction rules with
  | nil => cases hr
  | cons first rules ih =>
    rw [Rule.allConsume, Bool.and_eq_true] at h
    obtain rfl | hr := List.mem_cons.1 hr
    · exact h.1
    · exact ih h.2 hr

theorem lt_of_consumes_of_refs
    (hrefs : ∀ name cur next a, (Rule.ref name).outcome table depth cur = some (next, a) →
      cur.offset < next.offset)
    (h : r.consumes = true) (hm : r.outcome table depth cur = some (next, a)) :
    cur.offset < next.offset := by
  induction r using Rule.ind generalizing cur next a with
  | literal text anyCase =>
    rw [outcome_literal, Option.map_eq_some_iff] at hm
    obtain ⟨next', hskip, e⟩ := hm
    obtain ⟨rfl, -⟩ := Prod.mk.inj e
    obtain ⟨found, hfound, hspan⟩ := Cursor.skip?_eq_some.1 hskip
    rw [hspan.offset, hfound.byteSize]
    have hne : text ≠ "" := by simpa [Rule.consumes] using h
    have : text.utf8ByteSize ≠ 0 := fun e => hne (String.utf8ByteSize_eq_zero_iff.1 e)
    omega
  | chars set =>
    rw [outcome_chars, Option.map_eq_some_iff] at hm
    obtain ⟨next', hnext, e⟩ := hm
    obtain ⟨rfl, -⟩ := Prod.mk.inj e
    obtain ⟨c, -, hspan⟩ := Cursor.next?_eq_some.1 hnext
    rw [hspan.offset]
    exact Nat.lt_add_of_pos_right (Nat.lt_of_lt_of_le c.utf8Size_pos (Nat.le_add_right _ _))
  | sequence rules ih => exact sequence_lt h (fun r hr h cur next a => @ih r hr cur next a h) hm
  | choice rules ih =>
    obtain ⟨r, hr, hm⟩ := choice_eq_some hm
    exact ih r hr (consumes_of_mem h hr) hm
  | repeated r least most ih =>
    rw [Rule.consumes, Bool.and_eq_true, bne_iff_ne] at h
    rw [outcome_repeated] at hm
    simp only [h.1, ↓reduceIte] at hm
    split at hm
    · cases hm
    · split at hm
      · cases hm
      · rename_i mid b hs
        have hlt := ih h.2 hs
        have hne : mid ≠ cur := fun e => Nat.lt_irrefl _ (e ▸ hlt)
        simp only [hne, ↓reduceIte, Option.map_eq_some_iff] at hm
        obtain ⟨⟨last, rest⟩, hrest, e⟩ := hm
        obtain ⟨rfl, -⟩ := Prod.mk.inj e
        exact Nat.lt_of_lt_of_le hlt (outcome_reaches hrest).offset_le
  | optional r ih => cases h
  | notAhead r ih => cases h
  | capture field r ih =>
    rw [outcome_capture, Option.map_eq_some_iff] at hm
    obtain ⟨⟨next', b⟩, hs, e⟩ := hm
    obtain ⟨rfl, -⟩ := Prod.mk.inj e
    exact ih h hs
  | labelled label r ih => exact ih h (outcome_labelled label r cur ▸ hm)
  | quiet r ih => exact ih h (outcome_quiet r cur ▸ hm)
  | ref name => exact hrefs name cur next a hm

/-- A rule that consumes moves on. -/
theorem lt_of_consumes (htable : ∀ name r, table.lookup name = some r → r.consumes = true)
    (h : r.consumes = true) (hm : r.outcome table depth cur = some (next, a)) : cur.offset < next.offset := by
  induction depth generalizing r cur next a with
  | zero =>
    refine lt_of_consumes_of_refs (fun name cur next a hm => ?_) h hm
    rw [outcome_ref_zero] at hm
    cases hm
  | succ depth below =>
    refine lt_of_consumes_of_refs (fun name cur next a hm => ?_) h hm
    rw [outcome_ref, Option.bind_eq_some_iff] at hm
    obtain ⟨r, hl, hm⟩ := hm
    exact below (htable name r hl) hm

/-! ## Rules that match everywhere -/

theorem repeated_zero_ne_none (r : Rule) (most : Option Nat) (cur : Cursor) :
    (Rule.repeated r 0 most).outcome table depth cur ≠ none := by
  induction hn : cur.rest.length using Nat.strongRecOn generalizing cur most with
  | ind n ih =>
    rw [outcome_repeated]
    by_cases hmost : most = some 0
    · simp [hmost]
    · simp only [hmost, ↓reduceIte]
      cases hs : r.outcome table depth cur with
      | none => simp
      | some found =>
        obtain ⟨next, a⟩ := found
        by_cases hne : next = cur
        · simp [hne]
        · simpa [hne] using
            ih next.rest.length (hn ▸ (outcome_reaches hs).length_lt hne) (most.map (· - 1)) next rfl

theorem ne_none_of_isTotal (h : r.isTotal = true) (cur : Cursor) : r.outcome table depth cur ≠ none := by
  induction r using Rule.ind with
  | repeated r least most ih =>
    obtain rfl : least = 0 := by simpa [Rule.isTotal] using h
    exact repeated_zero_ne_none r most cur
  | optional r ih => simp [outcome_optional]
  | capture field r ih => simpa [outcome_capture] using ih h
  | labelled label r ih => simpa [outcome_labelled] using ih h
  | quiet r ih => simpa [outcome_quiet] using ih h
  | literal | chars | sequence | choice | notAhead | ref => cases h

/-! ## Rules that are loud -/

/-- What `Rule.isLoud` and `Rule.settles` say of runs. -/
structure Reports (table : List (String × Rule)) (depth : Nat) (r : Rule) : Prop where
  loud : r.isLoud table = true → ∀ cur, r.outcome table depth cur = none →
    cur.offset ≤ r.stretch table depth cur
  settles : r.settles table = true → ∀ cur next a, r.outcome table depth cur = some (next, a) →
    next.offset ≤ r.stretch table depth cur

namespace Reports

theorem sequence_loud {rules : List Rule} (h : ∀ r ∈ rules, Reports table depth r)
    (hloud : Rule.allLoud table rules = true) (hm : (Rule.sequence rules).outcome table depth cur = none) :
    cur.offset ≤ (Rule.sequence rules).stretch table depth cur := by
  induction rules generalizing cur with
  | nil =>
    rw [outcome_sequence_nil] at hm
    cases hm
  | cons r rules ih =>
    rw [Rule.allLoud, Bool.and_eq_true, Bool.or_eq_true] at hloud
    have hr := h r List.mem_cons_self
    rw [stretch_sequence_cons]
    cases hs : r.outcome table depth cur with
    | none => exact Nat.le_trans (hr.loud hloud.1 cur hs) (Nat.le_max_left ..)
    | some found =>
      obtain ⟨mid, a⟩ := found
      refine Nat.le_trans (outcome_reaches hs).offset_le ?_
      obtain hsettles | hrest := hloud.2
      · exact Nat.le_trans (hr.settles hsettles cur mid a hs) (Nat.le_max_left ..)
      · rw [outcome_sequence_cons, hs, Option.bind_some, Option.map_eq_none_iff] at hm
        exact Nat.le_trans (ih (fun r' h' => h r' (List.mem_cons_of_mem _ h')) hrest hm)
          (Nat.le_max_right ..)

theorem choice_loud {rules : List Rule} (h : ∀ r ∈ rules, Reports table depth r)
    (hloud : Rule.anyLoud table rules = true) (hm : (Rule.choice rules).outcome table depth cur = none) :
    cur.offset ≤ (Rule.choice rules).stretch table depth cur := by
  induction rules with
  | nil => cases hloud
  | cons r rules ih =>
    rw [outcome_choice_cons, Option.or_eq_none_iff] at hm
    rw [stretch_choice_cons, hm.1]
    rw [Rule.anyLoud, Bool.or_eq_true] at hloud
    obtain hloud | hloud := hloud
    · exact Nat.le_trans ((h r List.mem_cons_self).loud hloud cur hm.1) (Nat.le_max_left ..)
    · exact Nat.le_trans (ih (fun r' h' => h r' (List.mem_cons_of_mem _ h')) hloud hm.2)
        (Nat.le_max_right ..)

theorem repeated_loud (h : Reports table depth r) {least : Nat} {most : Option Nat}
    (hloud : (Rule.repeated r least most).isLoud table = true)
    (hm : (Rule.repeated r least most).outcome table depth cur = none) :
    cur.offset ≤ (Rule.repeated r least most).stretch table depth cur := by
  simp only [Rule.isLoud, Bool.or_eq_true, Bool.and_eq_true, beq_iff_eq, Option.isNone_iff_eq_none] at hloud
  obtain rfl | ⟨⟨rfl, rfl⟩, hloud⟩ := hloud
  · exact absurd hm (repeated_zero_ne_none r most cur)
  · rw [stretch_repeated, stretchRounds, if_neg (by simp)]
    rw [outcome_repeated, if_neg (by simp)] at hm
    cases hs : r.outcome table depth cur with
    | none => exact Nat.le_trans (h.loud hloud cur hs) (Nat.le_max_left ..)
    | some found =>
      obtain ⟨mid, a⟩ := found
      rw [hs] at hm
      by_cases hne : mid = cur
      · simp [hne] at hm
      · simp [hne, repeated_zero_ne_none] at hm

/-- The round that ends a repetition fails where it ends. -/
theorem repeated_settles (htable : Outspoken table) (h : Reports table depth r) {least : Nat}
    {most : Option Nat} (hsettles : (Rule.repeated r least most).settles table = true)
    (hm : (Rule.repeated r least most).outcome table depth cur = some (next, a)) :
    next.offset ≤ (Rule.repeated r least most).stretch table depth cur := by
  simp only [Rule.settles, Bool.and_eq_true, Option.isNone_iff_eq_none] at hsettles
  obtain ⟨⟨rfl, hconsumes⟩, hloud⟩ := hsettles
  induction hn : cur.rest.length using Nat.strongRecOn generalizing cur least a with
  | ind n ih =>
    rw [stretch_repeated, stretchRounds, if_neg (by simp)]
    rw [outcome_repeated, if_neg (by simp)] at hm
    cases hs : r.outcome table depth cur with
    | none =>
      obtain ⟨-, rfl, -⟩ : _ ∧ cur = next ∧ _ = a := by simpa [hs] using hm
      exact Nat.le_trans (h.loud hloud cur hs) (Nat.le_max_left ..)
    | some found =>
      obtain ⟨mid, b⟩ := found
      have hne : mid ≠ cur := fun e => Nat.lt_irrefl _ (e ▸ lt_of_consumes (fun name r hl => (htable name r hl).1) hconsumes hs)
      simp only [hs, hne, ↓reduceIte, Option.map_eq_some_iff] at hm
      obtain ⟨⟨last, rest⟩, hrest, e⟩ := hm
      obtain ⟨rfl, -⟩ := Prod.mk.inj e
      have hlt := (outcome_reaches hs).length_lt hne
      refine Nat.le_trans (ih mid.rest.length (hn ▸ hlt) hrest rfl) ?_
      simp only [Option.elim_some, hne, ↓reduceIte]
      exact Nat.le_max_right ..

theorem of_refs (htable : Outspoken table) (hrefs : ∀ name, Reports table depth (.ref name)) (r : Rule) :
    Reports table depth r := by
  induction r using Rule.ind with
  | literal text anyCase =>
    refine ⟨fun _ cur hm => ?_, nofun⟩
    rw [outcome_literal, Option.map_eq_none_iff] at hm
    rw [stretch_literal, hm]
    exact Nat.le_refl _
  | chars set =>
    refine ⟨fun _ cur hm => ?_, nofun⟩
    rw [outcome_chars, Option.map_eq_none_iff] at hm
    rw [stretch_chars, hm]
    exact Nat.le_refl _
  | sequence rules ih => exact ⟨fun hloud _ hm => sequence_loud ih hloud hm, nofun⟩
  | choice rules ih => exact ⟨fun hloud _ hm => choice_loud ih hloud hm, nofun⟩
  | repeated r least most ih =>
    exact ⟨fun hloud _ hm => ih.repeated_loud hloud hm,
      fun hsettles _ _ _ hm => ih.repeated_settles htable hsettles hm⟩
  | optional r ih => exact ⟨fun _ cur hm => absurd hm (by simp [outcome_optional]), nofun⟩
  | notAhead r ih => exact ⟨nofun, nofun⟩
  | capture field r ih =>
    refine ⟨fun hloud cur hm => ?_, fun hsettles cur next a hm => ?_⟩
    · rw [outcome_capture, Option.map_eq_none_iff] at hm
      rw [stretch_capture]
      exact ih.loud hloud cur hm
    · rw [outcome_capture, Option.map_eq_some_iff] at hm
      obtain ⟨⟨next', b⟩, hs, e⟩ := hm
      obtain ⟨rfl, -⟩ := Prod.mk.inj e
      rw [stretch_capture]
      exact ih.settles hsettles cur next' b hs
  | labelled label r ih =>
    refine ⟨fun _ cur hm => ?_, fun hsettles cur next a hm => ?_⟩
    · rw [outcome_labelled] at hm
      rw [stretch_labelled, hm]
      exact Nat.le_max_right ..
    · rw [outcome_labelled] at hm
      rw [stretch_labelled, hm]
      exact ih.settles hsettles cur next a hm
  | quiet r ih =>
    refine ⟨fun hloud cur hm => ?_, nofun⟩
    rw [outcome_quiet] at hm
    exact absurd hm (ne_none_of_isTotal hloud cur)
  | ref name => exact hrefs name

end Reports

theorem reports (htable : Outspoken table) (depth : Nat) (r : Rule) : Reports table depth r := by
  induction depth generalizing r with
  | zero =>
    refine .of_refs htable (fun name => ⟨fun _ cur _ => ?_, nofun⟩) r
    exact Nat.le_of_eq (stretch_ref_zero name cur).symm
  | succ depth below =>
    refine .of_refs htable (fun name => ⟨fun known cur hm => ?_, nofun⟩) r
    obtain ⟨r, hl⟩ := Option.isSome_iff_exists.1 known
    rw [outcome_ref, hl] at hm
    rw [stretch_ref, hl]
    exact (below r).loud (htable name r hl).2 cur hm

end DiagramText.Peg
