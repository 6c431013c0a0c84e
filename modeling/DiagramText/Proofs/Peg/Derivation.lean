import DiagramText.Proofs.Peg.Trace

/-!
# What rules derive

`Derives table r cur outcome` is the meaning of parsing expressions as it is usually given: the rule
`r` matches at `cur` up to a position, or fails. It knows neither fragments nor failure reports, so
that the wrappers do not count, and its only repetitions are the greedy star, which stops at the first
round that fails or consumes nothing, and the plus, which is a rule and then its star.

A derivation is a trace without its misses (`derives_iff_traced`). Hence derivations are deterministic
(`Derives.unique`), and a run that refuses no reference ends where the derivation of its rule ends
(`matchWithin_derives`).
-/

namespace DiagramText.Peg

/-- How a rule matches at a position when its references are those of `table`. -/
inductive Derives (table : List (String × Rule)) : Rule → Cursor → Option Cursor → Prop
  | literal {text anyCase found cur next} (h : Spells text anyCase found) (hs : cur.Spans found next) :
    Derives table (.literal text anyCase) cur (some next)
  | literalFail {text anyCase cur}
    (h : ∀ found rest, Spells text anyCase found → cur.rest ≠ found ++ rest) :
    Derives table (.literal text anyCase) cur none
  | chars {set c cur next} (h : set.contains c = true) (hs : cur.Spans [c] next) :
    Derives table (.chars set) cur (some next)
  | charsFail {set cur} (h : ∀ c rest, cur.rest = c :: rest → set.contains c = false) :
    Derives table (.chars set) cur none
  | sequenceNil {cur} : Derives table (.sequence []) cur (some cur)
  | sequenceFail {r rules cur} (h : Derives table r cur none) :
    Derives table (.sequence (r :: rules)) cur none
  | sequenceCons {r rules cur next outcome} (h : Derives table r cur (some next))
    (hs : Derives table (.sequence rules) next outcome) :
    Derives table (.sequence (r :: rules)) cur outcome
  | choiceNil {cur} : Derives table (.choice []) cur none
  | choiceFound {r rules cur next} (h : Derives table r cur (some next)) :
    Derives table (.choice (r :: rules)) cur (some next)
  | choiceNext {r rules cur outcome} (h : Derives table r cur none)
    (hs : Derives table (.choice rules) cur outcome) :
    Derives table (.choice (r :: rules)) cur outcome
  | starStop {r cur} (h : Derives table r cur none) : Derives table (many r) cur (some cur)
  | starStay {r cur} (h : Derives table r cur (some cur)) : Derives table (many r) cur (some cur)
  | starRound {r cur next outcome} (h : Derives table r cur (some next)) (hne : next ≠ cur)
    (hs : Derives table (many r) next outcome) : Derives table (many r) cur outcome
  | plusFail {r cur} (h : Derives table r cur none) : Derives table (many1 r) cur none
  | plus {r cur next outcome} (h : Derives table r cur (some next))
    (hs : Derives table (many r) next outcome) : Derives table (many1 r) cur outcome
  | optionalSome {r cur next} (h : Derives table r cur (some next)) :
    Derives table (.optional r) cur (some next)
  | optionalNone {r cur} (h : Derives table r cur none) : Derives table (.optional r) cur (some cur)
  | notAheadSome {r cur next} (h : Derives table r cur (some next)) :
    Derives table (.notAhead r) cur none
  | notAheadNone {r cur} (h : Derives table r cur none) : Derives table (.notAhead r) cur (some cur)
  | capture {field r cur outcome} (h : Derives table r cur outcome) :
    Derives table (.capture field r) cur outcome
  | labelled {label r cur outcome} (h : Derives table r cur outcome) :
    Derives table (.labelled label r) cur outcome
  | quiet {r cur outcome} (h : Derives table r cur outcome) : Derives table (.quiet r) cur outcome
  | ref {name r cur outcome} (hl : table.lookup name = some r) (h : Derives table r cur outcome) :
    Derives table (.ref name) cur outcome

/-! ## Plain rules -/

namespace Rule

mutual

/-- Whether every repetition in a rule is a star or a plus. -/
def plain : Rule → Bool
  | literal _ _ | chars _ | ref _ => true
  | sequence rules | choice rules => plainAll rules
  | repeated r least most => least ≤ 1 && most = none && r.plain
  | optional r | notAhead r | capture _ r | labelled _ r | quiet r => r.plain

/-- Whether all of the rules are plain. -/
def plainAll : List Rule → Bool
  | [] => true
  | r :: rules => r.plain && plainAll rules

end

end Rule

/-- The root and all rules of a grammar are plain. -/
structure Grammar.Plain (g : Grammar) : Prop where
  root : g.root.plain = true
  rules : ∀ entry ∈ g.rules, entry.2.plain = true

instance (g : Grammar) : Decidable g.Plain :=
  decidable_of_iff (g.root.plain = true ∧ ∀ entry ∈ g.rules, entry.2.plain = true)
    ⟨fun h => ⟨h.1, h.2⟩, fun h => ⟨h.root, h.rules⟩⟩

/-! ## Derivations and traces -/

section

variable {table : List (String × Rule)} {r : Rule} {cur : Cursor} {outcome : Option Cursor}

/-- Without its misses, the trace of a plain rule is a derivation. -/
theorem Traced.derives {trace : List Miss} (h : Traced table r cur outcome trace)
    (htable : ∀ entry ∈ table, entry.2.plain = true) (hr : r.plain = true) :
    Derives table r cur outcome := by
  induction h with
  | literal hf hs => exact .literal hf hs
  | literalMiss hn => exact .literalFail hn
  | chars hc hs => exact .chars hc hs
  | charsMiss hn => exact .charsFail hn
  | sequenceNil => exact .sequenceNil
  | sequenceFail _ ih =>
    simp only [Rule.plain, Rule.plainAll, Bool.and_eq_true] at hr
    exact .sequenceFail (ih hr.1)
  | sequenceCons _ _ ih ihs =>
    simp only [Rule.plain, Rule.plainAll, Bool.and_eq_true] at hr
    exact .sequenceCons (ih hr.1) (ihs hr.2)
  | choiceNil => exact .choiceNil
  | choiceFound _ ih =>
    simp only [Rule.plain, Rule.plainAll, Bool.and_eq_true] at hr
    exact .choiceFound (ih hr.1)
  | choiceNext _ _ ih ihs =>
    simp only [Rule.plain, Rule.plainAll, Bool.and_eq_true] at hr
    exact .choiceNext (ih hr.1) (ihs hr.2)
  | repeatedFull => simp [Rule.plain] at hr
  | @repeatedStop r least most cur trace _ _ ih =>
    simp only [Rule.plain, Bool.and_eq_true, decide_eq_true_eq] at hr
    obtain ⟨⟨hl, rfl⟩, hr⟩ := hr
    obtain rfl | rfl : least = 0 ∨ least = 1 := by omega
    · exact .starStop (ih hr)
    · exact .plusFail (ih hr)
  | @repeatedStay r least most cur trace _ _ ih =>
    simp only [Rule.plain, Bool.and_eq_true, decide_eq_true_eq] at hr
    obtain ⟨⟨hl, rfl⟩, hr⟩ := hr
    rw [if_pos hl]
    obtain rfl | rfl : least = 0 ∨ least = 1 := by omega
    · exact .starStay (ih hr)
    · exact .plus (ih hr) (.starStay (ih hr))
  | @repeatedRound r least most cur next outcome trace more _ _ hne _ ih ihs =>
    simp only [Rule.plain, Bool.and_eq_true, decide_eq_true_eq] at hr
    obtain ⟨⟨hl, rfl⟩, hr⟩ := hr
    have hrest : Derives table (.repeated r (least - 1) none) next outcome :=
      ihs (by simp [Rule.plain, hr]; omega)
    obtain rfl | rfl : least = 0 ∨ least = 1 := by omega
    · exact .starRound (ih hr) hne hrest
    · exact .plus (ih hr) hrest
  | optionalSome _ ih => exact .optionalSome (ih hr)
  | optionalNone _ ih => exact .optionalNone (ih hr)
  | notAheadSome _ ih => exact .notAheadSome (ih hr)
  | notAheadNone _ ih => exact .notAheadNone (ih hr)
  | capture _ ih => exact .capture (ih hr)
  | labelledSome _ ih | labelledBeyond _ _ ih | labelledHere _ _ ih => exact .labelled (ih hr)
  | quiet _ ih => exact .quiet (ih hr)
  | ref hl _ ih => exact .ref hl (ih (htable _ (mem_of_lookup hl)))

/-- Every derivation has a trace. -/
theorem Derives.traced (h : Derives table r cur outcome) :
    ∃ trace, Traced table r cur outcome trace := by
  induction h with
  | literal hf hs => exact ⟨_, .literal hf hs⟩
  | literalFail hn => exact ⟨_, .literalMiss hn⟩
  | chars hc hs => exact ⟨_, .chars hc hs⟩
  | charsFail hn => exact ⟨_, .charsMiss hn⟩
  | sequenceNil => exact ⟨_, .sequenceNil⟩
  | sequenceFail _ ih =>
    obtain ⟨trace, h⟩ := ih
    exact ⟨_, .sequenceFail h⟩
  | sequenceCons _ _ ih ihs =>
    obtain ⟨trace, h⟩ := ih
    obtain ⟨more, hs⟩ := ihs
    exact ⟨_, .sequenceCons h hs⟩
  | choiceNil => exact ⟨_, .choiceNil⟩
  | choiceFound _ ih =>
    obtain ⟨trace, h⟩ := ih
    exact ⟨_, .choiceFound h⟩
  | choiceNext _ _ ih ihs =>
    obtain ⟨trace, h⟩ := ih
    obtain ⟨more, hs⟩ := ihs
    exact ⟨_, .choiceNext h hs⟩
  | starStop _ ih =>
    obtain ⟨trace, h⟩ := ih
    exact ⟨_, .repeatedStop nofun h⟩
  | starStay _ ih =>
    obtain ⟨trace, h⟩ := ih
    exact ⟨_, .repeatedStay nofun h⟩
  | starRound _ hne _ ih ihs =>
    obtain ⟨trace, h⟩ := ih
    obtain ⟨more, hs⟩ := ihs
    exact ⟨_, .repeatedRound nofun h hne hs⟩
  | plusFail _ ih =>
    obtain ⟨trace, h⟩ := ih
    exact ⟨_, .repeatedStop nofun h⟩
  | @plus r cur next outcome _ _ ih ihs =>
    obtain ⟨trace, h⟩ := ih
    obtain ⟨more, hs⟩ := ihs
    by_cases hne : next = cur
    · -- a first round that consumes nothing is also the last one of the star behind it
      subst hne
      have hstay : Traced table (many r) next (some next) trace := .repeatedStay nofun h
      obtain ⟨rfl, -⟩ := hstay.unique hs
      exact ⟨_, .repeatedStay nofun h⟩
    · exact ⟨_, .repeatedRound nofun h hne hs⟩
  | optionalSome _ ih =>
    obtain ⟨trace, h⟩ := ih
    exact ⟨_, .optionalSome h⟩
  | optionalNone _ ih =>
    obtain ⟨trace, h⟩ := ih
    exact ⟨_, .optionalNone h⟩
  | notAheadSome _ ih =>
    obtain ⟨trace, h⟩ := ih
    exact ⟨_, .notAheadSome h⟩
  | notAheadNone _ ih =>
    obtain ⟨trace, h⟩ := ih
    exact ⟨_, .notAheadNone h⟩
  | capture _ ih =>
    obtain ⟨trace, h⟩ := ih
    exact ⟨_, .capture h⟩
  | @labelled label r cur outcome _ ih =>
    obtain ⟨trace, h⟩ := ih
    cases outcome with
    | some next => exact ⟨_, .labelledSome h⟩
    | none =>
      by_cases hb : ∃ miss ∈ trace, cur.offset < miss.offset
      · exact ⟨_, .labelledBeyond h hb⟩
      · exact ⟨_, .labelledHere h hb⟩
  | quiet _ ih =>
    obtain ⟨trace, h⟩ := ih
    exact ⟨_, .quiet h⟩
  | ref hl _ ih =>
    obtain ⟨trace, h⟩ := ih
    exact ⟨_, .ref hl h⟩

theorem derives_iff_traced (htable : ∀ entry ∈ table, entry.2.plain = true) (hr : r.plain = true) :
    Derives table r cur outcome ↔ ∃ trace, Traced table r cur outcome trace :=
  ⟨Derives.traced, fun ⟨_, h⟩ => h.derives htable hr⟩

/-- A rule has one outcome at a position. -/
theorem Derives.unique {outcome' : Option Cursor} (h : Derives table r cur outcome)
    (h' : Derives table r cur outcome') : outcome' = outcome := by
  obtain ⟨trace, h⟩ := h.traced
  obtain ⟨trace', h'⟩ := h'.traced
  exact (h.unique h').1

end

/-! ## Runs and derivations -/

section

variable {g : Grammar}

/-- A run of a plain rule that refuses no reference has the outcome that the rule derives. -/
theorem matchWithin_derives (hg : g.Closed) (hplain : g.Plain) {r : Rule} (hr : r.Defined g.rules)
    (hrplain : r.plain = true) {depth : Nat} {silent : Bool} {cur : Cursor} {f : Frontier}
    (hf : (r.matchWithin g.rules depth silent cur f).2.refused = false) (outcome : Option Cursor) :
    (r.matchWithin g.rules depth silent cur f).1.map (·.1) = outcome ↔
      Derives g.rules r cur outcome := by
  obtain ⟨trace, ht, -⟩ := matchWithin_follows hg.of_lookup depth r hr silent cur f _ _ rfl hf
  have hd := ht.derives hplain.rules hrplain
  exact ⟨fun e => e ▸ hd, fun h => h.unique hd⟩

/-- An input whose references are not nested too deeply is parsed if the root derives its end. -/
theorem parse_ok_iff_derives (hg : g.Closed) (hplain : g.Plain) {depth : Nat} {input : String}
    (hfits : g.Fits depth g.root input) :
    (∃ tree, g.parse depth input = .ok tree) ↔
      ∃ next, Derives g.rules g.root (.start input) (some next) ∧ next.rest = [] := by
  have hrun := matchWithin_derives hg hplain hg.root hplain.root hfits
  rcases hm : g.root.matchWithin g.rules depth false (.start input) {} with
    ⟨_ | ⟨⟨consumed, rest⟩, fragment⟩, f⟩ <;>
    rw [hm] at hrun
  · constructor
    · rintro ⟨tree, h⟩
      rw [Grammar.parse, Grammar.parseWithin, hm] at h
      cases h
    · rintro ⟨next, h, -⟩
      cases (hrun _).2 h
  · constructor
    · rintro ⟨tree, h⟩
      rw [Grammar.parse, Grammar.parseWithin, hm] at h
      cases rest with
      | nil => exact ⟨_, (hrun _).1 rfl, rfl⟩
      | cons c rest => cases h
    · rintro ⟨next, h, hrest⟩
      obtain rfl := Option.some.inj ((hrun _).2 h)
      obtain rfl : rest = [] := hrest
      exact ⟨fragment.toTree ⟨input, 0⟩, by rw [Grammar.parse, Grammar.parseWithin, hm]⟩

/-- The runs of a plain grammar are the derivations of its rules, in success and in failure, and it
accepts the inputs to whose end its root derives. -/
theorem run_iff_derives (hg : g.Closed) (hplain : g.Plain) :
    (∀ r : Rule, r.Defined g.rules → r.plain = true → ∀ depth silent cur f,
      (r.matchWithin g.rules depth silent cur f).2.refused = false →
        (∀ next, (∃ fragment, (r.matchWithin g.rules depth silent cur f).1 = some (next, fragment)) ↔
          Derives g.rules r cur (some next)) ∧
        ((r.matchWithin g.rules depth silent cur f).1 = none ↔ Derives g.rules r cur none)) ∧
      ∀ depth input, g.Fits depth g.root input →
        ((∃ tree, g.parse depth input = .ok tree) ↔
          ∃ next, Derives g.rules g.root (.start input) (some next) ∧ next.rest = []) := by
  refine ⟨fun r hr hrplain depth silent cur f hf => ⟨fun next => ?_, ?_⟩,
    fun _ _ hfits => parse_ok_iff_derives hg hplain hfits⟩
  · rw [← matchWithin_derives hg hplain hr hrplain hf, Option.map_eq_some_iff]
    constructor
    · rintro ⟨fragment, e⟩
      exact ⟨_, e, rfl⟩
    · rintro ⟨⟨_, fragment⟩, e, rfl⟩
      exact ⟨fragment, e⟩
  · rw [← matchWithin_derives hg hplain hr hrplain hf, Option.map_eq_none_iff]

/-- Sums are a plain grammar: `1+2` is one because the root derives its end, and from `+1` the root
derives failure because its run fails there. -/
theorem run_iff_derives_sums :
    sums.Closed ∧ sums.Plain ∧
      (∃ next, Derives sums.rules sums.root (.start "1+2") (some next) ∧ next.rest = []) ∧
      Derives sums.rules sums.root (.start "+1") none := by
  have hclosed : sums.Closed := by decide
  have hplain : sums.Plain := by decide
  have hfits : sums.Fits 20 sums.root "1+2" := by decide
  have hfits' : sums.Fits 20 sums.root "+1" := by decide
  obtain ⟨hrun, hparse⟩ := run_iff_derives (g := sums) hclosed hplain
  refine ⟨hclosed, hplain, (hparse _ _ hfits).1 ⟨_, rfl⟩, ?_⟩
  exact (hrun _ hclosed.root hplain.root 20 false _ {} hfits').2.1 rfl

end

end DiagramText.Peg
