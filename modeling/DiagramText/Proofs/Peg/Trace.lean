import DiagramText.Proofs.Peg.Grammar
import DiagramText.Proofs.Peg.Match

/-!
# What a parse expected in vain

`Traced table r cur outcome trace` says, rule by rule and without any state, how `r` matches at `cur`
and what is expected in vain on the way: a sequence joins the traces of its members up to the one that
fails, a choice those of the alternatives that were tried, a repetition those of all its rounds, the
failing one included. Inside `quiet` and `notAhead` nothing counts. A label that fails counts in place
of its rule unless something was expected beyond its start.

A run of a rule keeps nothing but a frontier, which labels and silent rules restore or leave alone.
`matchWithin_follows` says that a run without a refused reference adds to its frontier exactly the
trace of its derivation, and `addAll_empty` that the frontier of a trace is its summary: the greatest
offset, and what was expected there, each description once and in the order of the trace.
-/

namespace DiagramText.Peg

/-- Something that was expected in vain, and where. -/
structure Miss where
  offset : Nat
  description : String
deriving DecidableEq

/-! ## The summary of a trace -/

/-- The greatest offset of a trace, zero when nothing was expected in vain. -/
def furthest : List Miss → Nat
  | [] => 0
  | miss :: trace => max miss.offset (furthest trace)

/-- What was expected at the greatest offset, without repetitions and in the order of the trace. -/
def expectations (trace : List Miss) : List String :=
  ((trace.filter (·.offset = furthest trace)).map (·.description)).eraseDups

/-- The failure that a trace amounts to. -/
def summary (trace : List Miss) : Failure := ⟨furthest trace, expectations trace⟩

/-- The frontier after all that a trace expects. -/
def Frontier.addAll (f : Frontier) (trace : List Miss) : Frontier :=
  trace.foldl (fun f miss => f.add miss.offset miss.description) f

theorem furthest_append (trace more : List Miss) :
    furthest (trace ++ more) = max (furthest trace) (furthest more) := by
  induction trace with
  | nil => simp [furthest]
  | cons miss trace ih => rw [List.cons_append, furthest, furthest, ih, Nat.max_assoc]

theorem offset_le_furthest {miss : Miss} {trace : List Miss} (h : miss ∈ trace) :
    miss.offset ≤ furthest trace := by
  induction trace with
  | nil => exact absurd h List.not_mem_nil
  | cons first trace ih =>
    rw [furthest]
    rcases List.mem_cons.1 h with rfl | h
    · exact Nat.le_max_left ..
    · exact Nat.le_trans (ih h) (Nat.le_max_right ..)

theorem furthest_le {trace : List Miss} {offset : Nat} (h : ∀ miss ∈ trace, miss.offset ≤ offset) :
    furthest trace ≤ offset := by
  induction trace with
  | nil => exact Nat.zero_le _
  | cons miss trace ih =>
    rw [furthest]
    exact Nat.max_le.2 ⟨h miss List.mem_cons_self, ih fun m hm => h m (List.mem_cons_of_mem _ hm)⟩

/-- Whatever lies in front of a trace makes its greatest offset irrelevant. -/
theorem filter_offset_eq_nil {trace : List Miss} {offset : Nat} (h : furthest trace < offset) :
    trace.filter (·.offset = offset) = [] := by
  rw [List.filter_eq_nil_iff]
  intro miss hm
  have := offset_le_furthest hm
  simp only [decide_eq_true_eq]
  omega

/-- Adding one miss to the frontier of a trace gives the frontier of the longer trace. -/
theorem add_summary (trace : List Miss) (miss : Miss) (refused : Bool) :
    Frontier.add ⟨furthest trace, expectations trace, refused⟩ miss.offset miss.description =
      ⟨furthest (trace ++ [miss]), expectations (trace ++ [miss]), refused⟩ := by
  have hfar : furthest (trace ++ [miss]) = max (furthest trace) miss.offset := by
    rw [furthest_append, furthest, furthest, Nat.max_zero]
  have hexp (h : furthest trace ≤ miss.offset) : expectations (trace ++ [miss]) =
      ((trace.filter (·.offset = miss.offset)).map (·.description) ++ [miss.description]).eraseDups := by
    rw [expectations, hfar, Nat.max_eq_right h]
    simp
  rcases Nat.lt_trichotomy miss.offset (furthest trace) with h | h | h
  · have hsame : expectations (trace ++ [miss]) = expectations trace := by
      rw [expectations, hfar, Nat.max_eq_left (Nat.le_of_lt h), List.filter_append]
      simp [Nat.ne_of_lt h, expectations]
    rw [Frontier.add_of_lt h, hsame, hfar, Nat.max_eq_left (Nat.le_of_lt h)]
  · have hseen : (expectations trace).contains miss.description =
        ((trace.filter (·.offset = furthest trace)).map (·.description)).contains miss.description := by
      rw [Bool.eq_iff_iff, List.contains_iff_mem, List.contains_iff_mem, expectations,
        List.mem_eraseDups]
    rw [hexp (Nat.le_of_eq h.symm), hfar, h, Nat.max_self, List.eraseDups_append, Frontier.add, hseen,
      if_neg (Nat.lt_irrefl _), if_neg (Nat.lt_irrefl _), List.cons_removeAll, List.nil_removeAll]
    split
    · rename_i hmem
      rw [hmem]
      simp [expectations]
    · rename_i hmem
      rw [Bool.not_eq_true] at hmem
      rw [hmem]
      simp [expectations, List.eraseDups_cons]
  · rw [Frontier.add_of_gt h, hexp (Nat.le_of_lt h), hfar, Nat.max_eq_right (Nat.le_of_lt h),
      filter_offset_eq_nil h]
    rfl

theorem addAll_summary (trace more : List Miss) (refused : Bool) :
    Frontier.addAll ⟨furthest trace, expectations trace, refused⟩ more =
      ⟨furthest (trace ++ more), expectations (trace ++ more), refused⟩ := by
  induction more generalizing trace with
  | nil => rw [List.append_nil]; rfl
  | cons miss more ih =>
    show Frontier.addAll (Frontier.add _ miss.offset miss.description) more = _
    rw [add_summary, ih, List.append_assoc, List.singleton_append]

/-- The frontier of a trace is its summary. -/
theorem addAll_empty (trace : List Miss) :
    Frontier.addAll {} trace = ⟨furthest trace, expectations trace, false⟩ :=
  addAll_summary [] trace false

theorem addAll_append (f : Frontier) (trace more : List Miss) :
    f.addAll (trace ++ more) = (f.addAll trace).addAll more :=
  List.foldl_append

theorem refused_add (f : Frontier) (offset : Nat) (description : String) :
    (f.add offset description).refused = f.refused := by
  unfold Frontier.add
  split
  · rfl
  · split
    · rfl
    · split <;> rfl

theorem refused_addAll (f : Frontier) (trace : List Miss) : (f.addAll trace).refused = f.refused := by
  induction trace generalizing f with
  | nil => rfl
  | cons miss trace ih => exact (ih _).trans (refused_add ..)

theorem offset_add (f : Frontier) (offset : Nat) (description : String) :
    (f.add offset description).offset = max f.offset offset := by
  unfold Frontier.add
  split
  · omega
  · split
    · show offset = _
      omega
    · split
      · omega
      · show f.offset = _
        omega

theorem offset_addAll (f : Frontier) (trace : List Miss) :
    (f.addAll trace).offset = max f.offset (furthest trace) := by
  induction trace generalizing f with
  | nil => exact (Nat.max_zero _).symm
  | cons miss trace ih => exact (ih _).trans (by rw [offset_add, furthest, Nat.max_assoc])

/-- What was expected behind the frontier is dropped. -/
theorem addAll_of_lt {f : Frontier} {trace : List Miss} (h : ∀ miss ∈ trace, miss.offset < f.offset) :
    f.addAll trace = f := by
  induction trace with
  | nil => rfl
  | cons miss trace ih =>
    show (f.add miss.offset miss.description).addAll trace = f
    rw [Frontier.add_of_lt (h miss List.mem_cons_self)]
    exact ih fun m hm => h m (List.mem_cons_of_mem _ hm)

/-! ## Traces of derivations -/

/-- How a rule matches at a position when its references are those of `table`: where the match ends,
and what is expected in vain on the way. -/
inductive Traced (table : List (String × Rule)) : Rule → Cursor → Option Cursor → List Miss → Prop
  | literal {text anyCase found cur next} (h : Spells text anyCase found) (hs : cur.Spans found next) :
    Traced table (.literal text anyCase) cur (some next) []
  | literalMiss {text anyCase cur}
    (h : ∀ found rest, Spells text anyCase found → cur.rest ≠ found ++ rest) :
    Traced table (.literal text anyCase) cur none [⟨cur.offset, quoteText text⟩]
  | chars {set c cur next} (h : set.contains c = true) (hs : cur.Spans [c] next) :
    Traced table (.chars set) cur (some next) []
  | charsMiss {set cur} (h : ∀ c rest, cur.rest = c :: rest → set.contains c = false) :
    Traced table (.chars set) cur none [⟨cur.offset, set.describe⟩]
  | sequenceNil {cur} : Traced table (.sequence []) cur (some cur) []
  | sequenceFail {r rules cur trace} (h : Traced table r cur none trace) :
    Traced table (.sequence (r :: rules)) cur none trace
  | sequenceCons {r rules cur next outcome trace more} (h : Traced table r cur (some next) trace)
    (hs : Traced table (.sequence rules) next outcome more) :
    Traced table (.sequence (r :: rules)) cur outcome (trace ++ more)
  | choiceNil {cur} : Traced table (.choice []) cur none []
  | choiceFound {r rules cur next trace} (h : Traced table r cur (some next) trace) :
    Traced table (.choice (r :: rules)) cur (some next) trace
  | choiceNext {r rules cur outcome trace more} (h : Traced table r cur none trace)
    (hs : Traced table (.choice rules) cur outcome more) :
    Traced table (.choice (r :: rules)) cur outcome (trace ++ more)
  | repeatedFull {r least cur} :
    Traced table (.repeated r least (some 0)) cur (if least = 0 then some cur else none) []
  | repeatedStop {r least most cur trace} (hm : most ≠ some 0) (h : Traced table r cur none trace) :
    Traced table (.repeated r least most) cur (if least = 0 then some cur else none) trace
  | repeatedStay {r least most cur trace} (hm : most ≠ some 0)
    (h : Traced table r cur (some cur) trace) :
    Traced table (.repeated r least most) cur (if least ≤ 1 then some cur else none) trace
  | repeatedRound {r least most cur next outcome trace more} (hm : most ≠ some 0)
    (h : Traced table r cur (some next) trace) (hne : next ≠ cur)
    (hs : Traced table (.repeated r (least - 1) (most.map (· - 1))) next outcome more) :
    Traced table (.repeated r least most) cur outcome (trace ++ more)
  | optionalSome {r cur next trace} (h : Traced table r cur (some next) trace) :
    Traced table (.optional r) cur (some next) trace
  | optionalNone {r cur trace} (h : Traced table r cur none trace) :
    Traced table (.optional r) cur (some cur) trace
  | notAheadSome {r cur next trace} (h : Traced table r cur (some next) trace) :
    Traced table (.notAhead r) cur none []
  | notAheadNone {r cur trace} (h : Traced table r cur none trace) :
    Traced table (.notAhead r) cur (some cur) []
  | capture {field r cur outcome trace} (h : Traced table r cur outcome trace) :
    Traced table (.capture field r) cur outcome trace
  | labelledSome {label r cur next trace} (h : Traced table r cur (some next) trace) :
    Traced table (.labelled label r) cur (some next) trace
  | labelledBeyond {label r cur trace} (h : Traced table r cur none trace)
    (hb : ∃ miss ∈ trace, cur.offset < miss.offset) :
    Traced table (.labelled label r) cur none trace
  | labelledHere {label r cur trace} (h : Traced table r cur none trace)
    (hb : ¬ ∃ miss ∈ trace, cur.offset < miss.offset) :
    Traced table (.labelled label r) cur none [⟨cur.offset, label⟩]
  | quiet {r cur outcome trace} (h : Traced table r cur outcome trace) :
    Traced table (.quiet r) cur outcome []
  | ref {name r cur outcome trace} (hl : table.lookup name = some r)
    (h : Traced table r cur outcome trace) : Traced table (.ref name) cur outcome trace

section

variable {table : List (String × Rule)}

/-- A rule has one trace at a position, and one outcome. -/
theorem Traced.unique {r : Rule} {cur : Cursor} {outcome outcome' : Option Cursor}
    {trace trace' : List Miss} (h : Traced table r cur outcome trace)
    (h' : Traced table r cur outcome' trace') : outcome' = outcome ∧ trace' = trace := by
  induction h generalizing outcome' trace' with
  | literal hf hs =>
    cases h' with
    | literal hf' hs' =>
      obtain ⟨rfl, -⟩ := hf.unique hf' (hs.rest ▸ hs'.rest)
      exact ⟨congrArg some (hs.unique hs'), rfl⟩
    | literalMiss hn => exact absurd hs.rest (hn _ _ hf)
  | literalMiss hn =>
    cases h' with
    | literal hf hs => exact absurd hs.rest (hn _ _ hf)
    | literalMiss => exact ⟨rfl, rfl⟩
  | chars hc hs =>
    cases h' with
    | chars hc' hs' =>
      obtain ⟨rfl, -⟩ := List.cons.inj (hs.rest ▸ hs'.rest)
      exact ⟨congrArg some (hs.unique hs'), rfl⟩
    | charsMiss hn => rw [hn _ _ hs.rest] at hc; cases hc
  | charsMiss hn =>
    cases h' with
    | chars hc hs => rw [hn _ _ hs.rest] at hc; cases hc
    | charsMiss => exact ⟨rfl, rfl⟩
  | sequenceNil => cases h'; exact ⟨rfl, rfl⟩
  | sequenceFail _ ih =>
    cases h' with
    | sequenceFail h' => exact ⟨rfl, (ih h').2⟩
    | sequenceCons h' _ => cases (ih h').1
  | sequenceCons _ _ ih ihs =>
    cases h' with
    | sequenceFail h' => cases (ih h').1
    | sequenceCons h' hs' =>
      obtain ⟨e, rfl⟩ := ih h'
      cases e
      obtain ⟨rfl, rfl⟩ := ihs hs'
      exact ⟨rfl, rfl⟩
  | choiceNil => cases h'; exact ⟨rfl, rfl⟩
  | choiceFound _ ih =>
    cases h' with
    | choiceFound h' => exact ih h'
    | choiceNext h' _ => cases (ih h').1
  | choiceNext _ _ ih ihs =>
    cases h' with
    | choiceFound h' => cases (ih h').1
    | choiceNext h' hs' =>
      obtain ⟨-, rfl⟩ := ih h'
      obtain ⟨rfl, rfl⟩ := ihs hs'
      exact ⟨rfl, rfl⟩
  | repeatedFull =>
    cases h' with
    | repeatedFull => exact ⟨rfl, rfl⟩
    | repeatedStop hm _ | repeatedStay hm _ | repeatedRound hm _ _ _ => exact absurd rfl hm
  | repeatedStop hm _ ih =>
    cases h' with
    | repeatedFull => exact absurd rfl hm
    | repeatedStop _ h' => exact ⟨rfl, (ih h').2⟩
    | repeatedStay _ h' => cases (ih h').1
    | repeatedRound _ h' _ _ => cases (ih h').1
  | repeatedStay hm _ ih =>
    cases h' with
    | repeatedFull => exact absurd rfl hm
    | repeatedStop _ h' => cases (ih h').1
    | repeatedStay _ h' => exact ⟨rfl, (ih h').2⟩
    | repeatedRound _ h' hne _ => exact absurd (Option.some.inj (ih h').1) hne
  | repeatedRound hm _ hne _ ih ihs =>
    cases h' with
    | repeatedFull => exact absurd rfl hm
    | repeatedStop _ h' => cases (ih h').1
    | repeatedStay _ h' => exact absurd (Option.some.inj (ih h').1).symm hne
    | repeatedRound _ h' _ hs' =>
      obtain ⟨e, rfl⟩ := ih h'
      cases e
      obtain ⟨rfl, rfl⟩ := ihs hs'
      exact ⟨rfl, rfl⟩
  | optionalSome _ ih =>
    cases h' with
    | optionalSome h' => exact ih h'
    | optionalNone h' => cases (ih h').1
  | optionalNone _ ih =>
    cases h' with
    | optionalSome h' => cases (ih h').1
    | optionalNone h' => exact ⟨rfl, (ih h').2⟩
  | notAheadSome _ ih =>
    cases h' with
    | notAheadSome => exact ⟨rfl, rfl⟩
    | notAheadNone h' => cases (ih h').1
  | notAheadNone _ ih =>
    cases h' with
    | notAheadSome h' => cases (ih h').1
    | notAheadNone => exact ⟨rfl, rfl⟩
  | capture _ ih => cases h' with | capture h' => exact ih h'
  | labelledSome _ ih =>
    cases h' with
    | labelledSome h' => exact ih h'
    | labelledBeyond h' _ | labelledHere h' _ => cases (ih h').1
  | labelledBeyond _ hb ih =>
    cases h' with
    | labelledSome h' => cases (ih h').1
    | labelledBeyond h' _ => exact ih h'
    | labelledHere h' hb' => exact absurd ((ih h').2 ▸ hb) hb'
  | labelledHere _ hb ih =>
    cases h' with
    | labelledSome h' => cases (ih h').1
    | labelledBeyond h' hb' => exact absurd ((ih h').2 ▸ hb') hb
    | labelledHere => exact ⟨rfl, rfl⟩
  | quiet _ ih => cases h' with | quiet h' => exact ⟨(ih h').1, rfl⟩
  | ref hl _ ih =>
    cases h' with
    | ref hl' h' =>
      obtain rfl := Option.some.inj (hl.symm.trans hl')
      exact ih h'

theorem Traced.reaches {r : Rule} {cur : Cursor} {outcome : Option Cursor} {trace : List Miss}
    (h : Traced table r cur outcome trace) : ∀ next, outcome = some next → cur.Reaches next := by
  induction h with
  | literal _ hs | chars _ hs => rintro _ ⟨⟩; exact hs.reaches
  | literalMiss | charsMiss | sequenceFail | choiceNil | notAheadSome | labelledBeyond | labelledHere =>
    nofun
  | sequenceNil | optionalNone | notAheadNone => rintro _ ⟨⟩; exact .refl _
  | sequenceCons _ _ ih ihs => exact fun last e => (ih _ rfl).trans (ihs last e)
  | choiceFound _ ih | choiceNext _ _ _ ih | optionalSome _ ih | capture _ ih | labelledSome _ ih
  | quiet _ ih | ref _ _ ih => exact ih
  | repeatedFull | repeatedStop | repeatedStay =>
    intro next e
    split at e <;> cases e
    exact .refl _
  | repeatedRound _ _ _ _ ih ihs => exact fun last e => (ih _ rfl).trans (ihs last e)

/-- Nothing is expected before the start of a rule. -/
theorem Traced.offset_le {r : Rule} {cur : Cursor} {outcome : Option Cursor} {trace : List Miss}
    (h : Traced table r cur outcome trace) : ∀ miss ∈ trace, cur.offset ≤ miss.offset := by
  induction h with
  | literal | chars | sequenceNil | choiceNil | repeatedFull | notAheadSome | notAheadNone | quiet =>
    exact fun _ hm => absurd hm List.not_mem_nil
  | literalMiss | charsMiss | labelledHere =>
    intro miss hm
    rw [List.mem_singleton] at hm
    exact hm ▸ Nat.le_refl _
  | sequenceFail _ ih | choiceFound _ ih | repeatedStop _ _ ih | repeatedStay _ _ ih
  | optionalSome _ ih | optionalNone _ ih | capture _ ih | labelledSome _ ih | labelledBeyond _ _ ih
  | ref _ _ ih => exact ih
  | choiceNext _ _ ih ihs =>
    intro miss hm
    exact (List.mem_append.1 hm).elim (ih miss) (ihs miss)
  | sequenceCons h _ ih ihs | repeatedRound _ h _ _ ih ihs =>
    intro miss hm
    rcases List.mem_append.1 hm with hm | hm
    · exact ih miss hm
    · exact Nat.le_trans (h.reaches _ rfl).offset_le (ihs miss hm)

/-! ## Runs follow derivations -/

/-- The frontier that a run leaves behind when it expects `trace` in vain. -/
def Frontier.after (f : Frontier) (silent : Bool) (trace : List Miss) : Frontier :=
  if silent then f else f.addAll trace

theorem refused_after (f : Frontier) (silent : Bool) (trace : List Miss) :
    (f.after silent trace).refused = f.refused := by
  cases silent
  · exact refused_addAll f trace
  · rfl

theorem after_after (f : Frontier) (silent : Bool) (trace more : List Miss) :
    (f.after silent trace).after silent more = f.after silent (trace ++ more) := by
  cases silent
  · exact (addAll_append f trace more).symm
  · rfl

/-- A matcher that refuses no reference follows the derivations of a rule: it has the outcome of one,
and its frontier moves by the trace. -/
def Follows (table : List (String × Rule)) (r : Rule) (m : Matcher) : Prop :=
  ∀ silent cur f outcome f', m silent cur f = (outcome, f') → f'.refused = false →
    ∃ trace, Traced table r cur (outcome.map (·.1)) trace ∧ f' = f.after silent trace

variable {call : String → Matcher}

theorem miss_follows {r : Rule} {silent : Bool} {cur : Cursor} {f f' : Frontier} {outcome : Outcome}
    {describe : Unit → String} (hm : miss describe silent cur f = (outcome, f'))
    (h : Traced table r cur none [⟨cur.offset, describe ()⟩]) :
    ∃ trace, Traced table r cur (outcome.map (·.1)) trace ∧ f' = f.after silent trace := by
  unfold miss at hm
  split at hm
  · rename_i hs
    cases hm
    refine ⟨_, h, ?_⟩
    cases silent with
    | true => rfl
    | false => exact (Frontier.add_of_lt (by simpa using hs) _).symm
  · rename_i hs
    cases hm
    simp only [Bool.or_eq_true, not_or, Bool.not_eq_true] at hs
    rw [hs.1]
    exact ⟨_, h, rfl⟩

theorem matchAll_follows {rules : List Rule} (h : ∀ r ∈ rules, Follows table r (r.matchWith call))
    {silent : Bool} {fragment : Fragment} {cur : Cursor} {f f' : Frontier} {outcome : Outcome}
    (hm : Rule.matchAll call rules silent fragment cur f = (outcome, f')) (hf : f'.refused = false) :
    ∃ trace, Traced table (.sequence rules) cur (outcome.map (·.1)) trace ∧
      f' = f.after silent trace := by
  induction rules generalizing fragment cur f with
  | nil =>
    simp only [Rule.matchAll, Prod.mk.injEq] at hm
    obtain ⟨rfl, rfl⟩ := hm
    exact ⟨[], .sequenceNil, by cases silent <;> rfl⟩
  | cons r rules ih =>
    rw [Rule.matchAll] at hm
    rcases hr : r.matchWith call silent cur f with ⟨_ | ⟨next, captured⟩, f₁⟩ <;>
      simp only [hr] at hm
    · cases hm
      obtain ⟨trace, ht, e⟩ := h r List.mem_cons_self silent cur f none f' hr hf
      exact ⟨trace, .sequenceFail ht, e⟩
    · obtain ⟨more, hs, e⟩ := ih (fun r' h' => h r' (List.mem_cons_of_mem _ h')) hm
      have hf₁ : f₁.refused = false := by rw [← hf, e, refused_after]
      obtain ⟨trace, ht, e₁⟩ := h r List.mem_cons_self silent cur f _ f₁ hr hf₁
      exact ⟨trace ++ more, .sequenceCons ht hs, by rw [e, e₁, after_after]⟩

theorem matchAny_follows {rules : List Rule} (h : ∀ r ∈ rules, Follows table r (r.matchWith call)) :
    Follows table (.choice rules) (Rule.matchAny call rules) := by
  intro silent cur f outcome f' hm hf
  induction rules generalizing f with
  | nil =>
    simp only [Rule.matchAny, Prod.mk.injEq] at hm
    obtain ⟨rfl, rfl⟩ := hm
    exact ⟨[], .choiceNil, by cases silent <;> rfl⟩
  | cons r rules ih =>
    rw [Rule.matchAny] at hm
    rcases hr : r.matchWith call silent cur f with ⟨_ | ⟨next, captured⟩, f₁⟩ <;>
      simp only [hr] at hm
    · obtain ⟨more, hs, e⟩ := ih (fun r' h' => h r' (List.mem_cons_of_mem _ h')) f₁ hm
      have hf₁ : f₁.refused = false := by rw [← hf, e, refused_after]
      obtain ⟨trace, ht, e₁⟩ := h r List.mem_cons_self silent cur f none f₁ hr hf₁
      exact ⟨trace ++ more, .choiceNext ht hs, by rw [e, e₁, after_after]⟩
    · cases hm
      obtain ⟨trace, ht, e⟩ := h r List.mem_cons_self silent cur f _ f' hr hf
      exact ⟨trace, .choiceFound ht, e⟩

theorem map_fst_ite (p : Prop) [Decidable p] (cur : Cursor) (fragment : Fragment) :
    (if p then some (cur, fragment) else none : Outcome).map (·.1) = if p then some cur else none := by
  split <;> rfl

/-- A repetition follows derivations: by induction on the characters that are left. -/
theorem repeated_follows {r : Rule} (hr : Advances (r.matchWith call))
    (h : Follows table r (r.matchWith call)) (least : Nat) (most : Option Nat) :
    Follows table (.repeated r least most) ((Rule.repeated r least most).matchWith call) := by
  intro silent cur f outcome f' hm hf
  induction hn : cur.rest.length using Nat.strongRecOn generalizing cur f least most outcome with
  | ind n ih =>
    rw [matchWith_repeated hr] at hm
    by_cases hmost : most = some 0
    · subst hmost
      simp only [↓reduceIte, Prod.mk.injEq] at hm
      obtain ⟨rfl, rfl⟩ := hm
      exact ⟨[], by rw [map_fst_ite]; exact .repeatedFull, by cases silent <;> rfl⟩
    · rw [if_neg hmost] at hm
      rcases hs : r.matchWith call silent cur f with ⟨_ | ⟨next, fragment⟩, f₁⟩ <;>
        simp only [hs] at hm
      · obtain ⟨rfl, rfl⟩ := Prod.mk.inj hm
        obtain ⟨trace, ht, e⟩ := h silent cur f none f₁ hs hf
        exact ⟨trace, by rw [map_fst_ite]; exact .repeatedStop hmost ht, e⟩
      · have hreach := hr silent cur f next fragment (by rw [hs])
        by_cases hne : next = cur
        · subst hne
          rw [if_pos rfl] at hm
          obtain ⟨rfl, rfl⟩ := Prod.mk.inj hm
          obtain ⟨trace, ht, e⟩ := h silent next f _ f₁ hs hf
          exact ⟨trace, by rw [map_fst_ite]; exact .repeatedStay hmost ht, e⟩
        · rw [if_neg hne] at hm
          rcases hrest : (Rule.repeated r (least - 1) (most.map (· - 1))).matchWith call silent next f₁
            with ⟨found, f₂⟩
          simp only [hrest] at hm
          obtain ⟨rfl, rfl⟩ := Prod.mk.inj hm
          obtain ⟨more, hmore, e⟩ := ih next.rest.length (hn ▸ hreach.length_lt hne) _ _ next f₁ found
            hrest rfl
          have hf₁ : f₁.refused = false := by rw [← hf, e, refused_after]
          obtain ⟨trace, ht, e₁⟩ := h silent cur f _ f₁ hs hf₁
          refine ⟨trace ++ more, ?_, by rw [e, e₁, after_after]⟩
          rw [Option.map_map]
          exact .repeatedRound hmost ht hne hmore

/-- The label of a rule that fails: the frontier moves by the trace of the rule if that goes beyond
the start, and by the label if not. -/
theorem labelled_follows {r : Rule} {m : Matcher} (h : Follows table r m) (label : String)
    {silent : Bool} {cur : Cursor} {before f f' : Frontier}
    (hm : m silent cur before = (none, f)) (hf : f'.refused = false)
    (hl : f' = if silent || cur.offset < f.offset then f
      else { before.add cur.offset label with refused := f.refused }) :
    ∃ trace, Traced table (.labelled label r) cur none trace ∧ f' = before.after silent trace := by
  have hf₁ : f.refused = false := by
    rw [← hf, hl]
    split <;> rfl
  obtain ⟨trace, ht, e⟩ := h silent cur before none f hm hf₁
  cases silent with
  | true =>
    by_cases hb : ∃ miss ∈ trace, cur.offset < miss.offset
    · exact ⟨_, .labelledBeyond ht hb, hl.trans e⟩
    · exact ⟨_, .labelledHere ht hb, hl.trans e⟩
  | false =>
    simp only [Bool.false_or, decide_eq_true_eq] at hl
    have hoffset : f.offset = max before.offset (furthest trace) := e ▸ offset_addAll before trace
    by_cases hb : ∃ miss ∈ trace, cur.offset < miss.offset
    · refine ⟨trace, .labelledBeyond ht hb, ?_⟩
      obtain ⟨miss, hmem, hlt⟩ := hb
      have := offset_le_furthest hmem
      rw [hl, if_pos (by omega), e]
    · refine ⟨_, .labelledHere ht hb, ?_⟩
      have hat : ∀ miss ∈ trace, miss.offset = cur.offset := fun miss hmem =>
        Nat.le_antisymm (Nat.not_lt.1 fun hlt => hb ⟨miss, hmem, hlt⟩) (ht.offset_le miss hmem)
      have hfar : furthest trace ≤ cur.offset := furthest_le fun miss hmem => Nat.le_of_eq (hat miss hmem)
      show f' = before.add cur.offset label
      by_cases hlt : cur.offset < f.offset
      · have hbefore : cur.offset < before.offset := by omega
        rw [hl, if_pos hlt, e, Frontier.add_of_lt hbefore]
        exact addAll_of_lt fun miss hmem => hat miss hmem ▸ hbefore
      · rw [hl, if_neg hlt, e, refused_after, ← refused_add before cur.offset label]

/-- A rule follows its derivations if the rules that it refers to do. -/
theorem matchWith_follows (hreach : ∀ name, Advances (call name))
    (hcall : ∀ name, (table.lookup name).isSome → Follows table (.ref name) (call name)) (r : Rule)
    (hr : r.Defined table) : Follows table r (r.matchWith call) := by
  induction r using Rule.ind with
  | literal text anyCase =>
    intro silent cur f outcome f' hm _
    rw [Rule.matchWith] at hm
    split at hm
    · rename_i next hs
      obtain ⟨rfl, rfl⟩ := Prod.mk.inj hm
      obtain ⟨found, hf, hspan⟩ := Cursor.skip?_eq_some.1 hs
      exact ⟨[], .literal hf hspan, by cases silent <;> rfl⟩
    · rename_i hs
      exact miss_follows hm (.literalMiss (Cursor.skip?_eq_none.1 hs))
  | chars set =>
    intro silent cur f outcome f' hm _
    rw [Rule.matchWith] at hm
    split at hm
    · rename_i next hs
      obtain ⟨rfl, rfl⟩ := Prod.mk.inj hm
      obtain ⟨c, hc, hspan⟩ := Cursor.next?_eq_some.1 hs
      exact ⟨[], .chars hc hspan, by cases silent <;> rfl⟩
    · rename_i hs
      exact miss_follows hm (.charsMiss (Cursor.next?_eq_none.1 hs))
  | sequence rules ih =>
    intro silent cur f outcome f' hm hf
    rw [Rule.matchWith] at hm
    exact matchAll_follows (fun r hr' => ih r hr' fun name h => hr name (mem_refsAll hr' h)) hm hf
  | choice rules ih =>
    intro silent cur f outcome f' hm hf
    rw [Rule.matchWith] at hm
    exact matchAny_follows (fun r hr' => ih r hr' fun name h => hr name (mem_refsAll hr' h))
      silent cur f outcome f' hm hf
  | repeated r least most ih =>
    exact repeated_follows (matchWith_reaches hreach r) (ih hr) least most
  | optional r ih =>
    intro silent cur f outcome f' hm hf
    rw [Rule.matchWith] at hm
    rcases hs : r.matchWith call silent cur f with ⟨_ | found, f₁⟩ <;> simp only [hs] at hm
    · obtain ⟨rfl, rfl⟩ := Prod.mk.inj hm
      obtain ⟨trace, ht, e⟩ := ih hr silent cur f none f₁ hs hf
      exact ⟨trace, .optionalNone ht, e⟩
    · obtain ⟨rfl, rfl⟩ := Prod.mk.inj hm
      obtain ⟨trace, ht, e⟩ := ih hr silent cur f _ f₁ hs hf
      exact ⟨trace, .optionalSome ht, e⟩
  | notAhead r ih =>
    intro silent cur f outcome f' hm hf
    rw [Rule.matchWith] at hm
    rcases hs : r.matchWith call true cur f with ⟨_ | found, f₁⟩ <;> simp only [hs] at hm
    · obtain ⟨rfl, rfl⟩ := Prod.mk.inj hm
      obtain ⟨trace, ht, e⟩ := ih hr true cur f none f₁ hs hf
      exact ⟨[], .notAheadNone ht, by rw [e]; cases silent <;> rfl⟩
    · obtain ⟨rfl, rfl⟩ := Prod.mk.inj hm
      obtain ⟨trace, ht, e⟩ := ih hr true cur f _ f₁ hs hf
      exact ⟨[], .notAheadSome ht, by rw [e]; cases silent <;> rfl⟩
  | capture field r ih =>
    intro silent cur f outcome f' hm hf
    rw [Rule.matchWith] at hm
    rcases hs : r.matchWith call silent cur f with ⟨_ | ⟨next, fragment⟩, f₁⟩ <;>
      simp only [hs] at hm
    · obtain ⟨rfl, rfl⟩ := Prod.mk.inj hm
      obtain ⟨trace, ht, e⟩ := ih hr silent cur f none f₁ hs hf
      exact ⟨trace, .capture ht, e⟩
    · obtain ⟨rfl, rfl⟩ := Prod.mk.inj hm
      obtain ⟨trace, ht, e⟩ := ih hr silent cur f _ f₁ hs hf
      exact ⟨trace, .capture ht, e⟩
  | labelled label r ih =>
    intro silent cur f outcome f' hm hf
    rw [Rule.matchWith] at hm
    rcases hs : r.matchWith call silent cur f with ⟨_ | found, f₁⟩ <;> simp only [hs] at hm
    · obtain ⟨rfl, hl⟩ : outcome = none ∧ f' = if silent || cur.offset < f₁.offset then f₁
          else { f.add cur.offset label with refused := f₁.refused } := by
        split at hm <;> cases hm <;> exact ⟨rfl, by simp only [*]; rfl⟩
      exact labelled_follows (ih hr) label hs hf hl
    · obtain ⟨rfl, rfl⟩ := Prod.mk.inj hm
      obtain ⟨trace, ht, e⟩ := ih hr silent cur f _ f₁ hs hf
      exact ⟨trace, .labelledSome ht, e⟩
  | quiet r ih =>
    intro silent cur f outcome f' hm hf
    rw [Rule.matchWith] at hm
    obtain ⟨trace, ht, e⟩ := ih hr true cur f outcome f' hm hf
    exact ⟨[], .quiet ht, by rw [e]; cases silent <;> rfl⟩
  | ref name =>
    intro silent cur f outcome f' hm hf
    rw [Rule.matchWith] at hm
    exact hcall name (hr name (by simp [Rule.refs])) silent cur f outcome f' hm hf

/-- A run of a rule that refuses no reference follows a derivation, if the table has every name that
the rule and the rules of the table refer to. -/
theorem matchWithin_follows (htable : ∀ name r, table.lookup name = some r → r.Defined table)
    (depth : Nat) (r : Rule) (hr : r.Defined table) : Follows table r (r.matchWithin table depth) := by
  have hcall (name : String) (hname : (table.lookup name).isSome) :
      Follows table (.ref name) (Rule.callWithin table depth name) := by
    induction depth generalizing name with
    | zero =>
      intro silent cur f outcome f' hm hf
      have : f'.refused = true := by
        simp only [Rule.callWithin, Rule.refuse] at hm
        exact (Prod.mk.inj hm).2 ▸ rfl
      rw [this] at hf
      cases hf
    | succ depth ih =>
      intro silent cur f outcome f' hm hf
      obtain ⟨r', hl⟩ := Option.isSome_iff_exists.1 hname
      simp only [Rule.callWithin, hl] at hm
      obtain ⟨trace, ht, e⟩ := matchWith_follows (callWithin_reaches table depth) ih r'
        (htable name r' hl) silent cur f outcome f' hm hf
      exact ⟨trace, .ref hl ht, e⟩
  exact matchWith_follows (callWithin_reaches table depth) hcall r hr

end

/-! ## Reports -/

/-- What is expected behind the match of a whole parse: the end of the input. -/
def leftover : Option Cursor → List Miss
  | some next => [⟨next.offset, "end of input"⟩]
  | none => []

theorem failure_addAll (trace : List Miss) : (Frontier.addAll {} trace).failure = summary trace := by
  rw [addAll_empty]
  rfl

/-- A parse that fails reports the summary of a trace, which is that of the rule and what is left of
the input behind its match. -/
theorem parseWithin_error {depth : Nat} {g : Grammar} (hg : g.Closed) {rule : Rule} (hr : rule.Defined g.rules)
    {input : String} (hfits : g.Fits depth rule input) {failure : Failure}
    (h : g.parseWithin depth rule input = .error failure) :
    ∃ outcome trace, Traced g.rules rule (.start input) outcome trace ∧
      failure = summary (trace ++ leftover outcome) := by
  rcases hm : rule.matchWithin g.rules depth false (.start input) {} with ⟨outcome, f⟩
  have hf : f.refused = false := by
    have := hfits
    rwa [Grammar.Fits, hm] at this
  obtain ⟨trace, ht, e⟩ := matchWithin_follows hg.of_lookup depth rule hr false
    (.start input) {} outcome f hm hf
  refine ⟨_, trace, ht, ?_⟩
  have hf : f = Frontier.addAll {} trace := e
  rw [Grammar.parseWithin, hm] at h
  match outcome, h with
  | none, h =>
    rw [hf] at h
    show failure = summary (trace ++ [])
    rw [List.append_nil, ← failure_addAll]
    exact (Except.error.inj h).symm
  | some (⟨consumed, c :: rest⟩, fragment), h =>
    have h : (f.add consumed "end of input").failure = failure := Except.error.inj h
    rw [← h, hf, ← failure_addAll, addAll_append]
    rfl

/-- A failed parse reports the furthest of what its derivation expects in vain. -/
theorem parse_error_eq_summary {depth : Nat} {g : Grammar} (hg : g.Closed) {input : String}
    (hfits : g.Fits depth g.root input) {failure : Failure} (h : g.parse depth input = .error failure) :
    (∃ outcome trace, Traced g.rules g.root (.start input) outcome trace) ∧
      ∀ outcome trace, Traced g.rules g.root (.start input) outcome trace →
        failure = summary (trace ++ leftover outcome) := by
  obtain ⟨outcome, trace, ht, e⟩ := parseWithin_error hg hg.root hfits h
  refine ⟨⟨outcome, trace, ht⟩, fun outcome' trace' ht' => ?_⟩
  obtain ⟨rfl, rfl⟩ := ht.unique ht'
  exact e

/-- The sum `1+x` breaks off behind the sign: the end of the input, which its one term would have to
be followed by, lies before that and is not reported. -/
theorem parse_error_eq_summary_sums :
    sums.parse 20 "1+x" = .error ⟨2, ["number"]⟩ ∧
      (∃ outcome trace, Traced sums.rules sums.root (.start "1+x") outcome trace) ∧
      ∀ outcome trace, Traced sums.rules sums.root (.start "1+x") outcome trace →
        ⟨2, ["number"]⟩ = summary (trace ++ leftover outcome) := by
  have herror : sums.parse 20 "1+x" = .error ⟨2, ["number"]⟩ := rfl
  have hclosed : sums.Closed := by decide
  have hfits : sums.Fits 20 sums.root "1+x" := by decide
  exact ⟨herror, parse_error_eq_summary (g := sums) hclosed hfits herror⟩

end DiagramText.Peg
