import DiagramText.Distinct
import DiagramText.Sequence.Diagram
import Mathlib.Data.List.Count
import Mathlib.Data.List.Induction
import Mathlib.Data.List.Nodup
import Mathlib.Data.List.Perm.Subperm

/-!
# Activations

The check of a diagram goes through the events once, with the ids of the activations that run. Seen from a single
id this is a count (`Tally`) that a deactivation lowers, unless nothing runs, in which case it is unmet
(`Diagram.count_eventIssues`).

The count is explained in two ways. For prefixes of the events (`Balanced`): a deactivation is unmet if somewhere
there were more deactivations than activations (`unmet_eq_zero_iff`). And for pairs of events (`Matching`): however
deactivations are matched, one after the other, with activations before them that are still free, those that run at
the end are the activations that stay free, and the unmet ones are the deactivations that are left over
(`Matching.tally_eq`).
-/

namespace DiagramText.Sequence

variable {id : String} {events : List Event} {pairs : List (Nat × Nat)}

/-! ## Counting -/

/-- How many activations of an id run, and how many deactivations of it came when none did. -/
structure Tally where
  running : Nat := 0
  unmet : Nat := 0

/-- The tally of an id after an event. -/
def Tally.after (id : String) (t : Tally) : Event → Tally
  | .activate other => if other = id then { t with running := t.running + 1 } else t
  | .deactivate other =>
    if other = id then
      if 0 < t.running then { t with running := t.running - 1 } else { t with unmet := t.unmet + 1 }
    else t
  | _ => t

/-- The tally of an id after events. -/
def tally (id : String) (events : List Event) : Tally := events.foldl (Tally.after id) {}

theorem tally_concat (id : String) (events : List Event) (event : Event) :
    tally id (events ++ [event]) = (tally id events).after id event := by
  rw [tally, List.foldl_append]
  rfl

namespace Tally

@[simp] theorem after_activate (t : Tally) : t.after id (.activate id) = { t with running := t.running + 1 } :=
  if_pos rfl

@[simp] theorem after_deactivate (t : Tally) : t.after id (.deactivate id) =
    if 0 < t.running then { t with running := t.running - 1 } else { t with unmet := t.unmet + 1 } :=
  if_pos rfl

theorem after_of_ne {event : Event} (activate : event ≠ .activate id) (deactivate : event ≠ .deactivate id)
    (t : Tally) : t.after id event = t := by
  cases event with
  | activate other => exact if_neg fun same => activate (congrArg _ same)
  | deactivate other => exact if_neg fun same => deactivate (congrArg _ same)
  | _ => rfl

end Tally

/-- Every activation runs or is ended by a deactivation, and every other deactivation is unmet. -/
theorem running_add_count (id : String) (events : List Event) :
    (tally id events).running + events.count (.deactivate id) =
      (tally id events).unmet + events.count (.activate id) := by
  induction events using List.reverseRecOn with
  | nil => rfl
  | append_singleton events event ih =>
    rw [tally_concat, List.count_append, List.count_append, List.count_singleton, List.count_singleton]
    by_cases activate : event = .activate id
    · subst activate
      simp
      omega
    · by_cases deactivate : event = .deactivate id
      · subst deactivate
        rw [Tally.after_deactivate]
        split <;> simp <;> omega
      · simpa [Tally.after_of_ne activate deactivate, activate, deactivate] using ih

/-! ## Prefixes -/

/-- Whether the activations of an id are balanced: from the start to any event there are no more deactivations than
activations, and in the end there are as many. -/
structure Balanced (events : List Event) (id : String) : Prop where
  covered : ∀ before, before <+: events → before.count (.deactivate id) ≤ before.count (.activate id)
  settled : events.count (.deactivate id) = events.count (.activate id)

theorem unmet_le_after (t : Tally) (event : Event) : t.unmet ≤ (t.after id event).unmet := by
  cases event with
  | activate other =>
    rw [Tally.after]
    split <;> exact Nat.le_refl _
  | deactivate other =>
    rw [Tally.after]
    split
    · split
      · exact Nat.le_refl _
      · exact Nat.le_succ _
    · exact Nat.le_refl _
  | _ => exact Nat.le_refl _

theorem unmet_eq_zero_of_prefix {before : List Event} (h : (tally id events).unmet = 0) (part : before <+: events) :
    (tally id before).unmet = 0 := by
  induction events using List.reverseRecOn with
  | nil =>
    rw [List.prefix_nil.1 part]
    exact h
  | append_singleton events event ih =>
    obtain rfl | part := List.prefix_concat_iff.1 part
    · exact h
    · rw [tally_concat] at h
      exact ih (Nat.eq_zero_of_le_zero (h ▸ unmet_le_after _ event)) part

/-- All deactivations are met if, and only if, none comes too early. -/
theorem unmet_eq_zero_iff (id : String) (events : List Event) :
    (tally id events).unmet = 0 ↔
      ∀ before, before <+: events → before.count (.deactivate id) ≤ before.count (.activate id) := by
  constructor
  · intro h before part
    have met := unmet_eq_zero_of_prefix h part
    have counts := running_add_count id before
    omega
  · intro covered
    induction events using List.reverseRecOn with
    | nil => rfl
    | append_singleton events event ih =>
      have met := ih fun before part => covered before (part.trans (List.prefix_append events [event]))
      rw [tally_concat]
      cases event with
      | deactivate other =>
        rw [Tally.after]
        split
        · rename_i same
          subst same
          -- were it unmet, nothing would run, and the events up to here would have one deactivation too many
          have counts := running_add_count other events
          have whole := covered _ (List.prefix_refl _)
          rw [List.count_append, List.count_append, List.count_singleton, List.count_singleton] at whole
          simp only [reduceCtorEq, beq_iff_eq, if_false, beq_self_eq_true, if_true] at whole
          split
          · exact met
          · omega
        · exact met
      | activate other =>
        rw [Tally.after]
        split <;> exact met
      | _ => exact met

/-- Nothing runs in the end and nothing is unmet if, and only if, the activations are balanced. -/
theorem balanced_iff : Balanced events id ↔ (tally id events).unmet = 0 ∧ (tally id events).running = 0 := by
  have counts := running_add_count id events
  rw [unmet_eq_zero_iff]
  constructor
  · rintro ⟨covered, settled⟩
    have met := (unmet_eq_zero_iff id events).2 covered
    exact ⟨covered, by omega⟩
  · rintro ⟨covered, stopped⟩
    have met := (unmet_eq_zero_iff id events).2 covered
    exact ⟨covered, by omega⟩

/-! ## Matchings -/

/-- Whether pairs of places match deactivations of an id with activations of it before them, one with one, where
each deactivation is matched if an activation before it is still free. -/
structure Matching (events : List Event) (id : String) (pairs : List (Nat × Nat)) : Prop where
  activates : ∀ p ∈ pairs, events[p.1]? = some (.activate id)
  deactivates : ∀ p ∈ pairs, events[p.2]? = some (.deactivate id)
  earlier : ∀ p ∈ pairs, p.1 < p.2
  activations_nodup : (pairs.map Prod.fst).Nodup
  deactivations_nodup : (pairs.map Prod.snd).Nodup
  none_free : ∀ b, events[b]? = some (.deactivate id) → b ∉ pairs.map Prod.snd →
    ∀ a < b, events[a]? = some (.activate id) → ∃ c < b, (a, c) ∈ pairs

/-- The places of an event that are not among those that are taken. -/
def free (events : List Event) (event : Event) (taken : List Nat) : List Nat :=
  (events.idxsOf event).filter (!taken.contains ·)

theorem mem_free {event : Event} {taken : List Nat} {i : Nat} :
    i ∈ free events event taken ↔ events[i]? = some event ∧ i ∉ taken := by
  simp [free, List.getElem?_eq_some_iff]

theorem length_free_add {event : Event} {taken : List Nat} (distinct : taken.Nodup)
    (known : ∀ i ∈ taken, events[i]? = some event) :
    (free events event taken).length + taken.length = events.count event := by
  have places : ((events.idxsOf event).filter taken.contains).Perm taken := by
    refine (List.perm_ext_iff_of_nodup (List.nodup_idxsOf.filter _) distinct).2 fun i => ?_
    have := known i
    simp_all [List.getElem?_eq_some_iff]
  have split := List.length_eq_length_filter_add (l := events.idxsOf event) taken.contains
  rw [List.length_idxsOf, places.length_eq] at split
  rw [free]
  omega

theorem getElem?_concat_eq_some {event last : Event} {i : Nat} :
    (events ++ [last])[i]? = some event ↔ events[i]? = some event ∨ i = events.length ∧ last = event := by
  rw [List.getElem?_append]
  split
  · rename_i before
    simp [Nat.ne_of_lt before]
  · rename_i behind
    rw [List.getElem?_eq_none (Nat.le_of_not_lt behind), List.getElem?_singleton]
    split
    · simp [show i = events.length by omega]
    · simp [show i ≠ events.length by omega]

namespace Matching

theorem lt_length (m : Matching events id pairs) {p : Nat × Nat} (hp : p ∈ pairs) : p.2 < events.length :=
  (List.getElem?_eq_some_iff.1 (m.deactivates p hp)).1

/-- The pairs of a matching within the events before the last one. -/
theorem init {last : Event} (m : Matching (events ++ [last]) id pairs) :
    Matching events id (pairs.filter (·.2 < events.length)) where
  activates p hp := by
    obtain ⟨hp, before⟩ := List.mem_filter.1 hp
    have before := of_decide_eq_true before
    have earlier := m.earlier p hp
    refine (getElem?_concat_eq_some.1 (m.activates p hp)).resolve_right fun h => ?_
    omega
  deactivates p hp := by
    obtain ⟨hp, before⟩ := List.mem_filter.1 hp
    have before := of_decide_eq_true before
    refine (getElem?_concat_eq_some.1 (m.deactivates p hp)).resolve_right fun h => ?_
    omega
  earlier p hp := m.earlier p (List.mem_of_mem_filter hp)
  activations_nodup := (List.filter_sublist.map _).nodup m.activations_nodup
  deactivations_nodup := (List.filter_sublist.map _).nodup m.deactivations_nodup
  none_free b hb unmatched a before ha := by
    have place : b < events.length := (List.getElem?_eq_some_iff.1 hb).1
    have unmatched' : b ∉ pairs.map Prod.snd := by
      intro matched
      obtain ⟨p, hp, rfl⟩ := List.mem_map.1 matched
      exact unmatched (List.mem_map.2 ⟨p, List.mem_filter.2 ⟨hp, decide_eq_true place⟩, rfl⟩)
    obtain ⟨c, hc, hp⟩ := m.none_free b (getElem?_concat_eq_some.2 (.inl hb)) unmatched' a before
      (getElem?_concat_eq_some.2 (.inl ha))
    exact ⟨c, hc, List.mem_filter.2 ⟨hp, decide_eq_true (Nat.lt_trans hc place)⟩⟩

/-- Before the last event there are all pairs but the one of the last event. -/
theorem filter_eq {last : Event} (m : Matching (events ++ [last]) id pairs)
    (unmatched : ∀ a, (a, events.length) ∉ pairs) : pairs.filter (·.2 < events.length) = pairs := by
  refine List.filter_eq_self.2 fun p hp => decide_eq_true ?_
  have inside := m.lt_length hp
  rw [List.length_append, List.length_singleton] at inside
  have other : p.2 ≠ events.length := fun same => unmatched p.1 (same ▸ hp)
  omega

theorem length_filter {last : Event} (m : Matching (events ++ [last]) id pairs) {a : Nat}
    (matched : (a, events.length) ∈ pairs) : (pairs.filter (·.2 < events.length)).length + 1 = pairs.length := by
  have once : (pairs.map Prod.snd).count events.length = 1 :=
    List.count_eq_one_of_mem m.deactivations_nodup (List.mem_map.2 ⟨_, matched, rfl⟩)
  have rest : pairs.countP (fun p => !decide (p.2 < events.length)) = 1 := by
    rw [← once, List.count, List.countP_map]
    refine List.countP_congr fun p hp => ?_
    have inside := m.lt_length hp
    rw [List.length_append, List.length_singleton] at inside
    simp
    omega
  have split := List.length_eq_length_filter_add (l := pairs) (fun p => decide (p.2 < events.length))
  rw [← List.countP_eq_length_filter (p := fun p : Nat × Nat => !decide (p.2 < events.length)), rest] at split
  exact split.symm

theorem length_free_activations (m : Matching events id pairs) :
    (free events (.activate id) (pairs.map Prod.fst)).length + pairs.length = events.count (.activate id) := by
  have known : ∀ i ∈ pairs.map Prod.fst, events[i]? = some (.activate id) := List.forall_mem_map.2 m.activates
  have split := length_free_add m.activations_nodup known
  rwa [List.length_map] at split

theorem length_free_deactivations (m : Matching events id pairs) :
    (free events (.deactivate id) (pairs.map Prod.snd)).length + pairs.length = events.count (.deactivate id) := by
  have known : ∀ i ∈ pairs.map Prod.snd, events[i]? = some (.deactivate id) := List.forall_mem_map.2 m.deactivates
  have split := length_free_add m.deactivations_nodup known
  rwa [List.length_map] at split

/-- An activation is free before the deactivation with which it is matched. -/
theorem mem_free_init {last : Event} (m : Matching (events ++ [last]) id pairs) {a : Nat}
    (matched : (a, events.length) ∈ pairs) :
    a ∈ free events (.activate id) ((pairs.filter (·.2 < events.length)).map Prod.fst) := by
  refine mem_free.2 ⟨?_, fun taken => ?_⟩
  · have earlier := m.earlier _ matched
    refine (getElem?_concat_eq_some.1 (m.activates _ matched)).resolve_right fun h => ?_
    simp only at earlier h
    omega
  · obtain ⟨p, hp, same⟩ := List.mem_map.1 taken
    obtain ⟨hp, before⟩ := List.mem_filter.1 hp
    obtain rfl := List.inj_on_of_nodup_map m.activations_nodup hp matched same
    exact Nat.lt_irrefl _ (of_decide_eq_true before)

/-- If a deactivation at the end stays unmatched, no activation is free. -/
theorem free_eq_nil (m : Matching (events ++ [.deactivate id]) id pairs)
    (unmatched : ∀ a, (a, events.length) ∉ pairs) : free events (.activate id) (pairs.map Prod.fst) = [] := by
  refine List.eq_nil_iff_forall_not_mem.2 fun a ha => ?_
  obtain ⟨ha, untaken⟩ := mem_free.1 ha
  have place : a < events.length := (List.getElem?_eq_some_iff.1 ha).1
  have unmatched' : events.length ∉ pairs.map Prod.snd := by
    intro matched
    obtain ⟨p, hp, same⟩ := List.mem_map.1 matched
    exact unmatched p.1 (same ▸ hp)
  obtain ⟨c, -, hp⟩ := m.none_free events.length List.getElem?_concat_length unmatched' a place
    (getElem?_concat_eq_some.2 (.inl ha))
  exact untaken (List.mem_map.2 ⟨_, hp, rfl⟩)

/-- The free activations of any matching run in the end, and what it leaves over is unmet. -/
theorem tally_eq (m : Matching events id pairs) :
    (tally id events).running = (free events (.activate id) (pairs.map Prod.fst)).length ∧
      (tally id events).unmet = (free events (.deactivate id) (pairs.map Prod.snd)).length := by
  have free_activations := m.length_free_activations
  have free_deactivations := m.length_free_deactivations
  have counts := running_add_count id events
  suffices running : (tally id events).running + pairs.length = events.count (.activate id) by omega
  clear free_activations free_deactivations counts
  induction events using List.reverseRecOn generalizing pairs with
  | nil =>
    cases pairs with
    | nil => rfl
    | cons p pairs => cases m.lt_length List.mem_cons_self
  | append_singleton events event ih =>
    have before := ih m.init
    rw [tally_concat, List.count_append, List.count_singleton]
    by_cases matched : ∃ a, (a, events.length) ∈ pairs
    · obtain ⟨a, matched⟩ := matched
      obtain rfl : event = .deactivate id := by
        simpa using getElem?_concat_eq_some.1 (m.deactivates _ matched)
      have someFree := List.length_pos_of_mem (m.mem_free_init matched)
      have frees := m.init.length_free_activations
      have lengths := m.length_filter matched
      rw [Tally.after_deactivate, if_pos (by omega)]
      simp
      omega
    · rw [not_exists] at matched
      rw [m.filter_eq matched] at before
      by_cases activate : event = .activate id
      · subst activate
        simp
        omega
      by_cases deactivate : event = .deactivate id
      · subst deactivate
        have frees := m.init.length_free_activations
        rw [m.filter_eq matched, m.free_eq_nil matched, List.length_nil] at frees
        rw [Tally.after_deactivate, if_neg (by omega)]
        simpa using before
      · simpa [Tally.after_of_ne activate deactivate, activate] using before

theorem concat_of_ne (m : Matching events id pairs) {event : Event} (h : event ≠ .deactivate id) :
    Matching (events ++ [event]) id pairs where
  activates p hp := getElem?_concat_eq_some.2 (.inl (m.activates p hp))
  deactivates p hp := getElem?_concat_eq_some.2 (.inl (m.deactivates p hp))
  earlier := m.earlier
  activations_nodup := m.activations_nodup
  deactivations_nodup := m.deactivations_nodup
  none_free b hb unmatched a before ha := by
    have hb := (getElem?_concat_eq_some.1 hb).resolve_right fun last => h last.2
    have place : b < events.length := (List.getElem?_eq_some_iff.1 hb).1
    refine m.none_free b hb unmatched a before ((getElem?_concat_eq_some.1 ha).resolve_right fun last => ?_)
    omega

/-- A deactivation at the end is left over if no activation is free. -/
theorem concat_of_free_eq_nil (m : Matching events id pairs)
    (none : free events (.activate id) (pairs.map Prod.fst) = []) :
    Matching (events ++ [.deactivate id]) id pairs where
  activates p hp := getElem?_concat_eq_some.2 (.inl (m.activates p hp))
  deactivates p hp := getElem?_concat_eq_some.2 (.inl (m.deactivates p hp))
  earlier := m.earlier
  activations_nodup := m.activations_nodup
  deactivations_nodup := m.deactivations_nodup
  none_free b hb unmatched a before ha := by
    have ha : events[a]? = some (.activate id) := (getElem?_concat_eq_some.1 ha).resolve_right (by simp)
    obtain hb | ⟨rfl, -⟩ := getElem?_concat_eq_some.1 hb
    · exact m.none_free b hb unmatched a before ha
    · have taken : a ∈ pairs.map Prod.fst := by
        by_contra untaken
        exact List.ne_nil_of_mem (mem_free.2 ⟨ha, untaken⟩) none
      obtain ⟨p, hp, rfl⟩ := List.mem_map.1 taken
      exact ⟨p.2, m.lt_length hp, hp⟩

/-- A deactivation at the end may be matched with any activation that is free. -/
theorem concat_of_mem_free (m : Matching events id pairs) {a : Nat}
    (ha : a ∈ free events (.activate id) (pairs.map Prod.fst)) :
    Matching (events ++ [.deactivate id]) id ((a, events.length) :: pairs) where
  activates := by
    refine List.forall_mem_cons.2 ⟨getElem?_concat_eq_some.2 (.inl (mem_free.1 ha).1), fun p hp => ?_⟩
    exact getElem?_concat_eq_some.2 (.inl (m.activates p hp))
  deactivates := by
    refine List.forall_mem_cons.2 ⟨List.getElem?_concat_length, fun p hp => ?_⟩
    exact getElem?_concat_eq_some.2 (.inl (m.deactivates p hp))
  earlier := List.forall_mem_cons.2 ⟨(List.getElem?_eq_some_iff.1 (mem_free.1 ha).1).1, m.earlier⟩
  activations_nodup := List.nodup_cons.2 ⟨(mem_free.1 ha).2, m.activations_nodup⟩
  deactivations_nodup := by
    refine List.nodup_cons.2 ⟨fun taken => ?_, m.deactivations_nodup⟩
    obtain ⟨p, hp, same⟩ := List.mem_map.1 taken
    exact Nat.ne_of_lt (m.lt_length hp) same
  none_free b hb unmatched a' before ha' := by
    rw [List.map_cons, List.mem_cons, not_or] at unmatched
    have hb := (getElem?_concat_eq_some.1 hb).resolve_right fun last => unmatched.1 last.1
    have ha' : events[a']? = some (.activate id) := (getElem?_concat_eq_some.1 ha').resolve_right (by simp)
    obtain ⟨c, hc, hp⟩ := m.none_free b hb unmatched.2 a' before ha'
    exact ⟨c, hc, List.mem_cons_of_mem _ hp⟩

end Matching

/-- Deactivations can be matched one after the other. -/
theorem exists_matching (events : List Event) (id : String) : ∃ pairs, Matching events id pairs := by
  induction events using List.reverseRecOn with
  | nil => exact ⟨[], nofun, nofun, nofun, .nil, .nil, nofun⟩
  | append_singleton events event ih =>
    obtain ⟨pairs, m⟩ := ih
    by_cases deactivate : event = .deactivate id
    · subst deactivate
      cases hfree : free events (.activate id) (pairs.map Prod.fst) with
      | nil => exact ⟨pairs, m.concat_of_free_eq_nil hfree⟩
      | cons a others => exact ⟨_, m.concat_of_mem_free (hfree ▸ List.mem_cons_self)⟩
    · exact ⟨pairs, m.concat_of_ne deactivate⟩

/-! ## Issues -/

namespace Diagram

/-- The issue of a deactivation when nothing runs. -/
def inactive (id : String) : Issue := .invalidEntity id "deactivated while inactive"

/-- The issue of an activation that still runs in the end. -/
def unclosed (id : String) : Issue := .invalidEntity id "activation never closed"

variable (d : Diagram)

theorem count_unknown (context : String) (ids : List String) (id reason : String) :
    (d.unknown context ids).count (.invalidEntity id reason) = 0 := by
  refine List.count_eq_zero_of_not_mem fun h => ?_
  obtain ⟨other, -, e⟩ := List.mem_map.1 h
  cases e

/-- What an event adds to the issues, and what runs after it. -/
theorem eventIssues_cons (active : List String) (t : Tally) (same : active.count id = t.running) (event : Event)
    (events : List Event) :
    ∃ own next, d.eventIssues active (event :: events) =
        (own ++ (d.eventIssues next events).1, (d.eventIssues next events).2) ∧
      next.count id = (t.after id event).running ∧
      own.count (inactive id) + t.unmet = (t.after id event).unmet ∧ own.count (unclosed id) = 0 := by
  cases event with
  | message m => exact ⟨_, active, rfl, same, by simp [inactive, count_unknown, Tally.after], d.count_unknown ..⟩
  | note n => exact ⟨_, active, rfl, same, by simp [inactive, count_unknown, Tally.after], d.count_unknown ..⟩
  | activate other =>
    refine ⟨_, other :: active, rfl, ?_, ?_, d.count_unknown ..⟩
    · by_cases here : other = id <;> simp [Tally.after, here, same]
    · by_cases here : other = id <;> simp [Tally.after, here, inactive, count_unknown]
  | deactivate other =>
    by_cases here : other = id
    · subst here
      by_cases runs : other ∈ active
      · have positive : 0 < t.running := same ▸ List.count_pos_iff.2 runs
        exact ⟨d.unknown "activation" [other], active.erase other, by simp [eventIssues, runs],
          by simp [positive, same], by simp [positive, inactive, count_unknown], d.count_unknown ..⟩
      · have stopped : t.running = 0 := same ▸ List.count_eq_zero_of_not_mem runs
        exact ⟨d.unknown "activation" [other] ++ [inactive other], active, by simp [eventIssues, runs, inactive],
          by simp [stopped, same], by simp [stopped, inactive, count_unknown, Nat.add_comm],
          by simp [unclosed, inactive, count_unknown]⟩
    · have still : t.after id (.deactivate other) = t := if_neg here
      by_cases runs : other ∈ active
      · exact ⟨d.unknown "activation" [other], active.erase other, by simp [eventIssues, runs],
          by rw [still, List.count_erase_of_ne (Ne.symm here), same], by simp [still, inactive, count_unknown],
          d.count_unknown ..⟩
      · exact ⟨d.unknown "activation" [other] ++ [inactive other], active, by simp [eventIssues, runs, inactive],
          by rw [still, same], by simp [still, here, inactive, count_unknown],
          by simp [unclosed, inactive, count_unknown]⟩
  | blockStart | blockBranch | blockEnd =>
    exact ⟨[], active, rfl, same, Nat.zero_add _, rfl⟩

theorem count_eventIssues (active : List String) (t : Tally) (same : active.count id = t.running) :
    (d.eventIssues active events).2.count id = (events.foldl (Tally.after id) t).running ∧
      (d.eventIssues active events).1.count (inactive id) + t.unmet = (events.foldl (Tally.after id) t).unmet ∧
      (d.eventIssues active events).1.count (unclosed id) = 0 := by
  induction events generalizing active t with
  | nil => exact ⟨same, Nat.zero_add _, rfl⟩
  | cons event events ih =>
    obtain ⟨own, next, e, running, unmet, others⟩ := d.eventIssues_cons active t same event events
    obtain ⟨left, found, closed⟩ := ih next (t.after id event) running
    rw [e, List.count_append, List.count_append, List.foldl_cons, others, closed]
    exact ⟨left, by omega, rfl⟩

/-- The ids whose activations still run in the end. -/
def unclosedIds : List String :=
  (d.eventIssues [] d.events).2.eraseDups.mergeSort fun a b => !decide (b < a)

theorem issues_eq :
    d.issues = Issue.ofCount d.participants.length ++ (d.eventIssues [] d.events).1 ++ d.unclosedIds.map unclosed :=
  rfl

theorem count_unclosedIds (id : String) :
    d.unclosedIds.count id = if (tally id d.events).running = 0 then 0 else 1 := by
  have left : (d.eventIssues [] d.events).2.count id = (tally id d.events).running := (d.count_eventIssues [] {} rfl).1
  rw [unclosedIds, (List.mergeSort_perm _ _).count_eq, ← left]
  by_cases runs : id ∈ (d.eventIssues [] d.events).2
  · rw [if_neg (Nat.ne_of_gt (List.count_pos_iff.2 runs))]
    exact List.count_eq_one_of_mem (Distinct.nodup_eraseDups _) (List.mem_eraseDups.2 runs)
  · rw [if_pos (List.count_eq_zero_of_not_mem runs)]
    exact List.count_eq_zero_of_not_mem (List.mem_eraseDups.not.2 runs)

theorem count_ofCount (number : Nat) (id reason : String) :
    (Issue.ofCount number).count (.invalidEntity id reason) = 0 := by
  rw [Issue.ofCount]
  split
  · exact List.count_eq_zero_of_not_mem fun h => nomatch List.mem_singleton.1 h
  · exact List.count_nil

/-- The issues of an id are told by its tally. -/
theorem count_issues (id : String) :
    d.issues.count (inactive id) = (tally id d.events).unmet ∧
      d.issues.count (unclosed id) = if (tally id d.events).running = 0 then 0 else 1 := by
  obtain ⟨found, closed⟩ : (d.eventIssues [] d.events).1.count (inactive id) + 0 = (tally id d.events).unmet ∧
      (d.eventIssues [] d.events).1.count (unclosed id) = 0 := (d.count_eventIssues [] {} rfl).2
  have empty : (Issue.ofCount d.participants.length).count (inactive id) = 0 := count_ofCount ..
  have empty' : (Issue.ofCount d.participants.length).count (unclosed id) = 0 := count_ofCount ..
  have injective : Function.Injective unclosed := fun a b e => by simpa [unclosed] using e
  have others : (d.unclosedIds.map unclosed).count (inactive id) = 0 := by
    refine List.count_eq_zero_of_not_mem fun hmem => ?_
    obtain ⟨other, -, e⟩ := List.mem_map.1 hmem
    simp [unclosed, inactive] at e
  constructor
  · rw [issues_eq, List.count_append, List.count_append, empty, others, ← found, Nat.zero_add]
  · rw [issues_eq, List.count_append, List.count_append, empty', closed,
      List.count_map_of_injective _ unclosed injective, count_unclosedIds, Nat.zero_add]

end Diagram

/-- The activations of a diagram have no issues exactly if those of every id are balanced. For every id, however its
deactivations are matched one after the other with activations before them that are still free, there is an issue
for each deactivation that is left over, and one more if an activation stays free. -/
theorem activation_issues_iff (d : Diagram) :
    ((∀ id, .invalidEntity id "deactivated while inactive" ∉ d.issues ∧
        .invalidEntity id "activation never closed" ∉ d.issues) ↔ ∀ id, Balanced d.events id) ∧
      ∀ id, (∃ pairs, Matching d.events id pairs) ∧ ∀ pairs, Matching d.events id pairs →
        d.issues.count (.invalidEntity id "deactivated while inactive") =
            (free d.events (.deactivate id) (pairs.map Prod.snd)).length ∧
          d.issues.count (.invalidEntity id "activation never closed") =
            if free d.events (.activate id) (pairs.map Prod.fst) = [] then 0 else 1 := by
  constructor
  · refine forall_congr' fun id => ?_
    obtain ⟨found, closed⟩ := d.count_issues id
    rw [balanced_iff, ← found, ← List.count_eq_zero, ← List.count_eq_zero]
    refine and_congr_right fun _ => ?_
    rw [← Diagram.unclosed, closed]
    simp
  · intro id
    refine ⟨exists_matching d.events id, fun pairs m => ?_⟩
    obtain ⟨found, closed⟩ := d.count_issues id
    obtain ⟨running, unmet⟩ := m.tally_eq
    rw [unmet] at found
    simp only [running, List.length_eq_zero_iff] at closed
    exact ⟨found, closed⟩

end DiagramText.Sequence
