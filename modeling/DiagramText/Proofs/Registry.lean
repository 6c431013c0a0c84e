import Mathlib.Data.List.Find
import Mathlib.Data.List.Sort
import DiagramText.Registry

/-!
# What a registry says

A registry is an ordered table, and `detector?` reads it: `register_eq` says what registering a detector does
to it, `kinds_eq` and `kindOfLine?_eq` that the known kinds and the kind of a line follow from it.

* `detect_after` says what a registry says after any calls that register detectors and clear it. It depends on
  `latest?` alone, the detectors that were registered last for their kinds, and not on the order of the calls.
-/

namespace DiagramText.Registry

open Recognises (kind matchesLine)

variable {D : Type} [Recognises D]

/-! ## The detector of a kind -/

@[simp] theorem detector?_empty (k : Kind) : (empty : Registry D).detector? k = none := rfl

theorem find?_place (d : D) (ds : List D) (k : Kind) :
    (place d ds).2.find? (kind · = k) = if k = kind d then some d else ds.find? (kind · = k) := by
  induction ds with
  | nil => by_cases hk : k = kind d <;> simp [place, hk, eq_comm]
  | cons first rest ih =>
    rw [place]
    split
    · by_cases hk : k = kind d <;> simp [hk, eq_comm]
    · split
      · next heq => by_cases hk : k = kind d <;> simp [hk, ← heq, eq_comm]
      · next hne =>
        by_cases hfirst : kind first = k
        · have : k ≠ kind d := fun e => hne (hfirst.trans e).symm
          simp [hfirst, this]
        · simp [hfirst, ih]

/-- The detector that is replaced is the one of the kind. -/
theorem place_fst (d : D) {ds : List D} (h : ds.Pairwise (kind · < kind ·)) :
    (place d ds).1 = ds.find? (kind · = kind d) := by
  induction ds with
  | nil => rfl
  | cons first rest ih =>
    obtain ⟨hfirst, hrest⟩ := List.pairwise_cons.1 h
    rw [place]
    split
    · next hlt =>
      -- all later kinds are greater still
      have absent : ∀ e ∈ first :: rest, kind e ≠ kind d := fun e he same => by
        obtain rfl | he := List.mem_cons.1 he
        · exact Nat.lt_irrefl _ (same ▸ hlt)
        · exact Nat.lt_irrefl _ (Nat.lt_trans hlt (same ▸ hfirst e he))
      exact (List.find?_eq_none.2 fun e he => by simpa using absent e he).symm
    · split
      · next heq => simp [heq]
      · next hne => simp [ih hrest, Ne.symm hne]

/-- Registering a detector puts it in the place of the one that its kind had, and returns that one. -/
theorem register_eq (r : Registry D) (d : D) :
    (r.register d).1 = r.detector? (kind d) ∧
      ∀ k, (r.register d).2.detector? k = if k = kind d then some d else r.detector? k :=
  ⟨place_fst d r.ordered, find?_place d r.detectors⟩

theorem detector?_insert (r : Registry D) (d : D) (k : Kind) :
    (r.insert d).detector? k = if k = kind d then some d else r.detector? k :=
  (register_eq r d).2 k

/-! ## What follows from the detectors -/

/-- A registry has one detector for a kind. -/
theorem detector?_of_mem {r : Registry D} {d : D} (h : d ∈ r.detectors) : r.detector? (kind d) = some d := by
  obtain ⟨ds, ordered⟩ := r
  rw [detector?]
  induction ds with
  | nil => cases h
  | cons first rest ih =>
    obtain ⟨hfirst, hrest⟩ := List.pairwise_cons.1 ordered
    obtain rfl | h := List.mem_cons.1 h
    · simp
    · have : kind first ≠ kind d := fun e => Nat.lt_irrefl _ (e ▸ hfirst d h)
      simpa [this] using ih hrest h

theorem mem_kinds {r : Registry D} {k : Kind} : k ∈ r.kinds ↔ r.contains k = true := by
  rw [kinds, List.mem_map, contains, detector?, List.find?_isSome]
  simp only [decide_eq_true_eq]

theorem nodup_of_ordered {ks : List Kind} (h : ks.Pairwise (· < ·)) : ks.Nodup :=
  h.imp fun {k k'} (hlt : k < k') (same : k = k') => Nat.lt_irrefl _ (same ▸ hlt)

/-- The known kinds are listed in the order of all kinds. -/
theorem kinds_eq (r : Registry D) : r.kinds = Kind.all.filter r.contains := by
  have hkinds : r.kinds.Pairwise (· < ·) := List.pairwise_map.2 r.ordered
  have hall : (Kind.all.filter r.contains).Pairwise (· < ·) := Kind.all_ordered.filter _
  have hperm : r.kinds.Perm (Kind.all.filter r.contains) := by
    refine (List.perm_ext_iff_of_nodup (nodup_of_ordered hkinds) (nodup_of_ordered hall)).2 fun k => ?_
    rw [mem_kinds, List.mem_filter, and_iff_right k.mem_all]
  exact hperm.eq_of_pairwise (fun _ _ _ _ hlt hgt => absurd (Nat.lt_trans hlt hgt) (Nat.lt_irrefl _))
    hkinds hall

/-- The kind of a line is the first of all kinds whose detector matches it. -/
theorem kindOfLine?_eq (r : Registry D) (line : String) :
    r.kindOfLine? line = Kind.all.find? fun k => (r.detector? k).any (matchesLine · line) := by
  have known : r.kindOfLine? line = r.kinds.find? fun k => (r.detector? k).any (matchesLine · line) := by
    rw [kindOfLine?, kinds, List.find?_map]
    congr 1
    refine List.find?_congr fun d hd => ?_
    simp [detector?_of_mem hd]
  rw [known, kinds_eq, List.find?_filter]
  congr 1
  funext k
  rw [contains]
  cases r.detector? k <;> simp

/-! ## Calls -/

/-- A call that changes a registry. -/
inductive Call (D : Type) where
  | register (d : D)
  | clear

/-- The registry after a call. -/
def call (r : Registry D) : Call D → Registry D
  | .register d => (r.register d).2
  | .clear => empty

/-- The registry after calls. -/
def after (calls : List (Call D)) : Registry D := calls.foldl call empty

/-- The detector that the calls, the last one first, register for the kind before any of them clears the
registry. -/
def latest? (k : Kind) : List (Call D) → Option D
  | [] | .clear :: _ => none
  | .register d :: earlier => if k = kind d then some d else latest? k earlier

/-- A call changes the detectors of a registry as it changes the latest ones. -/
theorem detector?_call {r : Registry D} {earlier : List (Call D)} (h : ∀ k, r.detector? k = latest? k earlier)
    (c : Call D) (k : Kind) : (r.call c).detector? k = latest? k (c :: earlier) := by
  cases c with
  | register d => rw [call, (register_eq r d).2, latest?, h]
  | clear => rw [call, detector?_empty, latest?]

/-- Calls change the detectors of a registry as they change the latest ones. -/
theorem detector?_foldl_call {r : Registry D} {earlier : List (Call D)}
    (h : ∀ k, r.detector? k = latest? k earlier) (calls : List (Call D)) (k : Kind) :
    (calls.foldl call r).detector? k = latest? k (calls.reverse ++ earlier) := by
  induction calls generalizing r earlier with
  | nil => exact h k
  | cons c calls ih =>
    rw [List.foldl_cons, List.reverse_cons, List.append_assoc]
    exact ih (detector?_call h c)

/-- A registry holds the detectors that were registered last. -/
theorem detector?_after (calls : List (Call D)) (k : Kind) :
    (after calls).detector? k = latest? k calls.reverse := by
  have start (k : Kind) : (empty : Registry D).detector? k = latest? k [] := detector?_empty k
  have hrun := detector?_foldl_call start calls k
  rwa [List.append_nil] at hrun

/-- After any calls, the kind of a document is the first of all kinds whose latest detector matches its first
significant line, registering a detector returns the latest one of its kind, and the known kinds are those that
have one, in the order of all kinds. So calls after which the same kinds have detectors that match the same
lines are followed by the same answers, whatever their order. -/
theorem detect_after (calls : List (Call D)) :
    (∀ input, (after calls).detect input =
      match firstSignificantLine input with
      | none => .error none
      | some line =>
        match Kind.all.find? fun k => (latest? k calls.reverse).any (matchesLine · line) with
        | some k => .ok k
        | none => .error (some line)) ∧
    (∀ d, ((after calls).register d).1 = latest? (kind d) calls.reverse) ∧
    ((after calls).kinds = Kind.all.filter fun k => (latest? k calls.reverse).isSome) ∧
    ∀ calls' : List (Call D),
      (∀ k, (latest? k calls.reverse).map matchesLine = (latest? k calls'.reverse).map matchesLine) →
      ∀ input, (after calls).detect input = (after calls').detect input := by
  have hkind (calls : List (Call D)) (line : String) : (after calls).kindOfLine? line =
      Kind.all.find? fun k => (latest? k calls.reverse).any (matchesLine · line) := by
    simp only [kindOfLine?_eq, detector?_after]
  refine ⟨fun input => ?_, fun d => ?_, ?_, fun calls' hsame input => ?_⟩
  · rw [detect]
    cases firstSignificantLine input with
    | none => rfl
    | some line =>
      cases hfound : Kind.all.find? fun k => (latest? k calls.reverse).any (matchesLine · line) with
      | none => simp only [hkind, hfound]
      | some k => simp only [hkind, hfound]
  · rw [(register_eq _ d).1, detector?_after]
  · rw [kinds_eq]
    refine List.filter_congr fun k _ => ?_
    rw [contains, detector?_after]
  · have hany (k : Kind) (line : String) : (latest? k calls.reverse).any (matchesLine · line) =
        (latest? k calls'.reverse).any (matchesLine · line) := by
      have := congrArg (Option.any (· line)) (hsame k)
      simpa only [Option.any_map] using this
    simp only [detect, hkind, hany]

/-- Pie charts, then notices. -/
def pieFirst : List (Call Detector) := [.register (.ofKind .pie), .register (.ofKind .info)]

/-- The same in the other order, behind a clearing and with a pie chart detector that is replaced. -/
def pieLast : List (Call Detector) :=
  [.register (.ofKind .gantt), .clear, .register ⟨.pie, ["tart"], true⟩, .register (.ofKind .info),
    .register (.ofKind .pie)]

/-- The order of the calls and what they replaced cannot be seen. -/
theorem detect_reordered :
    (∀ k, (latest? k pieFirst.reverse).map matchesLine = (latest? k pieLast.reverse).map matchesLine) ∧
      ∀ input, (after pieFirst).detect input = (after pieLast).detect input := by
  have hsame : ∀ k, (latest? k pieFirst.reverse).map matchesLine =
      (latest? k pieLast.reverse).map matchesLine := fun k => by cases k <;> rfl
  exact ⟨hsame, (detect_after pieFirst).2.2.2 pieLast hsame⟩

end DiagramText.Registry
