import DiagramText.Proofs.Peg.Grammar
import DiagramText.Proofs.Peg.Match
import Mathlib.Data.List.Forall2

/-!
# Parts that match in the same way

A rule is matched through its parts only: where they match in the same way, two rules of the same form do.
There is a lemma for every form, from `sequence_congr` to `quiet_congr`, in which the references on the two
sides may be matched in different ways. `matchWith_congr_refs` is their case for one rule: how names are
matched that it does not refer to makes no difference to it.
-/

namespace DiagramText.Peg

variable {call call' : String → Matcher} {r r' : Rule} {rules rules' : List Rule}

theorem matchAll_congr (h : List.Forall₂ (fun r r' => r.matchWith call = r'.matchWith call') rules rules')
    (silent : Bool) (a : Fragment) (cur : Cursor) (f : Frontier) :
    Rule.matchAll call rules silent a cur f = Rule.matchAll call' rules' silent a cur f := by
  induction h generalizing a cur f with
  | nil => rfl
  | cons hr _ ih =>
    rw [Rule.matchAll, Rule.matchAll, hr]
    split
    · rfl
    · exact ih _ _ _

theorem matchAny_congr (h : List.Forall₂ (fun r r' => r.matchWith call = r'.matchWith call') rules rules')
    (silent : Bool) (cur : Cursor) (f : Frontier) :
    Rule.matchAny call rules silent cur f = Rule.matchAny call' rules' silent cur f := by
  induction h generalizing f with
  | nil => rfl
  | cons hr _ ih =>
    rw [Rule.matchAny, Rule.matchAny, hr]
    split
    · exact ih _
    · rfl

theorem sequence_congr (h : List.Forall₂ (fun r r' => r.matchWith call = r'.matchWith call') rules rules') :
    (Rule.sequence rules).matchWith call = (Rule.sequence rules').matchWith call' := by
  funext silent cur f
  rw [Rule.matchWith, Rule.matchWith, matchAll_congr h]

theorem choice_congr (h : List.Forall₂ (fun r r' => r.matchWith call = r'.matchWith call') rules rules') :
    (Rule.choice rules).matchWith call = (Rule.choice rules').matchWith call' := by
  funext silent cur f
  rw [Rule.matchWith, Rule.matchWith, matchAny_congr h]

section

variable (h : r.matchWith call = r'.matchWith call')
include h

theorem repeated_congr (least : Nat) (most : Option Nat) :
    (Rule.repeated r least most).matchWith call = (Rule.repeated r' least most).matchWith call' := by
  funext silent cur f
  rw [Rule.matchWith, Rule.matchWith, h]

theorem optional_congr : (Rule.optional r).matchWith call = (Rule.optional r').matchWith call' := by
  funext silent cur f
  rw [Rule.matchWith, Rule.matchWith, h]

theorem notAhead_congr : (Rule.notAhead r).matchWith call = (Rule.notAhead r').matchWith call' := by
  funext silent cur f
  rw [Rule.matchWith, Rule.matchWith, h]

theorem capture_congr (field : String) :
    (Rule.capture field r).matchWith call = (Rule.capture field r').matchWith call' := by
  funext silent cur f
  rw [Rule.matchWith, Rule.matchWith, h]

theorem labelled_congr (label : String) :
    (Rule.labelled label r).matchWith call = (Rule.labelled label r').matchWith call' := by
  funext silent cur f
  rw [Rule.matchWith, Rule.matchWith, h]

theorem quiet_congr : (Rule.quiet r).matchWith call = (Rule.quiet r').matchWith call' := by
  funext silent cur f
  rw [Rule.matchWith, Rule.matchWith, h]

end

/-- A rule is matched in the same way wherever the names that it refers to are. -/
theorem matchWith_congr_refs (h : ∀ name ∈ r.refs, call name = call' name) :
    r.matchWith call = r.matchWith call' := by
  have each (rules : List Rule) (ih : ∀ r ∈ rules, (∀ name ∈ r.refs, call name = call' name) →
      r.matchWith call = r.matchWith call') (h : ∀ name ∈ Rule.refsAll rules, call name = call' name) :
      List.Forall₂ (fun r r' => r.matchWith call = r'.matchWith call') rules rules :=
    List.forall₂_same.2 fun r hr => ih r hr fun name hname => h name (mem_refsAll hr hname)
  induction r using Rule.ind with
  | literal | chars =>
    funext silent cur f
    rw [Rule.matchWith, Rule.matchWith]
  | sequence rules ih => exact sequence_congr (each rules ih h)
  | choice rules ih => exact choice_congr (each rules ih h)
  | repeated r least most ih => exact repeated_congr (ih h) least most
  | optional r ih => exact optional_congr (ih h)
  | notAhead r ih => exact notAhead_congr (ih h)
  | capture field r ih => exact capture_congr (ih h) field
  | labelled label r ih => exact labelled_congr (ih h) label
  | quiet r ih => exact quiet_congr (ih h)
  | ref name =>
    funext silent cur f
    rw [Rule.matchWith, Rule.matchWith, h name (List.mem_singleton.2 rfl)]

end DiagramText.Peg
