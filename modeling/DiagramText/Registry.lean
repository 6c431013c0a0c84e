import DiagramText.Detector
import DiagramText.Dialect

/-!
# Registries

A registry holds the known kinds of diagrams, each with what recognises its documents, in the order of the
kinds. It has one detector for a kind; registering another one replaces it. A document is of the first known
kind whose detector matches it.
-/

namespace DiagramText

/-- The known kinds in their order, each with its detector. -/
structure Registry (D : Type := Detector) [Recognises D] where
  detectors : List D
  ordered : detectors.Pairwise (Recognises.kind · < Recognises.kind ·)

namespace Registry

section

open Recognises (kind)

variable {D : Type} [Recognises D]

/-- The registry that knows no kind. -/
def empty : Registry D := ⟨[], .nil⟩

instance : EmptyCollection (Registry D) := ⟨empty⟩

instance : Inhabited (Registry D) := ⟨empty⟩

/-- Puts a detector where its kind belongs, and finds the one that it replaces there. -/
def place (d : D) : List D → Option D × List D
  | [] => (none, [d])
  | first :: rest =>
    if kind d < kind first then (none, d :: first :: rest)
    else if kind d = kind first then (some first, d :: rest)
    else
      let (replaced, rest) := place d rest
      (replaced, first :: rest)

theorem mem_place {d e : D} {ds : List D} (h : e ∈ (place d ds).2) : e = d ∨ e ∈ ds := by
  induction ds with
  | nil => exact .inl (List.mem_singleton.1 h)
  | cons first rest ih =>
    rw [place] at h
    split at h
    · exact List.mem_cons.1 h
    · split at h
      · exact (List.mem_cons.1 h).imp_right (List.mem_cons_of_mem _)
      · obtain rfl | h := List.mem_cons.1 h
        · exact .inr List.mem_cons_self
        · exact (ih h).imp_right (List.mem_cons_of_mem _)

theorem place_ordered (d : D) {ds : List D} (h : ds.Pairwise (kind · < kind ·)) :
    (place d ds).2.Pairwise (kind · < kind ·) := by
  induction ds with
  | nil => exact List.pairwise_singleton _ _
  | cons first rest ih =>
    obtain ⟨hfirst, hrest⟩ := List.pairwise_cons.1 h
    rw [place]
    split
    · next hlt =>
      refine List.pairwise_cons.2 ⟨fun e he => ?_, h⟩
      obtain rfl | he := List.mem_cons.1 he
      · exact hlt
      · exact Nat.lt_trans hlt (hfirst e he)
    · next hle =>
      split
      · next heq => exact List.pairwise_cons.2 ⟨fun e he => heq ▸ hfirst e he, hrest⟩
      · next hne =>
        refine List.pairwise_cons.2 ⟨fun e he => ?_, ih hrest⟩
        obtain rfl | he := mem_place he
        · exact Kind.lt_of_not_lt hle hne
        · exact hfirst e he

/-- Registers a detector for its kind, and returns the one that it replaces. -/
def register (r : Registry D) (d : D) : Option D × Registry D :=
  ((place d r.detectors).1, ⟨(place d r.detectors).2, place_ordered d r.ordered⟩)

/-- The registry that also knows the kind of a detector. -/
def insert (r : Registry D) (d : D) : Registry D := (r.register d).2

/-- The detector of a kind, if it is known. -/
def detector? (r : Registry D) (kind : Kind) : Option D := r.detectors.find? (Recognises.kind · = kind)

/-- Whether a kind is known. -/
def contains (r : Registry D) (kind : Kind) : Bool := (r.detector? kind).isSome

/-- The known kinds in their order. -/
def kinds (r : Registry D) : List Kind := r.detectors.map kind

/-- The number of known kinds. -/
def size (r : Registry D) : Nat := r.detectors.length

/-- The kind of documents whose first significant line is this one. -/
def kindOfLine? (r : Registry D) (line : String) : Option Kind :=
  (r.detectors.find? (Recognises.matchesLine · line)).map kind

/-- The kind of a document, or its first significant line where that tells none. -/
def detect (r : Registry D) (input : String) : Except (Option String) Kind :=
  match firstSignificantLine input with
  | none => .error none
  | some line =>
    match r.kindOfLine? line with
    | some kind => .ok kind
    | none => .error (some line)

end

/-- The registry that also knows these kinds, each by its own keywords. -/
def insertKinds (r : Registry) (kinds : List Kind) : Registry :=
  kinds.foldl (fun r kind => r.insert (.ofKind kind)) r

/-- The registry that knows every kind by its own keywords. -/
def all : Registry := empty.insertKinds Kind.all

end Registry

/-- The text that shows the registration of a kind. -/
def Kind.registration (kind : Kind) : String :=
  "Handlers \x7b kind: " ++ kind.tag.capitalize ++ ", grammar: " ++
    quoteVisibly kind.dialect.grammar.name ++ " \x7d"

end DiagramText
