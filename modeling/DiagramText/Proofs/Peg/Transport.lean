import DiagramText.Proofs.Peg.Outcome

/-!
# Carrying parses from one text to another

A `Transport` carries the positions of one text to positions of another, and every span between two of
them to the span between their images. A rule is carried by it (`Transport.Carries`) when it matches at
an image exactly where it matches at the original, ends at the image of where it ended there, and
captures the same fields with every span carried along (`Tree.map`).

Which rules are carried is decided by literals and character classes alone: every other form of rule is
carried when its parts are (`carries_sequence` to `carries_ref`), and so a grammar is carried when
everything in it is (`Transport.Carries.of_atoms`).
-/

namespace DiagramText

/-! ## Trees with their spans changed -/

mutual

/-- The node with every span changed by `f`. -/
def Node.map (f : Token → Token) : Node → Node
  | .token t => .token (f t)
  | .tree t => .tree (t.map f)
  | .list ts => .list (mapAll f ts)

/-- The tree with every span changed by `f`, its own and those below it. -/
def Tree.map (f : Token → Token) : Tree → Tree
  | .mk span fields => .mk (f span) (mapFields f fields)

/-- The trees with every span changed by `f`. -/
def mapAll (f : Token → Token) : List Tree → List Tree
  | [] => []
  | t :: ts => t.map f :: mapAll f ts

/-- The fields with every span changed by `f`. -/
def mapFields (f : Token → Token) : List (String × Node) → List (String × Node)
  | [] => []
  | (name, node) :: fields => (name, node.map f) :: mapFields f fields

end

section

variable {f : Token → Token}

theorem mapAll_eq (ts : List Tree) : mapAll f ts = ts.map (Tree.map f) := by
  induction ts with
  | nil => rfl
  | cons t ts ih => rw [mapAll, ih, List.map_cons]

theorem mapFields_append (fields more : List (String × Node)) :
    mapFields f (fields ++ more) = mapFields f fields ++ mapFields f more := by
  induction fields with
  | nil => rfl
  | cons field fields ih => rw [List.cons_append, mapFields, mapFields, ih, List.cons_append]

@[simp] theorem mapFields_eq_nil {fields : List (String × Node)} :
    mapFields f fields = [] ↔ fields = [] := by
  cases fields <;> simp [mapFields]

theorem Tree.fields_map (t : Tree) : (t.map f).fields = mapFields f t.fields := by
  cases t with
  | mk span fields => rw [Tree.map, Tree.fields, Tree.fields]

end

namespace Peg

/-! ## Fragments with their spans changed -/

/-- The fragment with every span changed by `f`. -/
def Fragment.map (f : Token → Token) : Fragment → Fragment
  | fields fs => fields (mapFields f fs)
  | items ts => items (mapAll f ts)

namespace Fragment

variable {f : Token → Token}

@[simp] theorem map_empty : Fragment.empty.map f = .empty := rfl

@[simp] theorem map_items_nil : (Fragment.items []).map f = .items [] := rfl

theorem toFields_map (a : Fragment) : (a.map f).toFields = mapFields f a.toFields := by
  cases a with
  | fields fs => rfl
  | items ts =>
    show (mapAll f ts).flatMap Tree.fields = mapFields f (ts.flatMap Tree.fields)
    induction ts with
    | nil => rfl
    | cons t ts ih =>
      rw [mapAll, List.flatMap_cons, List.flatMap_cons, mapFields_append, ih, Tree.fields_map]

theorem map_append (a b : Fragment) : (a.append b).map f = (a.map f).append (b.map f) := by
  rw [append, append, map, toFields_map, toFields_map, mapFields_append]

theorem map_toNode (a : Fragment) (span : Token) :
    (a.toNode span).map f = (a.map f).toNode (f span) := by
  rcases a with (_ | ⟨field, fs⟩) | (_ | ⟨t, ts⟩) <;> rfl

theorem map_toTree (a : Fragment) (span : Token) :
    (a.toTree span).map f = (a.map f).toTree (f span) := by
  rw [toTree, toTree, toFields_map, Tree.map]

theorem map_round (a : Fragment) (span : Token) :
    mapAll f (a.round span) = (a.map f).round (f span) := by
  by_cases h : a.toFields = []
  · simp only [round, toFields_map, mapFields_eq_nil, h, ↓reduceIte, mapAll]
  · simp only [round, toFields_map, mapFields_eq_nil, h, ↓reduceIte, mapAll, map_toTree]

theorem map_behind (a : Fragment) (earlier : List Tree) :
    (a.behind earlier).map f = (a.map f).behind (mapAll f earlier) := by
  cases a with
  | fields fs => rfl
  | items ts =>
    show items (mapAll f (earlier ++ ts)) = items (mapAll f earlier ++ mapAll f ts)
    rw [mapAll_eq, mapAll_eq, mapAll_eq, List.map_append]

end Fragment

/-! ## Transports -/

/-- Carries the valid positions of one text to another, and the spans between them. -/
structure Transport where
  Valid : Cursor → Prop
  cursor : Cursor → Cursor
  token : Token → Token
  valid_of_reaches {cur next : Cursor} : Valid cur → cur.Reaches next → Valid next
  cursor_inj {cur next : Cursor} : Valid cur → cur.Reaches next → cursor next = cursor cur → next = cur
  /-- The span between two images is the image of the span. -/
  spanTo_cursor {cur next : Cursor} : Valid cur → cur.Reaches next →
    (cursor cur).spanTo (cursor next) = token (cur.spanTo next)

namespace Transport

variable (T : Transport)

/-- Where a match ends and what it captured, carried along. -/
def result (found : Cursor × Fragment) : Cursor × Fragment := (T.cursor found.1, found.2.map T.token)

/-- A rule matches at the images of positions as it does at the positions. -/
def Carries (table : List (String × Rule)) (depth : Nat) (r : Rule) : Prop :=
  ∀ cur, T.Valid cur → r.outcome table depth (T.cursor cur) = (r.outcome table depth cur).map T.result

variable {T} {table : List (String × Rule)} {depth : Nat} {r : Rule} {rules : List Rule}

theorem carries_sequence (h : ∀ r ∈ rules, T.Carries table depth r) :
    T.Carries table depth (.sequence rules) := by
  induction rules with
  | nil =>
    intro cur _
    rw [outcome_sequence_nil, outcome_sequence_nil]
    rfl
  | cons r rules ih =>
    intro cur hcur
    rw [outcome_sequence_cons, outcome_sequence_cons, h r List.mem_cons_self cur hcur]
    cases hr : r.outcome table depth cur with
    | none => rfl
    | some found =>
      obtain ⟨next, a⟩ := found
      have hnext := T.valid_of_reaches hcur (outcome_reaches hr)
      have hrest := ih (fun r' h' => h r' (List.mem_cons_of_mem _ h')) next hnext
      simp only [Option.map_some, Option.bind_some, result, hrest, Option.map_map]
      refine congrArg (Option.map · _) (funext fun found => ?_)
      rw [Function.comp_apply, Function.comp_apply, result, result, Fragment.map_append]

theorem carries_choice (h : ∀ r ∈ rules, T.Carries table depth r) :
    T.Carries table depth (.choice rules) := by
  induction rules with
  | nil =>
    intro cur _
    rw [outcome_choice_nil, outcome_choice_nil]
    rfl
  | cons r rules ih =>
    intro cur hcur
    rw [outcome_choice_cons, outcome_choice_cons, h r List.mem_cons_self cur hcur,
      ih (fun r' h' => h r' (List.mem_cons_of_mem _ h')) cur hcur]
    cases r.outcome table depth cur <;> rfl

theorem carries_repeated (h : T.Carries table depth r) (least : Nat) (most : Option Nat) :
    T.Carries table depth (.repeated r least most) := by
  intro cur hcur
  induction hn : cur.rest.length using Nat.strongRecOn generalizing cur least most with
  | ind n ih =>
    rw [outcome_repeated, outcome_repeated, h cur hcur]
    by_cases hmost : most = some 0
    · simp only [hmost, ↓reduceIte]
      split <;> rfl
    · simp only [hmost, ↓reduceIte]
      cases hr : r.outcome table depth cur with
      | none =>
        simp only [Option.map_none]
        split <;> rfl
      | some found =>
        obtain ⟨next, a⟩ := found
        have hreach := outcome_reaches hr
        have hspan := T.spanTo_cursor hcur hreach
        simp only [Option.map_some, result, hspan, ← Fragment.map_round]
        by_cases hne : next = cur
        · subst hne
          simp only [↓reduceIte]
          split <;> rfl
        · have hne' : T.cursor next ≠ T.cursor cur := fun e => hne (T.cursor_inj hcur hreach e)
          have hlt := hreach.length_lt hne
          have hrest := ih next.rest.length (hn ▸ hlt) (least - 1) (most.map (· - 1)) next
            (T.valid_of_reaches hcur hreach) rfl
          simp only [hne, hne', ↓reduceIte, hrest, Option.map_map]
          refine congrArg (Option.map · _) (funext fun found => ?_)
          rw [Function.comp_apply, Function.comp_apply, result, result, Fragment.map_behind]

theorem carries_optional (h : T.Carries table depth r) : T.Carries table depth (.optional r) := by
  intro cur hcur
  rw [outcome_optional, outcome_optional, h cur hcur]
  cases r.outcome table depth cur <;> rfl

theorem carries_notAhead (h : T.Carries table depth r) : T.Carries table depth (.notAhead r) := by
  intro cur hcur
  rw [outcome_notAhead, outcome_notAhead, h cur hcur]
  cases r.outcome table depth cur <;> rfl

theorem carries_capture (h : T.Carries table depth r) (field : String) :
    T.Carries table depth (.capture field r) := by
  intro cur hcur
  rw [outcome_capture, outcome_capture, h cur hcur]
  cases hr : r.outcome table depth cur with
  | none => rfl
  | some found =>
    obtain ⟨next, a⟩ := found
    have hspan := T.spanTo_cursor hcur (outcome_reaches hr)
    simp only [Option.map_some, result, hspan, ← Fragment.map_toNode]
    rfl

theorem carries_labelled (h : T.Carries table depth r) (label : String) :
    T.Carries table depth (.labelled label r) := by
  intro cur hcur
  rw [outcome_labelled, outcome_labelled, h cur hcur]

theorem carries_quiet (h : T.Carries table depth r) : T.Carries table depth (.quiet r) := by
  intro cur hcur
  rw [outcome_quiet, outcome_quiet, h cur hcur]

/-- A reference is carried when the rule that it stands for is, one level down. -/
theorem carries_ref {name : String} (h : ∀ r, table.lookup name = some r → T.Carries table depth r) :
    T.Carries table (depth + 1) (.ref name) := by
  intro cur hcur
  rw [outcome_ref, outcome_ref]
  cases hl : table.lookup name with
  | none => rfl
  | some r => exact h r hl cur hcur

theorem carries_ref_zero (name : String) : T.Carries table 0 (.ref name) := by
  intro cur _
  rw [outcome_ref_zero, outcome_ref_zero]
  rfl

section

variable (hliteral : ∀ depth text anyCase, T.Carries table depth (.literal text anyCase))
  (hchars : ∀ depth set, T.Carries table depth (.chars set))

include hliteral hchars

/-- A rule is carried when literals, character classes and references are. -/
theorem Carries.of_refs (hrefs : ∀ name, T.Carries table depth (.ref name)) (r : Rule) :
    T.Carries table depth r := by
  induction r using Rule.ind with
  | literal text anyCase => exact hliteral depth text anyCase
  | chars set => exact hchars depth set
  | sequence rules ih => exact carries_sequence ih
  | choice rules ih => exact carries_choice ih
  | repeated r least most ih => exact carries_repeated ih least most
  | optional r ih => exact carries_optional ih
  | notAhead r ih => exact carries_notAhead ih
  | capture field r ih => exact carries_capture ih field
  | labelled label r ih => exact carries_labelled ih label
  | quiet r ih => exact carries_quiet ih
  | ref name => exact hrefs name

/-- A transport that carries all literals and character classes carries every rule. -/
theorem Carries.of_atoms (r : Rule) : T.Carries table depth r := by
  induction depth generalizing r with
  | zero => exact .of_refs hliteral hchars carries_ref_zero r
  | succ depth below => exact .of_refs hliteral hchars (fun _ => carries_ref fun r _ => below r) r

end

end Transport

end Peg

end DiagramText
