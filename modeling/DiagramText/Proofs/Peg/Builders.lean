import DiagramText.Proofs.Peg.Congruence
import DiagramText.Proofs.Peg.Outcome

/-!
# Rules put together

`Rule.andThen` and `Rule.orElse` grow a rule that is a sequence or a choice already, and pair it with the
next one where it is not. What comes out matches as the pair does, and how the calls were nested makes no
difference (`builders_interchangeable`): a sequence inside a sequence matches as its members in its place
(`alike_sequence_splice`), because both leave plain fields, and so does a choice at the start of a choice
(`alike_choice_splice`).

`Alike` compares all of a match: where it ends, what it captures and what it reports. It is kept by every
form of rule, so that alike rules can stand for each other anywhere in a grammar (`Interchangeable`), which
is said with a grammar that has holes (`Grammar.fill`).
-/

namespace DiagramText.Peg

/-! ## Alike rules -/

/-- The two rules match in the same way, whatever their references match: with the same end, the same
captures and the same reports. -/
def Alike (r r' : Rule) : Prop := ∀ call, r.matchWith call = r'.matchWith call

theorem Alike.refl (r : Rule) : Alike r r := fun _ => rfl

theorem Alike.symm {r r' : Rule} (h : Alike r r') : Alike r' r := fun call => (h call).symm

theorem Alike.trans {a b c : Rule} (h : Alike a b) (h' : Alike b c) : Alike a c :=
  fun call => (h call).trans (h' call)

theorem Alike.outcome_eq {r r' : Rule} (h : Alike r r') (table : List (String × Rule)) (depth : Nat) (cur : Cursor) :
    r.outcome table depth cur = r'.outcome table depth cur := by
  rw [Rule.outcome, Rule.outcome, Rule.matchWithin, Rule.matchWithin, h]

/-- Sequences of alike rules are alike. -/
theorem alike_sequence {rules rules' : List Rule} (h : List.Forall₂ Alike rules rules') :
    Alike (.sequence rules) (.sequence rules') :=
  fun call => sequence_congr (h.imp fun _ _ hr => hr call)

/-- Choices between alike rules are alike. -/
theorem alike_choice {rules rules' : List Rule} (h : List.Forall₂ Alike rules rules') :
    Alike (.choice rules) (.choice rules') :=
  fun call => choice_congr (h.imp fun _ _ hr => hr call)

/-! ## Nested sequences and choices -/

/-- What a sequence captures comes after the fields that were captured before it. -/
theorem matchAll_fields {call : String → Matcher} (rules : List Rule) (silent : Bool)
    (fields : List (String × Node)) (cur : Cursor) (f : Frontier) :
    Rule.matchAll call rules silent (.fields fields) cur f =
      ((Rule.matchAll call rules silent .empty cur f).1.map fun (last, fragment) =>
          (last, (Fragment.fields fields).append fragment),
        (Rule.matchAll call rules silent .empty cur f).2) := by
  have hempty : (Fragment.fields fields).append .empty = .fields fields :=
    congrArg Fragment.fields (List.append_nil fields)
  refine Prod.ext ?_ (matchAll_snd rules silent _ _ cur f)
  have h := @matchAll_append call rules silent (.fields fields) .empty cur f
  rwa [hempty] at h

/-- A sequence that is a member of a sequence matches as its own members in its place. -/
theorem matchAll_splice {call : String → Matcher} (before rules after : List Rule) (silent : Bool)
    (fields : List (String × Node)) (cur : Cursor) (f : Frontier) :
    Rule.matchAll call (before ++ .sequence rules :: after) silent (.fields fields) cur f =
      Rule.matchAll call (before ++ (rules ++ after)) silent (.fields fields) cur f := by
  induction before generalizing fields cur f with
  | nil =>
    rw [List.nil_append, List.nil_append, Rule.matchAll, Rule.matchWith, matchAll_rules_append, matchAll_fields]
    rcases Rule.matchAll call rules silent .empty cur f with ⟨_ | ⟨next, captured⟩, f'⟩ <;> rfl
  | cons r before ih =>
    rw [List.cons_append, List.cons_append, Rule.matchAll, Rule.matchAll]
    split
    · rfl
    -- whatever was captured so far, it is plain fields from here on
    · exact ih _ _ _

theorem matchAny_splice {call : String → Matcher} (rules after : List Rule) (silent : Bool) (cur : Cursor)
    (f : Frontier) :
    Rule.matchAny call (.choice rules :: after) silent cur f =
      Rule.matchAny call (rules ++ after) silent cur f := by
  rw [Rule.matchAny, Rule.matchWith]
  induction rules generalizing f with
  | nil => rfl
  | cons r rules ih =>
    rw [List.cons_append, Rule.matchAny, Rule.matchAny]
    rcases r.matchWith call silent cur f with ⟨_ | found, f'⟩
    · exact ih f'
    · rfl

theorem alike_sequence_splice (before rules after : List Rule) :
    Alike (.sequence (before ++ .sequence rules :: after)) (.sequence (before ++ (rules ++ after))) := by
  intro call
  funext silent cur f
  rw [Rule.matchWith, Rule.matchWith]
  exact matchAll_splice before rules after silent [] cur f

theorem alike_choice_splice (first rules after : List Rule) :
    Alike (.choice (first ++ .choice rules :: after)) (.choice (first ++ (rules ++ after))) := by
  intro call
  funext silent cur f
  rw [Rule.matchWith, Rule.matchWith]
  induction first generalizing f with
  | nil => exact matchAny_splice rules after silent cur f
  | cons r first ih =>
    rw [List.cons_append, List.cons_append, Rule.matchAny, Rule.matchAny]
    split
    · exact ih _
    · rfl

/-! ## The short forms -/

theorem alike_andThen (a b : Rule) : Alike (a.andThen b) (.sequence [a, b]) := by
  unfold Rule.andThen
  split
  · rename_i rules
    exact (alike_sequence_splice [] rules [b]).symm
  · exact Alike.refl _

theorem alike_orElse (a b : Rule) : Alike (a.orElse b) (.choice [a, b]) := by
  unfold Rule.orElse
  split
  · rename_i rules
    exact (alike_choice_splice [] rules [b]).symm
  · exact Alike.refl _

/-- Both ways to put three rules behind each other match as the three in a sequence. -/
theorem alike_andThen_assoc (a b c : Rule) :
    Alike ((a.andThen b).andThen c) (.sequence [a, b, c]) ∧
      Alike (a.andThen (b.andThen c)) (.sequence [a, b, c]) := by
  constructor
  · refine (alike_andThen (a.andThen b) c).trans ?_
    refine (alike_sequence (.cons (alike_andThen a b) (.cons (.refl c) .nil))).trans ?_
    exact alike_sequence_splice [] [a, b] [c]
  · refine (alike_andThen a (b.andThen c)).trans ?_
    refine (alike_sequence (.cons (.refl a) (.cons (alike_andThen b c) .nil))).trans ?_
    exact alike_sequence_splice [a] [b, c] []

/-- Both ways to put three rules to the choice match as the three in a choice. -/
theorem alike_orElse_assoc (a b c : Rule) :
    Alike ((a.orElse b).orElse c) (.choice [a, b, c]) ∧
      Alike (a.orElse (b.orElse c)) (.choice [a, b, c]) := by
  constructor
  · refine (alike_orElse (a.orElse b) c).trans ?_
    refine (alike_choice (.cons (alike_orElse a b) (.cons (.refl c) .nil))).trans ?_
    exact alike_choice_splice [] [a, b] [c]
  · refine (alike_orElse a (b.orElse c)).trans ?_
    refine (alike_choice (.cons (.refl a) (.cons (alike_orElse b c) .nil))).trans ?_
    exact alike_choice_splice [a] [b, c] []

/-! ## Rules inside grammars -/

namespace Rule

mutual

/-- The rule with `r` in each of its holes, which are the references to the name `hole`. -/
def fill : Rule → String → Rule → Rule
  | literal text anyCase, _, _ => literal text anyCase
  | chars set, _, _ => chars set
  | sequence rules, hole, r => sequence (fillAll rules hole r)
  | choice rules, hole, r => choice (fillAll rules hole r)
  | repeated inner least most, hole, r => repeated (inner.fill hole r) least most
  | optional inner, hole, r => optional (inner.fill hole r)
  | notAhead inner, hole, r => notAhead (inner.fill hole r)
  | capture field inner, hole, r => capture field (inner.fill hole r)
  | labelled label inner, hole, r => labelled label (inner.fill hole r)
  | quiet inner, hole, r => quiet (inner.fill hole r)
  | ref name, hole, r => if name = hole then r else ref name

/-- Each of the rules with `r` in its holes. -/
def fillAll : List Rule → String → Rule → List Rule
  | [], _, _ => []
  | inner :: rules, hole, r => inner.fill hole r :: fillAll rules hole r

end

end Rule

/-- The grammar with `r` in each of the holes of its root and of its rules. -/
def Grammar.fill (g : Grammar) (hole : String) (r : Rule) : Grammar :=
  ⟨g.name, g.root.fill hole r, g.rules.map fun (name, inner) => (name, inner.fill hole r)⟩

section

variable {r r' : Rule}

/-- Alike rules make rules alike that have them in the same places. -/
theorem alike_fill (h : Alike r r') (context : Rule) (hole : String) :
    Alike (context.fill hole r) (context.fill hole r') := by
  have all (rules : List Rule) (ih : ∀ inner ∈ rules, Alike (inner.fill hole r) (inner.fill hole r')) :
      List.Forall₂ Alike (Rule.fillAll rules hole r) (Rule.fillAll rules hole r') := by
    induction rules with
    | nil => exact .nil
    | cons inner rules ihs =>
      exact .cons (ih inner List.mem_cons_self) (ihs fun inner' h' => ih inner' (List.mem_cons_of_mem _ h'))
  induction context using Rule.ind with
  | literal text anyCase => exact Alike.refl _
  | chars set => exact Alike.refl _
  | sequence rules ih => exact alike_sequence (all rules ih)
  | choice rules ih => exact alike_choice (all rules ih)
  | repeated inner least most ih => exact fun call => repeated_congr (ih call) least most
  | optional inner ih => exact fun call => optional_congr (ih call)
  | notAhead inner ih => exact fun call => notAhead_congr (ih call)
  | capture field inner ih => exact fun call => capture_congr (ih call) field
  | labelled label inner ih => exact fun call => labelled_congr (ih call) label
  | quiet inner ih => exact fun call => quiet_congr (ih call)
  | ref name =>
    rw [Rule.fill, Rule.fill]
    split
    · exact h
    · exact Alike.refl _

theorem lookup_fill (g : Grammar) (hole : String) (r : Rule) (name : String) :
    (g.fill hole r).rules.lookup name = (g.rules.lookup name).map (·.fill hole r) :=
  lookup_map_snd (fun inner : Rule => inner.fill hole r) g.rules name

theorem callWithin_fill (h : Alike r r') (g : Grammar) (hole : String) (depth : Nat) :
    Rule.callWithin (g.fill hole r).rules depth = Rule.callWithin (g.fill hole r').rules depth := by
  induction depth with
  | zero => rfl
  | succ depth ih =>
    funext name
    rw [Rule.callWithin, Rule.callWithin, lookup_fill, lookup_fill, ih]
    cases g.rules.lookup name with
    | none => rfl
    | some inner => exact alike_fill h inner hole _

end

/-- The two rules can stand for each other in the holes of any grammar. There is no difference to a run from
any position and with any frontier so far, which is its end, its captures and the frontier that it leaves, and
so none to a parse, which is its tree or the report of its failure. -/
structure Interchangeable (r r' : Rule) : Prop where
  matchWithin (g : Grammar) (hole : String) (context : Rule) (depth : Nat) :
    (context.fill hole r).matchWithin (g.fill hole r).rules depth =
      (context.fill hole r').matchWithin (g.fill hole r').rules depth
  parse (g : Grammar) (depth : Nat) (hole input : String) :
    (g.fill hole r).parse depth input = (g.fill hole r').parse depth input
  parseRule (g : Grammar) (depth : Nat) (hole name input : String) :
    (g.fill hole r).parseRule depth name input = (g.fill hole r').parseRule depth name input

theorem Alike.interchangeable {r r' : Rule} (h : Alike r r') : Interchangeable r r' := by
  have run (g : Grammar) (hole : String) (context : Rule) (depth : Nat) :
      (context.fill hole r).matchWithin (g.fill hole r).rules depth =
        (context.fill hole r').matchWithin (g.fill hole r').rules depth := by
    rw [Rule.matchWithin, Rule.matchWithin, callWithin_fill h, alike_fill h]
  have parse (g : Grammar) (depth : Nat) (hole : String) (context : Rule) (input : String) :
      (g.fill hole r).parseWithin depth (context.fill hole r) input =
        (g.fill hole r').parseWithin depth (context.fill hole r') input := by
    rw [Grammar.parseWithin, Grammar.parseWithin, run]
  refine ⟨run, fun g depth hole input => parse g depth hole g.root input, fun g depth hole name input => ?_⟩
  rw [Grammar.parseRule, Grammar.parseRule, lookup_fill, lookup_fill]
  cases g.rules.lookup name with
  | none => rfl
  | some inner => exact parse g depth hole inner input

/-- A rule that is put behind another matches as the sequence of the two, and as the choice between them where
it is offered as the other way, whatever these rules are made of; and both operations are associative. -/
theorem builders_interchangeable (a b c : Rule) :
    Interchangeable (a.andThen b) (.sequence [a, b]) ∧
      Interchangeable (a.orElse b) (.choice [a, b]) ∧
      Interchangeable ((a.andThen b).andThen c) (a.andThen (b.andThen c)) ∧
      Interchangeable ((a.orElse b).orElse c) (a.orElse (b.orElse c)) := by
  have hthen := alike_andThen_assoc a b c
  have helse := alike_orElse_assoc a b c
  exact ⟨(alike_andThen a b).interchangeable, (alike_orElse a b).interchangeable,
    (hthen.1.trans hthen.2.symm).interchangeable, (helse.1.trans helse.2.symm).interchangeable⟩

end DiagramText.Peg
