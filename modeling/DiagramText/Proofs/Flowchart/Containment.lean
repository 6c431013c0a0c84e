import DiagramText.Proofs.Flowchart.Subgraphs
import DiagramText.Proofs.Precedence
import Mathlib.Data.List.Basic
import Mathlib.Logic.Relation

/-!
# What subgraphs hold

When a subgraph ends, it takes the ids that its statements name for its members: those in groups of nodes
and those of the subgraphs inside, except what a subgraph that ended before it has. So an id is held by the
first subgraph to end of those that name it (`Chart.holds_eq`).

That makes a forest of the subgraphs but for two things. A subgraph that is named where it will stand, before
it ends, is put into the list of members twice (`Chart.nodup_claimed_iff`), and subgraphs that name
themselves or each other may hold each other in a circle. `Chart.isForest_iff` says so for all documents, and
that neither happens if subgraphs are named inside subgraphs only after they end.

The statements are gone through with `Filled` for the subgraphs that have ended and `Listed` for the members
of the one that has not; `Scope.Collects` is what a part of a document does to both.
-/

namespace DiagramText.Flowchart

/-! ## Occurrences -/

/-- An occurrence of an id: in a group of nodes, or at the end of the subgraph that has it. -/
structure Occurrence where
  id : String
  ending : Bool
deriving DecidableEq, Inhabited

/-- The occurrences of ids in a group of nodes. -/
def inGroup (group : List Mention) : List Occurrence := group.map fun m => ⟨m.id, false⟩

mutual

/-- The occurrences of ids in a statement, in the order of the document, where `count` ids of subgraphs
were generated before. -/
def occurrences (count : Nat) : Statement → List Occurrence
  | .nodes group => inGroup group
  | .chain first links => inGroup first ++ links.flatMap fun link => inGroup link.targets
  | .subgraph id title body =>
    allOccurrences (subgraphId count id title).2 body ++ [⟨(subgraphId count id title).1, true⟩]
  | _ => []

/-- The occurrences of ids in statements. -/
def allOccurrences (count : Nat) : List Statement → List Occurrence
  | [] => []
  | s :: rest => occurrences count s ++ allOccurrences (subgraphIds count s).2 rest

end

/-- The ids that occur. -/
def occurring (found : List Occurrence) : List String := found.map Occurrence.id

/-- Whether an id occurs before the end of a subgraph that has it. -/
def NamedBeforeEnd (found : List Occurrence) (id : String) : Prop :=
  Precedes (fun o => o.id = id) (fun o => o = ⟨id, true⟩) found

theorem occurring_append (found more : List Occurrence) :
    occurring (found ++ more) = occurring found ++ occurring more :=
  List.map_append

theorem namedBeforeEnd_append {found more : List Occurrence} {id : String} :
    NamedBeforeEnd (found ++ more) id ↔
      NamedBeforeEnd found id ∨ NamedBeforeEnd more id ∨ id ∈ occurring found ∧ ⟨id, true⟩ ∈ more := by
  simp only [NamedBeforeEnd, precedes_append, occurring, List.mem_map, exists_eq_right]

theorem NamedBeforeEnd.mem {found : List Occurrence} {id : String} (h : NamedBeforeEnd found id) :
    id ∈ occurring found :=
  List.mem_map.2 h.exists_mem

/-- At the end of a subgraph, of what is not named inside only the subgraph itself may have been named. -/
theorem namedBeforeEnd_close {found inside : List Occurrence} {id x : String} (h : x ∉ occurring inside) :
    NamedBeforeEnd (found ++ (inside ++ [⟨id, true⟩])) x ↔
      NamedBeforeEnd found x ∨ x = id ∧ x ∈ occurring found := by
  have within : ¬ NamedBeforeEnd (inside ++ [⟨id, true⟩]) x := by
    rw [namedBeforeEnd_append]
    rintro (inner | last | ⟨named, -⟩)
    · exact h inner.mem
    · exact not_precedes_singleton _ last
    · exact h named
  have ending : ⟨x, true⟩ ∈ inside ++ [⟨id, true⟩] ↔ x = id := by
    have : ⟨x, true⟩ ∉ inside := fun hx => h (List.mem_map.2 ⟨_, hx, rfl⟩)
    simp [this]
  rw [namedBeforeEnd_append, ending]
  simp only [within, false_or, and_comm]

/-! ## Blocks -/

/-- A subgraph as a document has it: its id, and the occurrences inside. -/
structure Block where
  id : String
  inside : List Occurrence
deriving DecidableEq, Inhabited

/-- The ids that a subgraph names. -/
def Block.names (b : Block) : List String := occurring b.inside

mutual

/-- The subgraphs of a statement in the order in which they end, where `count` ids of subgraphs were
generated before. -/
def closings (count : Nat) : Statement → List Block
  | .subgraph id title body =>
    allClosings (subgraphId count id title).2 body ++
      [⟨(subgraphId count id title).1, allOccurrences (subgraphId count id title).2 body⟩]
  | _ => []

/-- The subgraphs of statements in the order in which they end. -/
def allClosings (count : Nat) : List Statement → List Block
  | [] => []
  | s :: rest => closings count s ++ allClosings (subgraphIds count s).2 rest

end

/-- The first subgraph to end of those that name an id. -/
def taker? (bs : List Block) (id : String) : Option Block := bs.find? (·.names.contains id)

/-- Whether the first subgraph to end of those that name `id` has the id `outer`. -/
def Takes (bs : List Block) (outer id : String) : Prop := ∃ b, taker? bs id = some b ∧ b.id = outer

theorem taker?_cons (b : Block) (bs : List Block) (id : String) :
    taker? (b :: bs) id = if id ∈ b.names then some b else taker? bs id := by
  simp only [taker?, List.find?_cons, List.contains_eq_mem]
  split <;> simp_all

theorem takes_cons (b : Block) (bs : List Block) (outer id : String) :
    Takes (b :: bs) outer id ↔ if id ∈ b.names then b.id = outer else Takes bs outer id := by
  rw [Takes, taker?_cons]
  split
  · simp
  · rfl

/-! ## Members -/

/-- What holds of the subgraphs that blocks make, where `taken` were members of subgraphs before. -/
inductive Filled : List String → List Block → List Subgraph → Prop
  | nil (taken : List String) : Filled taken [] []
  | cons {taken : List String} {b : Block} {s : Subgraph} {bs : List Block} {ss : List Subgraph}
      (id : s.id = b.id) (mem : ∀ x, x ∈ s.members ↔ x ∈ b.names ∧ x ∉ taken)
      (twice : ∀ x, x ∉ taken → (1 < s.members.count x ↔ NamedBeforeEnd b.inside x))
      (rest : Filled (taken ++ s.members) bs ss) : Filled taken (b :: bs) (s :: ss)

namespace Filled

variable {taken : List String} {bs more : List Block} {ss new : List Subgraph} {x : String}

theorem append (first : Filled taken bs ss) (second : Filled (taken ++ ss.flatMap Subgraph.members) more new) :
    Filled taken (bs ++ more) (ss ++ new) := by
  induction first with
  | nil taken => simpa using second
  | cons id mem twice _ ih =>
    refine .cons id mem twice (ih ?_)
    rw [List.append_assoc]
    exact second

/-- What was a member before becomes no member again. -/
theorem not_mem (h : Filled taken bs ss) (hx : x ∈ taken) : x ∉ ss.flatMap Subgraph.members := by
  induction h with
  | nil => simp
  | cons id mem _ _ ih =>
    rw [List.flatMap_cons, List.mem_append, not_or, mem]
    exact ⟨fun held => held.2 hx, ih (List.mem_append_left _ hx)⟩

/-- A subgraph holds what it is the first to name. -/
theorem held_iff (h : Filled taken bs ss) (free : x ∉ taken) (outer : String) :
    (∃ s ∈ ss, s.id = outer ∧ x ∈ s.members) ↔ Takes bs outer x := by
  induction h with
  | nil => simp [Takes, taker?]
  | @cons taken b s bs ss id mem _ rest ih =>
    simp only [takes_cons, List.mem_cons, or_and_right, exists_or, exists_eq_left]
    by_cases named : x ∈ b.names
    · have held : x ∈ s.members := (mem x).2 ⟨named, free⟩
      have alone : ∀ t ∈ ss, x ∉ t.members := by
        simpa using rest.not_mem (List.mem_append_right _ held)
      rw [if_pos named, ← id]
      constructor
      · rintro (⟨same, -⟩ | ⟨t, ht, -, inside⟩)
        · exact same
        · exact absurd inside (alone t ht)
      · exact fun same => .inl ⟨same, held⟩
    · have absent : x ∉ s.members := fun held => named ((mem x).1 held).1
      simp [named, absent, ih (by simp [free, absent])]

/-- What is held is there twice if it is named before it ends in the subgraph that holds it. -/
theorem twice_iff (h : Filled taken bs ss) (free : x ∉ taken) :
    1 < (ss.flatMap Subgraph.members).count x ↔
      ∃ b, taker? bs x = some b ∧ NamedBeforeEnd b.inside x := by
  induction h with
  | nil => simp [taker?]
  | @cons taken b s bs ss id mem twice rest ih =>
    simp only [taker?_cons, List.flatMap_cons, List.count_append]
    by_cases named : x ∈ b.names
    · have held : x ∈ s.members := (mem x).2 ⟨named, free⟩
      have alone := List.count_eq_zero_of_not_mem (rest.not_mem (List.mem_append_right _ held))
      simp [named, alone, twice x free]
    · have absent : x ∉ s.members := fun held => named ((mem x).1 held).1
      simp [named, List.count_eq_zero_of_not_mem absent, ih (by simp [free, absent])]

end Filled

/-- What holds of the list of what was mentioned in statements, where `taken` are members of subgraphs. -/
structure Listed (taken members : List String) (found : List Occurrence) : Prop where
  mem : ∀ x, x ∈ members ↔ x ∈ occurring found
  twice : ∀ x, x ∉ taken → (1 < members.count x ↔ NamedBeforeEnd found x)

namespace Listed

variable {taken taken' members inner : List String} {found inside : List Occurrence}

theorem nil (taken : List String) : Listed taken [] [] where
  mem := by simp [occurring]
  twice x _ := by simp [NamedBeforeEnd, not_precedes_nil]

theorem add (h : Listed taken members found) (id : String) :
    Listed taken (Distinct.add members id) (found ++ [⟨id, false⟩]) where
  mem x := by simp [Distinct.mem_add, h.mem, occurring]
  twice x free := by
    have last : ¬ NamedBeforeEnd [⟨id, false⟩] x := not_precedes_singleton _
    rw [Distinct.one_lt_count_add, h.twice x free, namedBeforeEnd_append]
    simp [last]

/-- A subgraph ends, whose members are among those that are taken then. -/
theorem close (h : Listed taken members found) (named : ∀ x, x ∈ inner ↔ x ∈ occurring inside) (id : String)
    (old : taken ⊆ taken') (held : inner ⊆ taken') :
    Listed taken' (Distinct.addAll members inner ++ [id]) (found ++ (inside ++ [⟨id, true⟩])) where
  mem x := by simp [Distinct.mem_addAll, h.mem, named, occurring, or_assoc]
  twice x free := by
    have outside : x ∉ inner := fun hx => free (held hx)
    have unnamed : x ∉ occurring inside := fun hx => outside ((named x).2 hx)
    have before := h.twice x fun hx => free (old hx)
    rw [List.count_append, Distinct.count_addAll_of_not_mem outside, List.count_singleton,
      namedBeforeEnd_close unnamed, ← before, ← h.mem, ← List.count_pos_iff]
    by_cases same : id = x
    · simp only [same, beq_self_eq_true, if_true, true_and]
      omega
    · simp [same, Ne.symm same]

end Listed

/-! ## Statements -/

namespace Scope

/-- What a part of a document does to a scope: it adds subgraphs for its blocks, and lists the ids that
occur in it among the members. -/
structure Collects (bs : List Block) (found : List Occurrence) (s s' : Scope) : Prop where
  filled : ∃ new, s'.chart.subgraphs = s.chart.subgraphs ++ new ∧ Filled s.chart.claimed bs new
  listed : ∀ before, Listed s.chart.claimed s.members before →
    Listed s'.chart.claimed s'.members (before ++ found)

namespace Collects

variable {bs more : List Block} {found others : List Occurrence} {s s' s'' : Scope}

theorem of_mention {id : String} (subgraphs : s'.chart.subgraphs = s.chart.subgraphs)
    (members : s'.members = Distinct.add s.members id) : Collects [] [⟨id, false⟩] s s' where
  filled := ⟨[], by simp [subgraphs], .nil _⟩
  listed before h := by
    rw [Chart.claimed, subgraphs, members]
    exact h.add id

/-- A step that adds no subgraph and mentions nothing. -/
theorem of_same (subgraphs : s'.chart.subgraphs = s.chart.subgraphs) (members : s'.members = s.members) :
    Collects [] [] s s' where
  filled := ⟨[], by simp [subgraphs], .nil _⟩
  listed before h := by
    rw [Chart.claimed, subgraphs, members, List.append_nil]
    exact h

theorem claimed (h : Collects bs found s s') : ∃ new, s'.chart.subgraphs = s.chart.subgraphs ++ new ∧
    s'.chart.claimed = s.chart.claimed ++ new.flatMap Subgraph.members ∧ Filled s.chart.claimed bs new := by
  obtain ⟨new, added, filled⟩ := h.filled
  exact ⟨new, added, by simp [Chart.claimed, added], filled⟩

theorem trans (first : Collects bs found s s') (second : Collects more others s' s'') :
    Collects (bs ++ more) (found ++ others) s s'' where
  filled := by
    obtain ⟨new, added, claimed, filled⟩ := first.claimed
    obtain ⟨further, added', filled'⟩ := second.filled
    exact ⟨new ++ further, by rw [added', added, List.append_assoc], filled.append (claimed ▸ filled')⟩
  listed before h := by
    rw [← List.append_assoc]
    exact second.listed _ (first.listed before h)

/-- A subgraph ends after statements that were gone through in a scope of their own. -/
theorem close {inner : Scope} {count : Nat}
    (h : Collects bs found { chart := s.chart, generated := count } inner)
    (id title : String) (parent : Option String) (direction : Option Direction)
    (chart : s'.chart = inner.chart.addSubgraph { id, title, members := inner.members, parent, direction })
    (members : s'.members = Distinct.addAll s.members inner.members ++ [id]) :
    Collects (bs ++ [⟨id, found⟩]) (found ++ [⟨id, true⟩]) s s' := by
  obtain ⟨new, added, claimed, filled⟩ := h.claimed
  have listed : Listed inner.chart.claimed inner.members found := h.listed [] (.nil _)
  let kept := inner.members.filter (!inner.chart.claimed.contains ·)
  have mem_kept (x : String) : x ∈ kept ↔ x ∈ inner.members ∧ x ∉ inner.chart.claimed := by
    simp [kept]
  have claimed' : s'.chart.claimed = inner.chart.claimed ++ kept := by
    simp [chart, Chart.claimed, Chart.addSubgraph, kept]
  constructor
  · refine ⟨new ++ [⟨id, title, kept, parent, direction⟩], ?_, filled.append ?_⟩
    · rw [← List.append_assoc, ← added, chart]
      rfl
    · rw [← claimed]
      refine .cons rfl (fun x => ?_) (fun x free => ?_) (.nil _)
      · rw [mem_kept, listed.mem]
        rfl
      · rw [List.count_filter (by simp [free]), listed.twice x free]
  · intro before h'
    rw [claimed', members]
    refine h'.close listed.mem id ?_ ?_
    · rw [claimed, List.append_assoc]
      exact List.subset_append_left _ _
    · intro x hx
      rw [List.mem_append, mem_kept]
      by_cases old : x ∈ inner.chart.claimed
      · exact .inl old
      · exact .inr ⟨hx, old⟩

end Collects

variable (reserved : List String)

theorem mention_collects (s : Scope) (m : Mention) :
    Collects [] [⟨m.id, false⟩] s (s.mention reserved m) := by
  refine .of_mention ?_ rfl
  by_cases taken : m.id ∈ reserved
  · rw [mention_reserved s taken]
  · obtain ⟨c, made, e⟩ := mention_free s taken
    rw [e]
    obtain rfl | ⟨label, shape, rfl⟩ := made <;> cases m.class? <;> rfl

theorem mentionAll_collects (s : Scope) (group : List Mention) :
    Collects [] (inGroup group) s (s.mentionAll reserved group) := by
  induction group generalizing s with
  | nil => exact .of_same rfl rfl
  | cons m group ih => exact (mention_collects reserved s m).trans (ih (s.mention reserved m))

theorem follow_collects (s : Scope) (sources : List Mention) (links : List Link) :
    Collects [] (links.flatMap fun link => inGroup link.targets) s (s.follow reserved sources links) := by
  induction links generalizing s sources with
  | nil => exact .of_same rfl rfl
  | cons link links ih =>
    have mentioned := mentionAll_collects reserved s link.targets
    have joined : Collects [] [] (s.mentionAll reserved link.targets)
        ((s.mentionAll reserved link.targets).onChart ((edgesOf sources link).foldl Chart.addEdge)) :=
      .of_same (foldl_same (fun e _ c => (rfl : (c.addEdge e).subgraphs = _)) _) rfl
    exact mentioned.trans (joined.trans (ih _ link.targets))

mutual

theorem apply_collects (parent : Option String) (s : Scope) : ∀ statement : Statement,
    Collects (closings s.generated statement) (occurrences s.generated statement) s
      (apply reserved parent s statement)
  | .direction _ => by
    simp only [apply]
    split <;> exact .of_same rfl rfl
  | .nodes group => mentionAll_collects reserved s group
  | .chain first links => (mentionAll_collects reserved s first).trans (follow_collects reserved _ first links)
  | .subgraph id title body =>
    (applyAll_collects (some (subgraphId s.generated id title).1)
      { chart := s.chart, generated := (subgraphId s.generated id title).2 } body).close
        _ title parent _ rfl rfl
  | .defineClass names style =>
    .of_same (foldl_same (fun name _ c => (rfl : (c.defineClass name style).subgraphs = _)) _) rfl
  | .assignClass targets name =>
    .of_same (foldl_same (fun id _ c => (rfl : (c.assignClass id name).subgraphs = _)) _) rfl
  | .edgeStyle (some indexes) style =>
    .of_same (foldl_same (fun i _ c => (rfl : (c.addEdgeStyle (some i) style).subgraphs = _)) _) rfl
  | .caption _ | .style _ _ | .edgeStyle none _ | .click _ => .of_same rfl rfl

theorem applyAll_collects (parent : Option String) (s : Scope) : ∀ body : List Statement,
    Collects (allClosings s.generated body) (allOccurrences s.generated body) s
      (applyAll reserved parent s body)
  | [] => .of_same rfl rfl
  | statement :: rest => by
    have later := applyAll_collects parent (apply reserved parent s statement) rest
    rw [(@apply_extends reserved parent s statement).2] at later
    exact (apply_collects parent s statement).trans later

end

end Scope

/-! ## Documents -/

namespace Chart

/-- Whether a subgraph of the id `outer` has a member. -/
def Holds (c : Chart) (outer id : String) : Prop := ∃ s ∈ c.subgraphs, s.id = outer ∧ id ∈ s.members

/-- Whether subgraphs hold what they hold as a forest does. -/
structure IsForest (c : Chart) : Prop where
  once : c.claimed.Nodup
  rooted : ∀ id, ¬ Relation.TransGen c.Holds id id

variable (direction : Direction) (body : List Statement)

theorem filled_ofStatements : Filled [] (allClosings 0 body) (ofStatements direction body).subgraphs := by
  obtain ⟨new, added, filled⟩ :=
    (Scope.applyAll_collects (allSubgraphIds 0 body).1 none { chart := { direction := direction } } body).filled
  rw [ofStatements, added]
  exact filled

/-- An id is a member of the first subgraph to end of those that name it. -/
theorem holds_eq : (ofStatements direction body).Holds = Takes (allClosings 0 body) :=
  funext₂ fun outer _ => propext ((filled_ofStatements direction body).held_iff List.not_mem_nil outer)

/-- Nothing is a member twice if no subgraph is named before it ends in the one that holds it. -/
theorem nodup_claimed_iff : (ofStatements direction body).claimed.Nodup ↔
    ∀ id b, taker? (allClosings 0 body) id = some b → ¬ NamedBeforeEnd b.inside id := by
  rw [List.nodup_iff_count]
  refine forall_congr' fun id => ?_
  rw [← Nat.not_lt, claimed, (filled_ofStatements direction body).twice_iff List.not_mem_nil]
  simp only [not_exists, not_and]

end Chart

/-! ## Subgraphs that are named after they end -/

/-- Whether a statement is a subgraph. -/
def Statement.isSubgraph : Statement → Bool
  | .subgraph _ _ _ => true
  | _ => false

theorem allClosings_filter (count : Nat) (body : List Statement) :
    allClosings count (body.filter Statement.isSubgraph) = allClosings count body := by
  induction body generalizing count with
  | nil => rfl
  | cons statement rest ih =>
    cases statement with
    | subgraph id title body => rw [List.filter_cons_of_pos rfl, allClosings, allClosings, ih]
    | _ => exact ih count

mutual

/-- The statements of a subgraph and its end are a part of what occurs. -/
theorem inside_of_mem_closings {b : Block} (count : Nat) : ∀ statement : Statement,
    b ∈ closings count statement → b.inside ++ [⟨b.id, true⟩] <:+: occurrences count statement
  | .subgraph id title body => by
    rw [closings, List.mem_append, List.mem_singleton, occurrences]
    rintro (inner | rfl)
    · exact (inside_of_mem_allClosings _ body inner).trans (List.prefix_append _ _).isInfix
    · exact List.infix_rfl
  | .caption _ | .direction _ | .nodes _ | .chain _ _ | .defineClass _ _ | .assignClass _ _ | .style _ _
  | .edgeStyle _ _ | .click _ => nofun

theorem inside_of_mem_allClosings {b : Block} (count : Nat) : ∀ body : List Statement,
    b ∈ allClosings count body → b.inside ++ [⟨b.id, true⟩] <:+: allOccurrences count body
  | [] => nofun
  | statement :: rest => by
    rw [allClosings, List.mem_append, allOccurrences]
    rintro (first | later)
    · exact (inside_of_mem_closings count statement first).trans (List.prefix_append _ _).isInfix
    · exact (inside_of_mem_allClosings _ rest later).trans (List.suffix_append _ _).isInfix

end

section

variable {found inside : List Occurrence} {outer id : String}

/-- A subgraph ends behind each subgraph that it names, if none is named before it ends. -/
theorem end_lt_end (clear : ∀ id, ¬ NamedBeforeEnd found id) (part : inside ++ [⟨outer, true⟩] <:+: found)
    (named : id ∈ occurring inside) (ends : ⟨id, true⟩ ∈ found) :
    found.idxOf ⟨id, true⟩ < found.idxOf ⟨outer, true⟩ := by
  obtain ⟨before, after, rfl⟩ := part
  have split : before ++ (inside ++ [⟨outer, true⟩]) ++ after =
      (before ++ inside) ++ ⟨outer, true⟩ :: after := by simp
  rw [split] at clear ends ⊢
  have inner : ⟨id, true⟩ ∈ before ++ inside := by
    refine (List.mem_append.1 ends).resolve_right fun behind => clear id ?_
    exact namedBeforeEnd_append.2 (.inr (.inr ⟨by simp [occurring_append, named], behind⟩))
  have unended : ⟨outer, true⟩ ∉ before ++ inside := fun early => clear outer <|
    namedBeforeEnd_append.2 (.inr (.inr ⟨List.mem_map.2 ⟨_, early, rfl⟩, List.mem_cons_self⟩))
  rw [List.idxOf_append_of_mem inner, List.idxOf_append_of_notMem unended]
  exact Nat.lt_of_lt_of_le (List.idxOf_lt_length_of_mem inner) (Nat.le_add_right _ _)

variable {bs : List Block}

theorem Takes.ends (part : ∀ b ∈ bs, b.inside ++ [⟨b.id, true⟩] <:+: found) (h : Takes bs outer id) :
    ⟨outer, true⟩ ∈ found := by
  obtain ⟨b, hb, rfl⟩ := h
  exact (part b (List.mem_of_find?_eq_some hb)).subset (by simp)

theorem Takes.end_lt_end (clear : ∀ id, ¬ NamedBeforeEnd found id)
    (part : ∀ b ∈ bs, b.inside ++ [⟨b.id, true⟩] <:+: found) (h : Takes bs outer id)
    (ends : ⟨id, true⟩ ∈ found) : found.idxOf ⟨id, true⟩ < found.idxOf ⟨outer, true⟩ := by
  obtain ⟨b, hb, rfl⟩ := h
  have named : id ∈ b.names := by simpa using List.find?_some hb
  exact Flowchart.end_lt_end clear (part b (List.mem_of_find?_eq_some hb)) named ends

/-- The ends of subgraphs rank those that hold each other, so there is no circle of them. -/
theorem not_takes_in_circle (clear : ∀ id, ¬ NamedBeforeEnd found id)
    (part : ∀ b ∈ bs, b.inside ++ [⟨b.id, true⟩] <:+: found) (id : String) :
    ¬ Relation.TransGen (Takes bs) id id := by
  intro circle
  have ranked {outer id : String} (h : Relation.TransGen (Takes bs) outer id) (ends : ⟨id, true⟩ ∈ found) :
      found.idxOf ⟨id, true⟩ < found.idxOf ⟨outer, true⟩ := by
    induction h with
    | single only => exact only.end_lt_end clear part ends
    | tail _ last ih => exact Nat.lt_trans (last.end_lt_end clear part ends) (ih (last.ends part))
  obtain ⟨_, first, -⟩ := Relation.TransGen.head'_iff.1 circle
  exact Nat.lt_irrefl _ (ranked circle (first.ends part))

end

namespace Chart

variable (direction : Direction) (body : List Statement)

/-- Subgraphs that are named inside subgraphs only after they end are held as in a forest. -/
theorem isForest_of_named_after_end
    (clear : ∀ id, ¬ NamedBeforeEnd (allOccurrences 0 (body.filter Statement.isSubgraph)) id) :
    (ofStatements direction body).IsForest := by
  have part (b : Block) (hb : b ∈ allClosings 0 body) :
      b.inside ++ [⟨b.id, true⟩] <:+: allOccurrences 0 (body.filter Statement.isSubgraph) :=
    inside_of_mem_allClosings 0 _ (allClosings_filter 0 body ▸ hb)
  constructor
  · refine (nodup_claimed_iff direction body).2 fun id b hb early => clear id (early.of_sublist ?_)
    exact (List.sublist_append_left _ _).trans (part b (List.mem_of_find?_eq_some hb)).sublist
  · rw [holds_eq]
    exact not_takes_in_circle clear part

/-- Subgraphs are held as in a forest unless a subgraph is named before it ends in the one that holds it, or
subgraphs hold each other in a circle. Neither happens if subgraphs are named inside subgraphs only after
they end. -/
theorem isForest_iff :
    ((ofStatements direction body).IsForest ↔
      (∀ id b, taker? (allClosings 0 body) id = some b → ¬ NamedBeforeEnd b.inside id) ∧
        ∀ id, ¬ Relation.TransGen (Takes (allClosings 0 body)) id id) ∧
      ((∀ id, ¬ NamedBeforeEnd (allOccurrences 0 (body.filter Statement.isSubgraph)) id) →
        (ofStatements direction body).IsForest) := by
  refine ⟨?_, isForest_of_named_after_end direction body⟩
  rw [← nodup_claimed_iff direction body, ← holds_eq direction body]
  exact ⟨fun forest => ⟨forest.once, forest.rooted⟩, fun ⟨once, rooted⟩ => ⟨once, rooted⟩⟩

/-- A subgraph that is named before it ends is a member twice, and one that names itself is its own
member. -/
theorem exists_not_isForest :
    (∃ body, ¬ (ofStatements .topDown body).claimed.Nodup) ∧
      ∃ body id, (ofStatements .topDown body).Holds id id := by
  constructor
  · exact ⟨[.subgraph (some "outer") "outer"
      [.chain [{ id := "one" }] [{ arrow := {}, label := none, targets := [{ id := "a" }] }],
        .subgraph (some "one") "one" [.nodes [{ id := "b" }]]]], by decide⟩
  · exact ⟨[.subgraph (some "one") "one" [.nodes [{ id := "one" }]]], "one",
      { id := "one", title := "one", members := ["one"] }, by decide⟩

end Chart

end DiagramText.Flowchart
