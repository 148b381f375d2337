import Mathlib.Data.List.Induction
import Scannerless.Proofs.Forests
import Scannerless.Proofs.Outlines

/-!
# Nodes as they are made

What packing makes of what it has. A node is `Node.Made` if it is a leaf of a terminal, one of the
reductions of its constituent, or an ambiguity of several of them that are told apart by their
outlines. A `Registry` notes which node has got which id. Ids are used up one after another, so what
has been noted stays.

`packWithin_supplies` carries both through packing: whatever is returned or shared is made of
nodes that are made and noted. None of them is of a constituent that has been in progress all the
time.
-/

namespace Scannerless

namespace Node

/-- The label of a reduction and the spans of its children. -/
def outline (node : Node) : Outline :=
  (node.tag?, node.children.map Node.span)

/-- What holds of all nodes of the forest under a node. -/
structure All (holds : Node → Prop) (node : Node) : Prop where
  of_reaches : ∀ {other : Node}, node.Reaches other → holds other

section All

variable {holds further : Node → Prop} {node child : Node}

theorem All.here (all : node.All holds) : holds node :=
  all.of_reaches (.root node)

theorem All.part (all : node.All holds) (member : child ∈ node.parts) : child.All holds :=
  ⟨fun reaches => all.of_reaches (.part member reaches)⟩

theorem All.of_parts (here : holds node) (each : ∀ part ∈ node.parts, part.All holds) :
    node.All holds := by
  refine ⟨fun reaches => ?_⟩
  cases reaches with
  | root => exact here
  | part member below => exact (each _ member).of_reaches below

theorem All.imp (all : node.All holds) (implies : ∀ {node : Node}, holds node → further node) :
    node.All further :=
  ⟨fun reaches => implies (all.of_reaches reaches)⟩

end All

/-- A node as packing makes it: the text of a terminal, one of the reductions of its constituent, or
several of them, in increasing order. -/
inductive Made (g : Grammar) (chart : Chart) : Node → Prop
  | leaf {id : Nat} {symbol : Symbol} {text : String} {span : Span}
    (terminal : symbol.isTerminal = true) : Made g chart (.leaf id symbol text span)
  | reduction {node : Node}
    (listed : node.outline ∈
      (Packing.reductions g chart node.constituent).map Packing.outline) : Made g chart node
  | ambiguity {id : Nat} {symbol : Symbol} {span : Span} {alternatives : List Node}
    (several : 2 ≤ alternatives.length) (increasing : Increasing alternatives)
    (outlines : (alternatives.map outline).Nodup)
    (listed : ∀ node ∈ alternatives, node.constituent = ⟨symbol, span⟩ ∧
      node.outline ∈ (Packing.reductions g chart ⟨symbol, span⟩).map Packing.outline) :
    Made g chart (.ambiguity id symbol span alternatives)

end Node

/-! ## Ids -/

/-- The ids that have been used up, and the nodes that have got them. -/
structure Registry where
  next : Nat
  nodeOf : Nat → Node

namespace Registry

def Holds (registry : Registry) (node : Node) : Prop :=
  node.id < registry.next ∧ registry.nodeOf node.id = node

/-- More ids have been used up, and the nodes noted before are noted still. -/
def Extends (registry later : Registry) : Prop :=
  registry.next ≤ later.next ∧ ∀ id < registry.next, later.nodeOf id = registry.nodeOf id

/-- Uses up an id for no node. -/
def skip (registry : Registry) : Registry :=
  { registry with next := registry.next + 1 }

/-- Uses up an id for a node. -/
def enroll (registry : Registry) (node : Node) : Registry where
  next := registry.next + 1
  nodeOf := Function.update registry.nodeOf registry.next node

variable {registry middle later : Registry} {node : Node}

theorem Extends.refl (registry : Registry) : registry.Extends registry :=
  ⟨Nat.le_refl _, fun _ _ => rfl⟩

theorem Extends.trans (first : registry.Extends middle) (second : middle.Extends later) :
    registry.Extends later :=
  ⟨Nat.le_trans first.1 second.1, fun id used =>
    (second.2 id (Nat.lt_of_lt_of_le used first.1)).trans (first.2 id used)⟩

theorem extends_skip (registry : Registry) : registry.Extends registry.skip :=
  ⟨Nat.le_succ _, fun _ _ => rfl⟩

theorem extends_enroll (registry : Registry) (node : Node) :
    registry.Extends (registry.enroll node) :=
  ⟨Nat.le_succ _, fun _ used => Function.update_of_ne (Nat.ne_of_lt used) _ _⟩

theorem holds_enroll (id_eq : node.id = registry.next) : (registry.enroll node).Holds node := by
  refine ⟨id_eq ▸ Nat.lt_succ_self _, ?_⟩
  rw [id_eq]
  exact Function.update_self _ _ _

theorem Holds.extends (holds : registry.Holds node) (extends_ : registry.Extends later) :
    later.Holds node :=
  ⟨Nat.lt_of_lt_of_le holds.1 extends_.1, (extends_.2 _ holds.1).trans holds.2⟩

end Registry

namespace Packing

/-! ## What is kept -/

section Kept

variable (g : Grammar) (chart : Chart) (barred : Constituent → Prop)

/-- What each node under a packed one is like: it is made and noted, and of no constituent that is
barred. -/
structure Regular (registry : Registry) (node : Node) : Prop where
  made : node.Made g chart
  noted : registry.Holds node
  allowed : ¬ barred node.constituent

/-- A packing whose shared nodes are regular, while all that is barred is in progress. -/
structure Kept (registry : Registry) (packing : Packing) : Prop where
  next_eq : registry.next = packing.nextId
  inProgress : ∀ {constituent : Constituent}, barred constituent →
    constituent ∈ packing.inProgress ∧ constituent.symbol.isTerminal = false
  shared : ∀ {constituent : Constituent} {node : Node},
    packing.memo[constituent]? = some (some node) →
      node.constituent = constituent ∧ node.All (Regular g chart barred registry)

/-- How a packing goes on. -/
structure Follows (registry : Registry) (packing : Packing) (later : Registry) (last : Packing) :
    Prop where
  extends_ : registry.Extends later
  kept : Kept g chart barred later last
  inProgress : last.inProgress = packing.inProgress

/-- A function that packs constituents into regular nodes while the given ones are in progress. -/
def Supplies (pack : Pack) (stack : List Constituent) : Prop :=
  ∀ {registry : Registry} {packing : Packing} (constituent : Constituent),
    Kept g chart barred registry packing → packing.inProgress = stack →
      ∃ later, Follows g chart barred registry packing later (pack constituent packing).2 ∧
        ∀ {node : Node}, (pack constituent packing).1 = some node →
          node.constituent = constituent ∧ node.All (Regular g chart barred later)

/-- A reduction of a constituent from regular nodes. -/
structure Assembled (registry : Registry) (constituent : Constituent)
    (reduction : Production × List Match) (node : Node) : Prop where
  constituent_eq : node.constituent = constituent
  outline_eq : node.outline = outline reduction
  noted : registry.Holds node
  parts : ∀ part ∈ node.parts, part.All (Regular g chart barred registry)

end Kept

section Regular

variable {g : Grammar} {input : Input} {root : Symbol} {chart : Chart}
  {barred : Constituent → Prop} {registry middle later : Registry} {packing between last : Packing}
  {node : Node} {constituent : Constituent} {reduction : Production × List Match}

theorem all_regular_extends (all : node.All (Regular g chart barred registry))
    (extends_ : registry.Extends later) : node.All (Regular g chart barred later) :=
  all.imp fun regular => ⟨regular.made, regular.noted.extends extends_, regular.allowed⟩

theorem Assembled.extends
    (assembled : Assembled g chart barred registry constituent reduction node)
    (extends_ : registry.Extends later) :
    Assembled g chart barred later constituent reduction node where
  constituent_eq := assembled.constituent_eq
  outline_eq := assembled.outline_eq
  noted := assembled.noted.extends extends_
  parts part member := all_regular_extends (assembled.parts part member) extends_

/-- A reduction of what is not barred is regular itself. -/
theorem Assembled.all_regular
    (assembled : Assembled g chart barred registry constituent reduction node)
    (member : reduction ∈ reductions g chart constituent) (allowed : ¬ barred constituent) :
    node.All (Regular g chart barred registry) := by
  have listed : node.outline ∈ (reductions g chart node.constituent).map outline := by
    rw [assembled.constituent_eq, assembled.outline_eq]
    exact List.mem_map_of_mem member
  refine .of_parts ⟨.reduction listed, assembled.noted, ?_⟩ assembled.parts
  rwa [assembled.constituent_eq]

theorem Assembled.isAmbiguous_eq
    (assembled : Assembled g chart barred registry constituent reduction node) :
    node.isAmbiguous = false := by
  have tag := congrArg Prod.fst assembled.outline_eq
  cases node with
  | ambiguity => cases tag
  | _ => rfl

theorem Follows.refl (kept : Kept g chart barred registry packing) :
    Follows g chart barred registry packing registry packing :=
  ⟨.refl _, kept, rfl⟩

theorem Follows.trans (first : Follows g chart barred registry packing middle between)
    (second : Follows g chart barred middle between later last) :
    Follows g chart barred registry packing later last :=
  ⟨first.extends_.trans second.extends_, second.kept, second.inProgress.trans first.inProgress⟩

/-- A packing goes on with more ids used up and nothing else done. -/
theorem Kept.follows (kept : Kept g chart barred registry packing)
    (extends_ : registry.Extends later) (next_eq : later.next = last.nextId)
    (memo : last.memo = packing.memo) (inProgress : last.inProgress = packing.inProgress) :
    Follows g chart barred registry packing later last := by
  refine ⟨extends_, ⟨next_eq, ?_, fun shared => ?_⟩, inProgress⟩
  · rw [inProgress]
    exact kept.inProgress
  · rw [memo] at shared
    obtain ⟨constituent_eq, all⟩ := kept.shared shared
    exact ⟨constituent_eq, all_regular_extends all extends_⟩

theorem Kept.skip (kept : Kept g chart barred registry packing)
    (next : last.nextId = packing.nextId + 1) (memo : last.memo = packing.memo)
    (inProgress : last.inProgress = packing.inProgress) :
    Follows g chart barred registry packing registry.skip last := by
  refine kept.follows registry.extends_skip ?_ memo inProgress
  rw [next, ← kept.next_eq]
  rfl

theorem Kept.enroll (kept : Kept g chart barred registry packing) (node : Node)
    (next : last.nextId = packing.nextId + 1) (memo : last.memo = packing.memo)
    (inProgress : last.inProgress = packing.inProgress) :
    Follows g chart barred registry packing (registry.enroll node) last := by
  refine kept.follows (registry.extends_enroll node) ?_ memo inProgress
  rw [next, ← kept.next_eq]
  rfl

/-! ## Children -/

section Children

variable (input) {pack : Pack}

theorem childNode_supplies (supplies : Supplies g chart barred pack packing.inProgress)
    (kept : Kept g chart barred registry packing) (found : Match) :
    ∃ later, Follows g chart barred registry packing later
        (childNode g input pack found packing).2 ∧
      ∀ {node : Node}, (childNode g input pack found packing).1 = some node →
        node.span = found.span ∧ node.All (Regular g chart barred later) := by
  unfold childNode
  cases g.node? found.node with
  | none => exact ⟨registry, .refl kept, fun none_ => by cases none_⟩
  | some stackNode =>
    dsimp only
    split
    · next terminal =>
      have terminal : stackNode.symbol.isTerminal = true := terminal
      refine ⟨_, kept.enroll (.leaf packing.nextId stackNode.symbol (input.slice found.span)
        found.span) rfl rfl rfl, fun eq => ?_⟩
      cases eq
      refine ⟨rfl, .of_parts ⟨.leaf terminal, registry.holds_enroll kept.next_eq.symm, ?_⟩ ?_⟩
      · intro bar
        have nonTerminal : stackNode.symbol.isTerminal = false := (kept.inProgress bar).2
        exact Bool.eq_false_iff.1 nonTerminal terminal
      · exact fun part member => absurd member List.not_mem_nil
    · obtain ⟨later, follows, regular⟩ := supplies ⟨stackNode.symbol, found.span⟩ kept rfl
      refine ⟨later, follows, fun eq => ?_⟩
      obtain ⟨constituent_eq, all⟩ := regular eq
      exact ⟨congrArg Constituent.span constituent_eq, all⟩

theorem childNodes_supplies (founds : List Match) :
    ∀ {registry : Registry} {packing : Packing},
      Supplies g chart barred pack packing.inProgress → Kept g chart barred registry packing →
      ∃ later, Follows g chart barred registry packing later
          (childNodes g input pack founds packing).2 ∧
        ∀ {nodes : List Node}, (childNodes g input pack founds packing).1 = some nodes →
          nodes.map Node.span = founds.map Match.span ∧
            ∀ node ∈ nodes, node.All (Regular g chart barred later) := by
  induction founds with
  | nil =>
    intro registry packing supplies kept
    refine ⟨registry, .refl kept, fun eq => ?_⟩
    cases eq
    exact ⟨rfl, fun _ member => absurd member List.not_mem_nil⟩
  | cons found rest ih =>
    intro registry packing supplies kept
    obtain ⟨middle, first, regular⟩ := childNode_supplies input supplies kept found
    rw [childNodes]
    generalize childNode g input pack found packing = outcome at first regular ⊢
    obtain ⟨node, between⟩ := outcome
    cases node with
    | none => exact ⟨middle, first, fun none_ => by cases none_⟩
    | some node =>
      obtain ⟨span_eq, all⟩ := regular rfl
      have inProgress : between.inProgress = packing.inProgress := first.inProgress
      obtain ⟨later, second, regulars⟩ := ih (inProgress.symm ▸ supplies) first.kept
      dsimp only at second regulars ⊢
      generalize childNodes g input pack rest between = outcome at second regulars ⊢
      obtain ⟨nodes, last⟩ := outcome
      cases nodes with
      | none => exact ⟨later, first.trans second, fun none_ => by cases none_⟩
      | some nodes =>
        obtain ⟨spans, each⟩ := regulars rfl
        refine ⟨later, first.trans second, fun eq => ?_⟩
        cases eq
        refine ⟨by rw [List.map_cons, List.map_cons, span_eq, spans], fun other member => ?_⟩
        rcases List.mem_cons.1 member with rfl | inRest
        · exact all_regular_extends all second.extends_
        · exact each other inRest

/-! ## Reductions -/

theorem exists_assembled (kept : Kept g chart barred registry packing) {production : Production}
    {founds : List Match} {nodes : List Node} (lhs : production.lhs = constituent.symbol)
    (spans : nodes.map Node.span = founds.map Match.span)
    (each : ∀ node ∈ nodes, node.All (Regular g chart barred registry)) :
    ∃ later, Follows g chart barred registry packing later
        (reductionNode production constituent.span nodes packing).2 ∧
      ∀ {node : Node}, (reductionNode production constituent.span nodes packing).1 = some node →
        Assembled g chart barred later constituent (production, founds) node := by
  have follows : ∀ node : Node, Follows g chart barred registry packing (registry.enroll node)
      packing.freshId.2 := fun node => kept.enroll node rfl rfl rfl
  have assembled : ∀ {node : Node}, node.id = packing.nextId →
      node.constituent = ⟨production.lhs, constituent.span⟩ →
      node.outline = (some production.label, nodes.map Node.span) → node.parts = nodes →
        Assembled g chart barred (registry.enroll node) constituent (production, founds) node := by
    intro node id_eq constituent_eq outline_eq parts_eq
    refine ⟨constituent_eq.trans (by rw [lhs]), ?_, ?_, ?_⟩
    · rw [outline_eq, spans]
      rfl
    · exact registry.holds_enroll (id_eq.trans kept.next_eq.symm)
    · rw [parts_eq]
      exact fun part member => all_regular_extends (each part member) (follows node).extends_
  unfold reductionNode
  dsimp only
  split
  · cases made : Node.list? packing.freshId.1 production.label production.lhs constituent.span
        production.separatorArity nodes with
    | none => exact ⟨registry.skip, kept.skip rfl rfl rfl, fun none_ => by cases none_⟩
    | some node =>
      refine ⟨registry.enroll node, follows node, fun eq => ?_⟩
      cases eq
      obtain ⟨-, rfl⟩ := Node.list?_eq_some_iff.1 made
      exact assembled rfl rfl rfl rfl
  · refine ⟨_, follows (.branch packing.nextId production.label production.lhs constituent.span
      nodes), fun eq => ?_⟩
    cases eq
    exact assembled rfl rfl rfl rfl

theorem reduce_supplies (supplies : Supplies g chart barred pack packing.inProgress)
    (kept : Kept g chart barred registry packing) {production : Production} (founds : List Match)
    (lhs : production.lhs = constituent.symbol) :
    ∃ later, Follows g chart barred registry packing later
        (reduce g input pack constituent.span production founds packing).2 ∧
      ∀ {node : Node},
        (reduce g input pack constituent.span production founds packing).1 = some node →
          Assembled g chart barred later constituent (production, founds) node := by
  obtain ⟨middle, first, regulars⟩ :=
    childNodes_supplies input founds supplies kept
  unfold reduce
  generalize childNodes g input pack founds packing = outcome at first regulars ⊢
  obtain ⟨nodes, between⟩ := outcome
  cases nodes with
  | none => exact ⟨middle, first, fun none_ => by cases none_⟩
  | some nodes =>
    obtain ⟨spans, each⟩ := regulars rfl
    obtain ⟨later, second, assembled⟩ := exists_assembled first.kept lhs spans each
    exact ⟨later, first.trans second, assembled⟩

/-- The nodes of reductions are assembled, one for each of some of the reductions. -/
theorem reduceAll_supplies {todo : List (Production × List Match)}
    (lhs : ∀ reduction ∈ todo, reduction.1.lhs = constituent.symbol) :
    ∀ {registry : Registry} {packing : Packing},
      Supplies g chart barred pack packing.inProgress → Kept g chart barred registry packing →
      ∃ later, Follows g chart barred registry packing later
          (reduceAll g input pack constituent.span todo packing).2 ∧
        (∀ node ∈ (reduceAll g input pack constituent.span todo packing).1, ∃ reduction ∈ todo,
          Assembled g chart barred later constituent reduction node) ∧
        ((reduceAll g input pack constituent.span todo packing).1.map Node.outline).Sublist
          (todo.map outline) := by
  induction todo with
  | nil =>
    intro registry packing supplies kept
    exact ⟨registry, .refl kept, fun _ member => absurd member List.not_mem_nil, .slnil⟩
  | cons reduction rest ih =>
    intro registry packing supplies kept
    obtain ⟨production, founds⟩ := reduction
    obtain ⟨middle, first, made⟩ := reduce_supplies input supplies kept founds
      (lhs _ List.mem_cons_self)
    rw [reduceAll]
    generalize reduce g input pack constituent.span production founds packing = outcome
      at first made ⊢
    obtain ⟨node, between⟩ := outcome
    have inProgress : between.inProgress = packing.inProgress := first.inProgress
    obtain ⟨later, second, each, sublist⟩ :=
      ih (fun other member => lhs other (List.mem_cons_of_mem _ member))
        (inProgress.symm ▸ supplies) first.kept
    dsimp only at second each sublist ⊢
    generalize reduceAll g input pack constituent.span rest between = outcome
      at second each sublist ⊢
    obtain ⟨nodes, last⟩ := outcome
    have inRest : ∀ node ∈ nodes, ∃ reduction ∈ (production, founds) :: rest,
        Assembled g chart barred later constituent reduction node := by
      intro other member
      obtain ⟨reduction, isRest, assembled⟩ := each other member
      exact ⟨reduction, List.mem_cons_of_mem _ isRest, assembled⟩
    refine ⟨later, first.trans second, ?_⟩
    cases node with
    | none => exact ⟨inRest, sublist.cons _⟩
    | some node =>
      have assembled := (made rfl).extends second.extends_
      refine ⟨fun other member => ?_, ?_⟩
      · rcases List.mem_cons.1 member with rfl | further
        · exact ⟨_, List.mem_cons_self, assembled⟩
        · exact inRest other further
      · rw [Option.toList_some, List.singleton_append, List.map_cons, List.map_cons,
          assembled.outline_eq]
        exact sublist.cons_cons _

end Children

/-! ## Constituents -/

/-- The reductions of a constituent that is not barred make a regular node, or none. -/
theorem merge_supplies (kept : Kept g chart barred registry packing)
    (nodup : ((reductions g chart constituent).map outline).Nodup)
    (allowed : ¬ barred constituent) {nodes : List Node}
    (each : ∀ node ∈ nodes, ∃ reduction ∈ reductions g chart constituent,
      Assembled g chart barred registry constituent reduction node)
    (sublist : (nodes.map Node.outline).Sublist ((reductions g chart constituent).map outline)) :
    ∃ later, Follows g chart barred registry packing later (packing.merge constituent nodes).2 ∧
      ∀ {node : Node}, (packing.merge constituent nodes).1 = some node →
        node.constituent = constituent ∧ node.All (Regular g chart barred later) := by
  obtain ⟨merged, eq, memo, inProgress, -⟩ := merge_eq packing constituent nodes
  have next : merged.nextId = packing.nextId + 1 := by
    have snd_eq := congrArg (fun outcome => outcome.2.nextId) eq
    rw [← snd_eq]
    unfold merge
    dsimp only
    split <;> rfl
  have plain : ∀ node ∈ nodes, node.isAmbiguous = false := by
    intro node member
    obtain ⟨reduction, -, assembled⟩ := each node member
    exact assembled.isAmbiguous_eq
  have regular : ∀ node ∈ nodes, node.constituent = constituent ∧
      node.All (Regular g chart barred registry) := by
    intro node member
    obtain ⟨reduction, isReduction, assembled⟩ := each node member
    exact ⟨assembled.constituent_eq, assembled.all_regular isReduction allowed⟩
  rw [eq]
  cases outcome : Node.merge? packing.nextId constituent.symbol constituent.span nodes with
  | none => exact ⟨registry.skip, kept.skip next memo inProgress, fun none_ => by cases none_⟩
  | some result =>
    rcases Node.shape_merge? outcome plain with
      inNodes | ⟨alternatives, rfl, several, increasing, whole⟩
    · have follows := kept.skip next memo inProgress
      refine ⟨registry.skip, follows, fun eq => ?_⟩
      cases eq
      obtain ⟨constituent_eq, all⟩ := regular result inNodes
      exact ⟨constituent_eq, all_regular_extends all follows.extends_⟩
    · have follows := kept.enroll
        (.ambiguity packing.nextId constituent.symbol constituent.span alternatives) next memo
        inProgress
      refine ⟨_, follows, fun eq => ?_⟩
      cases eq
      refine ⟨rfl, .of_parts ⟨.ambiguity several increasing ?_ fun node member => ?_,
        registry.holds_enroll kept.next_eq.symm, allowed⟩ fun node member => ?_⟩
      · -- Alternatives of one outline would be one and the same.
        have apart := nodup.sublist sublist
        refine List.Nodup.map_on (fun node member other memberToo same => ?_) ?_
        · exact List.inj_on_of_nodup_map apart (whole node member) (whole other memberToo) same
        · exact increasing.pairwise_erase.imp fun different same =>
            different (congrArg Node.erase same)
      · obtain ⟨reduction, isReduction, assembled⟩ := each node (whole node member)
        exact ⟨assembled.constituent_eq,
          assembled.outline_eq ▸ List.mem_map_of_mem isReduction⟩
      · exact all_regular_extends (regular node (whole node member)).2 follows.extends_

/-- What is entered is not left before its reductions are packed. -/
theorem Kept.enter (kept : Kept g chart barred registry packing) (constituent : Constituent) :
    Kept g chart barred registry (packing.enter constituent) where
  next_eq := kept.next_eq
  inProgress bar := ⟨List.mem_cons_of_mem _ (kept.inProgress bar).1, (kept.inProgress bar).2⟩
  shared := kept.shared

theorem Follows.leave (kept : Kept g chart barred registry packing)
    (follows : Follows g chart barred registry (packing.enter constituent) later last)
    {result : Option Node} (regular : ∀ {node : Node}, result = some node →
      node.constituent = constituent ∧ node.All (Regular g chart barred later)) :
    Follows g chart barred registry packing later
      (last.leave packing.cut packing.inProgress.length constituent result) := by
  have stack_eq : last.inProgress = constituent :: packing.inProgress := follows.inProgress
  have inProgress : (last.leave packing.cut packing.inProgress.length constituent
      result).inProgress = packing.inProgress := congrArg List.tail stack_eq
  refine ⟨follows.extends_, ⟨follows.kept.next_eq, ?_, fun shared => ?_⟩, inProgress⟩
  · rw [inProgress]
    exact kept.inProgress
  · rcases memo_leave stack_eq shared with before | ⟨rfl, known, -⟩
    · exact follows.kept.shared before
    · exact regular known.symm

theorem lhs_of_mem_reductions (wired : g.Wired) (full : chart.Full g input root)
    (constituent : Constituent) :
    ∀ reduction ∈ reductions g chart constituent, reduction.1.lhs = constituent.symbol := by
  intro reduction member
  obtain ⟨parts, isReduction⟩ := full.exists_isReduction wired member
  exact isReduction.lhs

/-- Packing works on regular nodes at any depth. -/
theorem packWithin_supplies (wired : g.Wired) (full : chart.Full g input root) (limit : Nat) :
    ∀ stack : List Constituent,
      Supplies g chart barred (packWithin g input chart limit) stack := by
  induction limit with
  | zero => exact fun _ _ _ _ kept _ => ⟨_, .refl kept, fun none_ => by cases none_⟩
  | succ limit ih =>
    intro _ registry packing constituent kept _
    rw [packWithin]
    cases known : packing.memo[constituent]? with
    | some result =>
      refine ⟨registry, .refl kept, fun eq => kept.shared ?_⟩
      rw [known]
      exact congrArg some eq
    | none =>
      cases inside : depthIn constituent packing.inProgress with
      | some depth =>
        exact ⟨registry, kept.follows (.refl _) kept.next_eq rfl rfl, fun none_ => by cases none_⟩
      | none =>
        have allowed : ¬ barred constituent :=
          fun bar => depthIn_eq_none_iff.1 inside (kept.inProgress bar).1
        obtain ⟨middle, first, each, sublist⟩ := reduceAll_supplies input
          (lhs_of_mem_reductions wired full constituent) (ih _) (kept.enter constituent)
        dsimp only
        obtain ⟨later, second, regular⟩ :=
          merge_supplies first.kept (full.nodup_outlines wired constituent) allowed each sublist
        exact ⟨later, (first.trans second).leave kept regular, regular⟩

theorem pack_supplies (wired : g.Wired) (full : chart.Full g input root)
    (kept : Kept g chart barred registry packing) (constituent : Constituent) :
    ∃ later, Follows g chart barred registry packing later
        (pack g input chart constituent packing).2 ∧
      ∀ {node : Node}, (pack g input chart constituent packing).1 = some node →
        node.constituent = constituent ∧ node.All (Regular g chart barred later) := by
  unfold pack
  split
  · obtain ⟨later, follows, regular⟩ :=
      packWithin_supplies wired full (chart.completions.size + 1) _ constituent kept rfl
    exact ⟨later, follows.trans (follows.kept.follows (.refl later) follows.kept.next_eq rfl rfl),
      regular⟩
  · exact ⟨registry, .refl kept, fun none_ => by cases none_⟩

/-- Packing constituents one after another shares regular nodes only. -/
theorem packed_kept (wired : g.Wired) (full : chart.Full g input root)
    (earlier : List Constituent) : ∃ registry : Registry,
      Kept g chart (fun _ => False) registry (packed g input chart earlier) := by
  refine packed_keeps (fun packing => ∃ registry, Kept g chart (fun _ => False) registry packing)
    ⟨⟨0, fun _ => default⟩, rfl, fun bar => bar.elim, fun shared => ?_⟩
    (fun constituent {_} before => ?_) earlier
  · simp at shared
  · obtain ⟨registry, kept⟩ := before
    obtain ⟨later, follows, -⟩ := pack_supplies wired full kept constituent
    exact ⟨later, follows.kept⟩

/-- Whatever has been packed before, what is packed is of the constituent and regular. -/
theorem regular_of_pack (wired : g.Wired) (full : chart.Full g input root)
    (earlier : List Constituent)
    (some_ : (pack g input chart constituent (packed g input chart earlier)).1 = some node) :
    node.constituent = constituent ∧
      ∃ registry, node.All (Regular g chart (fun _ => False) registry) := by
  obtain ⟨registry, kept⟩ := packed_kept wired full earlier
  obtain ⟨later, -, regular⟩ := pack_supplies wired full kept constituent
  obtain ⟨constituent_eq, all⟩ := regular some_
  exact ⟨constituent_eq, later, all⟩

end Regular

end Packing

end Scannerless
