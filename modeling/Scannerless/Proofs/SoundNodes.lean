import Scannerless.Proofs.Terminals
import Scannerless.Proofs.Trees

/-!
# Sound nodes

A node of a forest is sound if the grammar and the input bear out what it says: its tag labels a
production of its symbol, its children are an expansion of that production and follow one another
over its span, and the text of a leaf stands in the input and is matched by the leaf's symbol.

Every tree of a forest of sound nodes is a tight derivation, and the text under each node is that of
its span, whichever alternatives are followed.
-/

namespace Scannerless

namespace Node

def constituent (node : Node) : Constituent :=
  ⟨node.symbol, node.span⟩

/-- The nodes right below a node. -/
def parts : Node → List Node
  | leaf .. => []
  | branch _ _ _ _ children => children
  | list _ _ _ _ _ children => children
  | ambiguity _ _ _ alternatives => alternatives

/-- The nodes of the forest under a node. -/
inductive Reaches : Node → Node → Prop
  | root (node : Node) : Reaches node node
  | part {node part other : Node} (member : part ∈ node.parts) (reaches : Reaches part other) :
    Reaches node other

theorem Reaches.trans {node middle other : Node} (first : node.Reaches middle)
    (second : middle.Reaches other) : node.Reaches other := by
  induction first with
  | root => exact second
  | part member _ ih => exact .part member (ih second)

theorem sizeOf_lt_of_mem_parts {node part : Node} (member : part ∈ node.parts) :
    sizeOf part < sizeOf node := by
  cases node with
  | leaf => cases member
  | _ =>
    have less := List.sizeOf_lt_of_mem member
    simp only [parts] at less
    simp only [branch.sizeOf_spec, list.sizeOf_spec, ambiguity.sizeOf_spec]
    omega

/-- What holds of a node if it holds of its parts holds of all nodes. -/
theorem induction_parts {motive : Node → Prop}
    (step : ∀ node : Node, (∀ part ∈ node.parts, motive part) → motive node) (node : Node) :
    motive node :=
  step node fun part _ => induction_parts step part
termination_by sizeOf node
decreasing_by exact sizeOf_lt_of_mem_parts ‹_›

/-! ## Soundness -/

/-- A reduction by a production: the children are an expansion of it, follow one another over the
span, and are reached tightly. None of them is of the symbol and span of the reduction itself. -/
structure Reduces (production : Production) (symbol : Symbol) (span : Span)
    (children : List Node) : Prop where
  lhs : production.lhs = symbol
  expands : production.Expands (children.map Node.symbol)
  tiles : Tiles span.start (children.map Node.span) span.stop
  tight : production.Tight span (children.map Node.span)
  proper : ∀ child ∈ children, child.constituent ≠ ⟨symbol, span⟩

/-- A node that the grammar and the input bear out, as far as it and its parts are concerned. -/
inductive Sound (g : Grammar) (input : Input) : Node → Prop
  | leaf {id : Nat} {symbol : Symbol} {span : Span}
    (scanned : symbol.scan? input span.start = some span.stop) :
    Sound g input (.leaf id symbol (input.slice span) span)
  | branch {id : Nat} {tag : String} {symbol : Symbol} {span : Span} {children : List Node}
    {p : ProdId} {entry : WiredProduction} (labels : g.withLabel? tag = some p)
    (found : g.prod? p = some entry) (kind : entry.production.kind = .sequence)
    (rhs : children.map Node.symbol = entry.production.rhs)
    (reduces : Reduces entry.production symbol span children) :
    Sound g input (.branch id tag symbol span children)
  | list {id : Nat} {tag : String} {symbol : Symbol} {span : Span} {children : List Node}
    {p : ProdId} {entry : WiredProduction} {repetition : Repetition}
    (labels : g.withLabel? tag = some p) (found : g.prod? p = some entry)
    (kind : entry.production.kind = .list repetition)
    (turns : ∀ {index : Nat} {child : Node}, children[index]? = some child →
      entry.production.rhs[index % entry.production.arity]? = some child.symbol)
    (reduces : Reduces entry.production symbol span children) :
    Sound g input (.list id tag symbol span entry.production.separatorArity children)
  | ambiguity {id : Nat} {symbol : Symbol} {span : Span} {alternatives : List Node}
    (several : 2 ≤ alternatives.length)
    (different : alternatives.Pairwise fun node other => node.erase ≠ other.erase)
    (plain : ∀ node ∈ alternatives, node.isAmbiguous = false)
    (alike : ∀ node ∈ alternatives, node.constituent = ⟨symbol, span⟩) :
    Sound g input (.ambiguity id symbol span alternatives)

/-- A node for a constituent, under which all nodes are sound. -/
structure FaithfulTo (g : Grammar) (input : Input) (constituent : Constituent) (node : Node) :
    Prop where
  constituent_eq : node.constituent = constituent
  sound : ∀ {other : Node}, node.Reaches other → other.Sound g input

section FaithfulTo

variable {g : Grammar} {input : Input} {node : Node} {constituent : Constituent}

theorem FaithfulTo.part (faithful : node.FaithfulTo g input constituent) {part : Node}
    (member : part ∈ node.parts) : part.FaithfulTo g input part.constituent :=
  ⟨rfl, fun reaches => faithful.sound (.part member reaches)⟩

theorem FaithfulTo.of_parts (constituent_eq : node.constituent = constituent)
    (sound : node.Sound g input)
    (each : ∀ part ∈ node.parts, part.FaithfulTo g input part.constituent) :
    node.FaithfulTo g input constituent := by
  refine ⟨constituent_eq, fun reaches => ?_⟩
  cases reaches with
  | root => exact sound
  | part member below => exact (each _ member).sound below

theorem FaithfulTo.reaches (faithful : node.FaithfulTo g input constituent) {other : Node}
    (reaches : node.Reaches other) : other.FaithfulTo g input other.constituent := by
  induction reaches generalizing constituent with
  | root => exact ⟨rfl, faithful.sound⟩
  | part member _ ih => exact ih (faithful.part member)

/-! ## Trees of sound nodes -/

/-- The parts of a tree are trees of the parts of a node, if the node is no ambiguity. -/
theorem exists_part_of_child (plain : node.isAmbiguous = false) {tree child : Tree}
    (inTrees : tree ∈ node.trees) (isChild : child ∈ tree.children) :
    ∃ part ∈ node.parts, child ∈ part.trees := by
  cases node with
  | leaf =>
    rw [List.mem_singleton.1 inTrees] at isChild
    cases isChild
  | branch =>
    obtain ⟨chosen, isChoice, rfl⟩ := List.mem_map.1 inTrees
    exact exists_of_mem_choices isChoice isChild
  | list =>
    obtain ⟨chosen, isChoice, rfl⟩ := List.mem_map.1 inTrees
    exact exists_of_mem_choices isChoice isChild
  | ambiguity => cases plain

/-- What holds of the trees of each node holds of the trees chosen together. -/
theorem choices_of_trees {holds : Tree → Prop} {nodes : List Node} {chosen : List Tree}
    (each : ∀ node ∈ nodes, ∀ tree ∈ node.trees, tree.constituent = node.constituent ∧ holds tree)
    (isChoice : chosen ∈ choices nodes) :
    chosen.map Tree.constituent = nodes.map Node.constituent ∧ ∀ tree ∈ chosen, holds tree := by
  induction mem_choices_iff.1 isChoice with
  | nil => exact ⟨rfl, fun _ member => absurd member List.not_mem_nil⟩
  | @cons tree node others rest inNode inRest ih =>
    obtain ⟨same, holdsHere⟩ := each node List.mem_cons_self tree inNode
    obtain ⟨sameRest, holdsRest⟩ := ih
      (fun other member => each other (List.mem_cons_of_mem _ member)) (mem_choices_iff.2 inRest)
    refine ⟨by rw [List.map_cons, List.map_cons, same, sameRest], fun other member => ?_⟩
    rcases List.mem_cons.1 member with rfl | inOthers
    · exact holdsHere
    · exact holdsRest other inOthers

/-- Trees of the children of a reduction make up a derivation. -/
theorem Reduces.derivation {symbol : Symbol} {span : Span} {children : List Node} {p : ProdId}
    {entry : WiredProduction} (found : g.prod? p = some entry)
    (reduces : Reduces entry.production symbol span children)
    (each : ∀ child ∈ children, ∀ tree ∈ child.trees, tree.constituent = child.constituent ∧
      tree.Derivation g input Production.Tight)
    {chosen : List Tree} (isChoice : chosen ∈ choices children) :
    (entry.production.reduction span chosen).Derivation g input Production.Tight := by
  obtain ⟨same, derivations⟩ := choices_of_trees each isChoice
  have symbols := congrArg (List.map Constituent.symbol) same
  have spans := congrArg (List.map Constituent.span) same
  rw [List.map_map, List.map_map] at symbols spans
  have symbols_eq : chosen.map Tree.symbol = children.map Node.symbol := symbols
  have spans_eq : chosen.map Tree.span = children.map Node.span := spans
  refine .reduction found ?_ ?_ ?_ derivations
  · rw [symbols_eq]
    exact reduces.expands
  · rw [spans_eq]
    exact reduces.tiles
  · rw [spans_eq]
    exact reduces.tight

/-- All trees of a forest of sound nodes are tight derivations. -/
theorem FaithfulTo.derivation (wired : g.Wired) : ∀ {constituent : Constituent},
    node.FaithfulTo g input constituent → ∀ tree ∈ node.trees,
      tree.constituent = constituent ∧ tree.Derivation g input Production.Tight := by
  induction node using induction_parts with
  | step node ih =>
    intro constituent faithful tree inTrees
    have each : ∀ part ∈ node.parts, ∀ tree ∈ part.trees, tree.constituent = part.constituent ∧
        tree.Derivation g input Production.Tight :=
      fun part member => ih part member (faithful.part member)
    have whole := faithful.sound (.root node)
    rw [← faithful.constituent_eq]
    cases whole with
    | leaf scanned =>
      rw [trees, List.mem_singleton] at inTrees
      subst inTrees
      exact ⟨rfl, .leaf scanned⟩
    | branch labels found kind _ reduces =>
      rw [trees] at inTrees
      obtain ⟨chosen, isChoice, rfl⟩ := List.mem_map.1 inTrees
      have derivation := reduces.derivation found each isChoice
      unfold Production.reduction Production.isList at derivation
      rw [kind, wired.label_of_withLabel labels found, reduces.lhs] at derivation
      exact ⟨rfl, derivation⟩
    | list labels found kind _ reduces =>
      rw [trees] at inTrees
      obtain ⟨chosen, isChoice, rfl⟩ := List.mem_map.1 inTrees
      have derivation := reduces.derivation found each isChoice
      unfold Production.reduction Production.isList at derivation
      rw [kind, wired.label_of_withLabel labels found, reduces.lhs] at derivation
      exact ⟨rfl, derivation⟩
    | ambiguity _ _ _ alike =>
      rw [trees, mem_treesOfAny_iff] at inTrees
      obtain ⟨alternative, member, inAlternative⟩ := inTrees
      obtain ⟨same, derivation⟩ := each alternative member tree inAlternative
      exact ⟨same.trans (alike alternative member), derivation⟩

/-- Every forest of sound nodes holds a tree. -/
theorem FaithfulTo.exists_tree : ∀ {constituent : Constituent},
    node.FaithfulTo g input constituent → ∃ tree, tree ∈ node.trees := by
  induction node using induction_parts with
  | step node ih =>
    intro constituent faithful
    have each : ∀ part ∈ node.parts, ∃ tree, tree ∈ part.trees :=
      fun part member => ih part member (faithful.part member)
    cases node with
    | leaf id symbol text span => exact ⟨_, List.mem_singleton.2 rfl⟩
    | branch id tag symbol span children =>
      obtain ⟨chosen, isChoice⟩ := exists_mem_choices each
      exact ⟨_, List.mem_map.2 ⟨chosen, isChoice, rfl⟩⟩
    | list id tag symbol span arity children =>
      obtain ⟨chosen, isChoice⟩ := exists_mem_choices each
      exact ⟨_, List.mem_map.2 ⟨chosen, isChoice, rfl⟩⟩
    | ambiguity id symbol span alternatives =>
      have whole := faithful.sound (.root _)
      cases whole with
      | ambiguity several =>
        obtain ⟨alternative, member⟩ :=
          List.exists_mem_of_length_pos (Nat.lt_of_lt_of_le Nat.two_pos several)
        obtain ⟨tree, inTrees⟩ := each alternative member
        exact ⟨tree, mem_treesOfAny_iff.2 ⟨alternative, member, inTrees⟩⟩

end FaithfulTo

end Node

/-! ## Texts -/

theorem Input.slice_append (input : Input) {start middle stop : Nat} (first : start ≤ middle)
    (second : middle ≤ stop) :
    input.slice ⟨start, middle⟩ ++ input.slice ⟨middle, stop⟩ = input.slice ⟨start, stop⟩ := by
  have texts : input.text start middle ++ input.text middle stop = input.text start stop :=
    input.text_append first second
  unfold Input.slice
  rw [← String.ofList_append]
  exact congrArg String.ofList texts

theorem Input.slice_self (input : Input) (start : Nat) : input.slice ⟨start, start⟩ = "" :=
  congrArg String.ofList (input.text_self start)

/-- Texts of spans that follow one another make up the text of the whole. -/
theorem Input.foldr_append_of_tiles {α : Type} (input : Input) {text : α → String}
    {span : α → Span} {parts : List α} {start stop : Nat}
    (tiles : Tiles start (parts.map span) stop)
    (each : ∀ part ∈ parts, text part = input.slice (span part)) :
    parts.foldr (fun part rest => text part ++ rest) "" = input.slice ⟨start, stop⟩ := by
  induction parts generalizing start with
  | nil =>
    obtain rfl : start = stop := tiles
    exact (input.slice_self start).symm
  | cons part rest ih =>
    obtain ⟨rfl, ordered, further⟩ := tiles
    rw [List.foldr_cons, each part List.mem_cons_self,
      ih further fun other member => each other (List.mem_cons_of_mem _ member)]
    exact input.slice_append ordered further.bounds.1

namespace Node

theorem yieldAll_eq_foldr (nodes : List Node) :
    yieldAll nodes = nodes.foldr (fun node rest => node.yieldText ++ rest) "" := by
  induction nodes with
  | nil => rfl
  | cons node rest ih => rw [yieldAll, ih, List.foldr_cons]

/-- The text under a node that is sound throughout is that of its span. -/
theorem FaithfulTo.yieldText_eq {g : Grammar} {input : Input} {node : Node} :
    ∀ {constituent : Constituent}, node.FaithfulTo g input constituent →
      node.yieldText = input.slice node.span := by
  induction node using induction_parts with
  | step node ih =>
    intro constituent faithful
    have each : ∀ part ∈ node.parts, part.yieldText = input.slice part.span :=
      fun part member => ih part member (faithful.part member)
    have whole := faithful.sound (.root node)
    cases whole with
    | leaf => rfl
    | branch _ _ _ _ reduces =>
      rw [yieldText, yieldAll_eq_foldr]
      exact input.foldr_append_of_tiles reduces.tiles each
    | list _ _ _ _ reduces =>
      rw [yieldText, yieldAll_eq_foldr]
      exact input.foldr_append_of_tiles reduces.tiles each
    | @ambiguity id symbol span alternatives several _ _ alike =>
      cases alternatives with
      | nil => cases several
      | cons first rest =>
        have same := congrArg Constituent.span (alike first List.mem_cons_self)
        have span_eq : first.span = span := same
        rw [yieldText, yieldFirst, each first List.mem_cons_self, span_eq]
        rfl

end Node

namespace Tree

theorem yieldAll_eq_foldr (trees : List Tree) :
    yieldAll trees = trees.foldr (fun tree rest => tree.yield ++ rest) "" := by
  induction trees with
  | nil => rfl
  | cons tree rest ih => rw [yieldAll, ih, List.foldr_cons]

/-- The text under a derivation is that of its span. -/
theorem Derivation.yield_eq {g : Grammar} {input : Input}
    {allowed : Production → Span → List Span → Prop} {tree : Tree}
    (derivation : tree.Derivation g input allowed) : tree.yield = input.slice tree.span := by
  induction derivation with
  | leaf => rfl
  | reduction _ _ tiles _ _ ih =>
    unfold Production.reduction
    rw [yield, yieldAll_eq_foldr]
    exact input.foldr_append_of_tiles tiles ih

end Tree

end Scannerless
