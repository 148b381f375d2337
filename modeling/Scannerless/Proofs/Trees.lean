import Mathlib.Data.List.Forall2
import Scannerless.Chart.Item
import Scannerless.Forest.Order
import Scannerless.Proofs.Expansion

/-!
# Trees

The trees that a node packs: one for each way to follow its ambiguities. Ids play no part in a tree,
and nodes of the same structure pack the same trees.

`Tree.Derivation` says which trees are derivations of a grammar over an input, and `Tree.Reduced`
which of them go round in no circle: neither on a way down from the root, nor on the way through a
production, nor by elements of a list that match nothing.
-/

namespace Scannerless

/-- A derivation. A reduction of a list production knows how many separators stand between two
elements. -/
inductive Tree where
  | leaf (symbol : Symbol) (text : String) (span : Span)
  | reduction (tag : String) (symbol : Symbol) (span : Span) (separatorArity? : Option Nat)
    (children : List Tree)

namespace Tree

def symbol : Tree → Symbol
  | leaf symbol _ _ => symbol
  | reduction _ symbol _ _ _ => symbol

def span : Tree → Span
  | leaf _ _ span => span
  | reduction _ _ span _ _ => span

def constituent (tree : Tree) : Constituent :=
  ⟨tree.symbol, tree.span⟩

def children : Tree → List Tree
  | leaf .. => []
  | reduction _ _ _ _ children => children

mutual

/-- The text under a tree. -/
def yield : Tree → String
  | leaf _ text _ => text
  | reduction _ _ _ _ children => yieldAll children

/-- The texts under trees, one after another. -/
def yieldAll : List Tree → String
  | [] => ""
  | tree :: rest => yield tree ++ yieldAll rest

end

/-- The constituents on a way from the root of a tree down to one that has no children. -/
inductive Path : Tree → List Constituent → Prop
  | leaf {tree : Tree} (bare : tree.children = []) : Path tree [tree.constituent]
  | child {tree child : Tree} {path : List Constituent} (member : child ∈ tree.children)
    (rest : Path child path) : Path tree (tree.constituent :: path)

/-- A constituent that a tree uses. -/
inductive Uses : Tree → Constituent → Prop
  | root (tree : Tree) : Uses tree tree.constituent
  | child {tree child : Tree} {constituent : Constituent} (member : child ∈ tree.children)
    (uses : Uses child constituent) : Uses tree constituent

/-- No way down from the root meets a constituent twice. -/
def Acyclic (tree : Tree) : Prop :=
  ∀ path, tree.Path path → path.Nodup

theorem exists_path : ∀ tree : Tree, ∃ path, tree.Path path
  | leaf .. => ⟨_, .leaf rfl⟩
  | reduction _ _ _ _ [] => ⟨_, .leaf rfl⟩
  | reduction _ _ _ _ (child :: _) => by
    obtain ⟨path, below⟩ := exists_path child
    exact ⟨_, .child List.mem_cons_self below⟩

theorem Uses.exists_path {tree : Tree} {constituent : Constituent}
    (uses : tree.Uses constituent) : ∃ path, tree.Path path ∧ constituent ∈ path := by
  induction uses with
  | root tree =>
    obtain ⟨path, down⟩ := Tree.exists_path tree
    refine ⟨path, down, ?_⟩
    cases down <;> exact List.mem_cons_self
  | child member _ ih =>
    obtain ⟨path, down, onPath⟩ := ih
    exact ⟨_, .child member down, List.mem_cons_of_mem _ onPath⟩

theorem Path.uses {tree : Tree} {path : List Constituent} (down : tree.Path path)
    {constituent : Constituent} (onPath : constituent ∈ path) : tree.Uses constituent := by
  induction down with
  | leaf =>
    rw [List.mem_singleton.1 onPath]
    exact .root _
  | child member _ ih =>
    rcases List.mem_cons.1 onPath with rfl | below
    · exact .root _
    · exact .child member (ih below)

/-- A tree is without cycles if its children are, and none of them uses what it is a tree of. -/
theorem acyclic_iff {tree : Tree} : tree.Acyclic ↔ ∀ child ∈ tree.children,
    child.Acyclic ∧ ¬ child.Uses tree.constituent := by
  constructor
  · intro acyclic child member
    constructor
    · exact fun path down => (List.nodup_cons.1 (acyclic _ (.child member down))).2
    · intro uses
      obtain ⟨path, down, onPath⟩ := uses.exists_path
      exact (List.nodup_cons.1 (acyclic _ (.child member down))).1 onPath
  · intro each path down
    cases down with
    | leaf => exact List.pairwise_singleton _ _
    | child member below =>
      obtain ⟨acyclic, unused⟩ := each _ member
      exact List.nodup_cons.2 ⟨fun onPath => unused (below.uses onPath), acyclic _ below⟩

theorem uses_iff {tree : Tree} {constituent : Constituent} : tree.Uses constituent ↔
    constituent = tree.constituent ∨ ∃ child ∈ tree.children, child.Uses constituent := by
  constructor
  · intro uses
    cases uses with
    | root => exact .inl rfl
    | child member uses => exact .inr ⟨_, member, uses⟩
  · rintro (rfl | ⟨child, member, uses⟩)
    · exact .root tree
    · exact .child member uses

mutual

/-- Decides whether a tree uses a constituent. -/
def uses (constituent : Constituent) : Tree → Bool
  | leaf symbol _ span => constituent = ⟨symbol, span⟩
  | reduction _ symbol span _ children =>
    constituent = ⟨symbol, span⟩ || usesAny constituent children

def usesAny (constituent : Constituent) : List Tree → Bool
  | [] => false
  | tree :: rest => uses constituent tree || usesAny constituent rest

end

mutual

theorem uses_eq_true_iff {constituent : Constituent} : ∀ tree : Tree,
    uses constituent tree = true ↔ tree.Uses constituent
  | leaf symbol text span => by
    rw [uses_iff, uses, decide_eq_true_iff]
    exact (or_iff_left fun ⟨_, member, _⟩ => absurd member List.not_mem_nil).symm
  | reduction tag symbol span arity children => by
    rw [uses_iff, uses, Bool.or_eq_true, decide_eq_true_iff, usesAny_eq_true_iff children]
    rfl

theorem usesAny_eq_true_iff {constituent : Constituent} : ∀ trees : List Tree,
    usesAny constituent trees = true ↔ ∃ tree ∈ trees, tree.Uses constituent
  | [] => by simp [usesAny]
  | tree :: rest => by simp [usesAny, uses_eq_true_iff tree, usesAny_eq_true_iff rest]

end

mutual

/-- Decides whether a tree is without cycles. -/
def isAcyclic : Tree → Bool
  | leaf .. => true
  | reduction _ symbol span _ children => areAcyclic ⟨symbol, span⟩ children

def areAcyclic (above : Constituent) : List Tree → Bool
  | [] => true
  | tree :: rest => isAcyclic tree && !uses above tree && areAcyclic above rest

end

mutual

theorem isAcyclic_eq_true_iff : ∀ tree : Tree, tree.isAcyclic = true ↔ tree.Acyclic
  | leaf .. => by
    rw [acyclic_iff]
    exact iff_of_true rfl fun _ member => absurd member List.not_mem_nil
  | reduction tag symbol span arity children => by
    rw [isAcyclic, acyclic_iff, areAcyclic_eq_true_iff]
    rfl

theorem areAcyclic_eq_true_iff {above : Constituent} : ∀ trees : List Tree,
    areAcyclic above trees = true ↔ ∀ tree ∈ trees, tree.Acyclic ∧ ¬ tree.Uses above
  | [] => by simp [areAcyclic]
  | tree :: rest => by
    simp [areAcyclic, isAcyclic_eq_true_iff tree, areAcyclic_eq_true_iff rest,
      ← uses_eq_true_iff tree]

end

instance (tree : Tree) : Decidable tree.Acyclic :=
  decidable_of_iff _ (isAcyclic_eq_true_iff tree)

end Tree

/-! ## The trees of a node -/

namespace Node

mutual

/-- The trees that a node packs. -/
def trees : Node → List Tree
  | leaf _ symbol text span => [.leaf symbol text span]
  | branch _ tag symbol span children =>
    (choices children).map (.reduction tag symbol span none)
  | list _ tag symbol span arity children =>
    (choices children).map (.reduction tag symbol span (some arity))
  | ambiguity _ _ _ alternatives => treesOfAny alternatives

/-- The ways to choose a tree of each node. -/
def choices : List Node → List (List Tree)
  | [] => [[]]
  | node :: rest => (trees node).flatMap fun tree => (choices rest).map (tree :: ·)

/-- The trees of all nodes. -/
def treesOfAny : List Node → List Tree
  | [] => []
  | node :: rest => trees node ++ treesOfAny rest

end

theorem mem_choices_iff {nodes : List Node} : ∀ {trees : List Tree},
    trees ∈ choices nodes ↔ List.Forall₂ (fun tree node => tree ∈ node.trees) trees nodes := by
  induction nodes with
  | nil =>
    intro trees
    rw [choices, List.mem_singleton, List.forall₂_nil_right_iff]
  | cons node rest ih =>
    intro trees
    rw [choices, List.mem_flatMap, List.forall₂_cons_right_iff]
    constructor
    · rintro ⟨tree, inNode, member⟩
      obtain ⟨others, inRest, rfl⟩ := List.mem_map.1 member
      exact ⟨tree, others, inNode, ih.1 inRest, rfl⟩
    · rintro ⟨tree, others, inNode, inRest, rfl⟩
      exact ⟨tree, inNode, List.mem_map.2 ⟨others, ih.2 inRest, rfl⟩⟩

theorem cons_mem_choices_iff {node : Node} {first : Tree} {others : List Tree}
    {rest : List Node} :
    first :: others ∈ choices (node :: rest) ↔ first ∈ node.trees ∧ others ∈ choices rest := by
  rw [mem_choices_iff, mem_choices_iff, List.forall₂_cons]

theorem exists_mem_choices {nodes : List Node} (each : ∀ node ∈ nodes, ∃ tree, tree ∈ node.trees) :
    ∃ chosen, chosen ∈ choices nodes := by
  induction nodes with
  | nil => exact ⟨[], List.mem_singleton.2 rfl⟩
  | cons node rest ih =>
    obtain ⟨tree, inTrees⟩ := each node List.mem_cons_self
    obtain ⟨chosen, isChoice⟩ := ih fun other member => each other (List.mem_cons_of_mem _ member)
    exact ⟨tree :: chosen, cons_mem_choices_iff.2 ⟨inTrees, isChoice⟩⟩

/-- What is chosen is of some node. -/
theorem exists_of_mem_choices {nodes : List Node} {tree : Tree} : ∀ {chosen : List Tree},
    chosen ∈ choices nodes → tree ∈ chosen → ∃ node ∈ nodes, tree ∈ node.trees := by
  induction nodes with
  | nil =>
    intro chosen isChoice isChosen
    rw [List.mem_singleton.1 isChoice] at isChosen
    cases isChosen
  | cons node rest ih =>
    intro chosen isChoice isChosen
    cases isChosen with
    | head => exact ⟨node, List.mem_cons_self, (cons_mem_choices_iff.1 isChoice).1⟩
    | tail first further =>
      obtain ⟨other, member, inOther⟩ := ih (cons_mem_choices_iff.1 isChoice).2 further
      exact ⟨other, List.mem_cons_of_mem _ member, inOther⟩

theorem mem_treesOfAny_iff {nodes : List Node} {tree : Tree} :
    tree ∈ treesOfAny nodes ↔ ∃ node ∈ nodes, tree ∈ node.trees := by
  induction nodes with
  | nil => simp [treesOfAny]
  | cons node rest ih => simp [treesOfAny, ih]

mutual

/-- Ids play no part in the trees of a node. -/
theorem trees_erase : ∀ node : Node, node.erase.trees = node.trees
  | leaf .. => rfl
  | branch _ tag symbol span children => by
    rw [erase, trees, trees, choices_eraseAll children]
  | list _ tag symbol span arity children => by
    rw [erase, trees, trees, choices_eraseAll children]
  | ambiguity _ symbol span alternatives => by
    rw [erase, trees, trees, treesOfAny_eraseAll alternatives]

theorem choices_eraseAll : ∀ nodes : List Node, choices (eraseAll nodes) = choices nodes
  | [] => rfl
  | node :: rest => by
    rw [eraseAll, choices, choices, trees_erase node, choices_eraseAll rest]

theorem treesOfAny_eraseAll : ∀ nodes : List Node, treesOfAny (eraseAll nodes) = treesOfAny nodes
  | [] => rfl
  | node :: rest => by
    rw [eraseAll, treesOfAny, treesOfAny, trees_erase node, treesOfAny_eraseAll rest]

end

/-- Nodes of the same structure pack the same trees. -/
theorem trees_eq_of_erase {node other : Node} (same : node.erase = other.erase) :
    node.trees = other.trees := by
  rw [← trees_erase node, same, trees_erase other]

end Node

/-! ## Derivations -/

/-- Spans that follow one another from an offset up to another. -/
def Tiles : Nat → List Span → Nat → Prop
  | start, [], stop => start = stop
  | start, span :: rest, stop =>
    span.start = start ∧ span.start ≤ span.stop ∧ Tiles span.stop rest stop

theorem Tiles.bounds {start stop : Nat} {spans : List Span} (tiles : Tiles start spans stop) :
    start ≤ stop ∧ ∀ span ∈ spans, start ≤ span.start ∧ span.start ≤ span.stop ∧
      span.stop ≤ stop := by
  induction spans generalizing start with
  | nil =>
    have here : start = stop := tiles
    exact ⟨Nat.le_of_eq here, fun _ member => absurd member List.not_mem_nil⟩
  | cons first rest ih =>
    obtain ⟨begins, ordered, further⟩ := tiles
    obtain ⟨bound, within⟩ := ih further
    refine ⟨by omega, fun span member => ?_⟩
    rcases List.mem_cons.1 member with rfl | inRest
    · exact ⟨Nat.le_of_eq begins.symm, ordered, bound⟩
    · have inside := within span inRest
      exact ⟨by omega, inside.2⟩

theorem tiles_append_iff {start stop : Nat} {first second : List Span} :
    Tiles start (first ++ second) stop ↔
      ∃ middle, Tiles start first middle ∧ Tiles middle second stop := by
  induction first generalizing start with
  | nil =>
    constructor
    · exact fun tiles => ⟨start, rfl, tiles⟩
    · rintro ⟨middle, rfl, tiles⟩
      exact tiles
  | cons span rest ih =>
    constructor
    · rintro ⟨begins, ordered, tiles⟩
      obtain ⟨middle, inner, outer⟩ := ih.1 tiles
      exact ⟨middle, ⟨begins, ordered, inner⟩, outer⟩
    · rintro ⟨middle, ⟨begins, ordered, inner⟩, outer⟩
      exact ⟨begins, ordered, ih.2 ⟨middle, inner, outer⟩⟩

namespace Production

/-- The tree of a reduction. -/
def reduction (production : Production) (span : Span) (children : List Tree) : Tree :=
  .reduction production.label production.lhs span
    (if production.isList then some production.separatorArity else none) children

/-- The places met on the way through a production, with the offset of each: one for every child,
and the completed place. -/
def places (production : Production) (spans : List Span) (stop : Nat) : List (Nat × Nat) :=
  spans.mapIdx (fun index span => (span.start, index % production.arity)) ++
    [(stop, production.arity)]

/-- The way through a production meets no place twice at an offset, and no element of a list without
separators matches nothing, unless it is the only one of a list that needs an element. -/
structure Tight (production : Production) (span : Span) (spans : List Span) : Prop where
  nodup : (production.places spans span.stop).Nodup
  elements : ∀ {repetition : Repetition}, production.kind = .list repetition →
    production.separatorArity = 0 → ∀ part ∈ spans, part.isEmpty = true →
      repetition = .plus ∧ spans = [part] ∧ span.isEmpty = true

end Production

namespace Tree

/-- The derivations of a grammar over an input, each reduction of which goes through its production
as it is allowed to. -/
inductive Derivation (g : Grammar) (input : Input)
    (allowed : Production → Span → List Span → Prop) : Tree → Prop
  | leaf {symbol : Symbol} {span : Span}
    (scanned : symbol.scan? input span.start = some span.stop) :
    Derivation g input allowed (.leaf symbol (input.slice span) span)
  | reduction {p : ProdId} {entry : WiredProduction} {span : Span} {children : List Tree}
    (found : g.prod? p = some entry)
    (expands : entry.production.Expands (children.map Tree.symbol))
    (tiles : Tiles span.start (children.map Tree.span) span.stop)
    (allows : allowed entry.production span (children.map Tree.span))
    (each : ∀ child ∈ children, Derivation g input allowed child) :
    Derivation g input allowed (entry.production.reduction span children)

/-- The derivations of a grammar over an input. -/
abbrev IsDerivation (g : Grammar) (input : Input) : Tree → Prop :=
  Derivation g input fun _ _ _ => True

theorem Derivation.imp {g : Grammar} {input : Input}
    {allowed permitted : Production → Span → List Span → Prop}
    (permits : ∀ {production span spans}, allowed production span spans →
      permitted production span spans) {tree : Tree}
    (derivation : tree.Derivation g input allowed) : tree.Derivation g input permitted := by
  induction derivation with
  | leaf scanned => exact .leaf scanned
  | reduction found expands tiles allows _ ih =>
    exact .reduction found expands tiles (permits allows) ih

/-- The derivations that go round in no circle. -/
structure Reduced (g : Grammar) (input : Input) (tree : Tree) : Prop where
  derivation : tree.Derivation g input Production.Tight
  acyclic : tree.Acyclic

theorem Derivation.child {g : Grammar} {input : Input}
    {allowed : Production → Span → List Span → Prop} {tree child : Tree}
    (derivation : tree.Derivation g input allowed) (member : child ∈ tree.children) :
    child.Derivation g input allowed := by
  cases derivation with
  | leaf => cases member
  | reduction _ _ _ _ each => exact each child member

theorem Reduced.child {g : Grammar} {input : Input} {tree child : Tree}
    (reduced : tree.Reduced g input) (member : child ∈ tree.children) :
    child.Reduced g input :=
  ⟨reduced.derivation.child member, (acyclic_iff.1 reduced.acyclic child member).1⟩

end Tree

end Scannerless
