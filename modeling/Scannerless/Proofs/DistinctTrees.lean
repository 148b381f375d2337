import Scannerless.Proofs.CanonicalForests
import Scannerless.Proofs.Cycles
import Scannerless.Proofs.Policies

/-!
# Distinct trees

The count of a forest as an exact number. Nodes that are made one after another, each from nodes that
have been made before, are told apart by their ids however they are shared, so that the count of a
node is the number that the sums and products of its structure give, as far as a count can go.

In a forest that is packed from a text, that number counts different trees: no two choices among the
alternatives lead to the same tree.
-/

namespace Scannerless

namespace Node

/-! ## The exact count -/

mutual

/-- The number of trees of a node, each shared node counted wherever it stands. -/
def exactCount : Node → Nat
  | leaf .. => 1
  | branch _ _ _ _ children => exactProduct children
  | list _ _ _ _ _ children => exactProduct children
  | ambiguity _ _ _ alternatives => exactSum alternatives

def exactProduct : List Node → Nat
  | [] => 1
  | node :: rest => exactCount node * exactProduct rest

def exactSum : List Node → Nat
  | [] => 0
  | node :: rest => exactCount node + exactSum rest

end

mutual

theorem exactCount_eq : ∀ node : Node, node.exactCount = node.trees.length
  | leaf .. => rfl
  | branch _ _ _ _ children => by
    rw [exactCount, trees, List.length_map, exactProduct_eq children]
  | list _ _ _ _ _ children => by
    rw [exactCount, trees, List.length_map, exactProduct_eq children]
  | ambiguity _ _ _ alternatives => by
    rw [exactCount, trees, exactSum_eq alternatives]

theorem exactProduct_eq : ∀ nodes : List Node, exactProduct nodes = (choices nodes).length
  | [] => rfl
  | node :: rest => by
    rw [exactProduct, length_choices_cons, exactCount_eq node, exactProduct_eq rest]

theorem exactSum_eq : ∀ nodes : List Node, exactSum nodes = (treesOfAny nodes).length
  | [] => rfl
  | node :: rest => by
    rw [exactSum, length_treesOfAny_cons, exactCount_eq node, exactSum_eq rest]

end

/-! ## Nodes made one after another -/

/-- Nodes that have been made by the constructors, the last one first. Each is made from nodes that
have been made before, any of them any number of times, with an id that has not been used. -/
inductive Constructed : (next : Nat) → (made : List Node) → Prop
  | nil : Constructed 0 []
  | leaf {next : Nat} {made : List Node} (symbol : Symbol) (text : String) (span : Span)
    (earlier : Constructed next made) :
    Constructed (next + 1) (.leaf next symbol text span :: made)
  | branch {next : Nat} {made children : List Node} (tag : String) (symbol : Symbol) (span : Span)
    (earlier : Constructed next made) (known : ∀ child ∈ children, child ∈ made) :
    Constructed (next + 1) (.branch next tag symbol span children :: made)
  | list {next : Nat} {made children : List Node} {tag : String} {symbol : Symbol} {span : Span}
    {separatorArity : Nat} {node : Node} (earlier : Constructed next made)
    (known : ∀ child ∈ children, child ∈ made)
    (turns : list? next tag symbol span separatorArity children = some node) :
    Constructed (next + 1) (node :: made)
  | ambiguity {next : Nat} {made nodes : List Node} {symbol : Symbol} {span : Span} {node : Node}
    (earlier : Constructed next made) (known : ∀ other ∈ nodes, other ∈ made)
    (merged : merge? next symbol span nodes = some node) :
    Constructed (next + 1) (node :: made)

/-- Nodes that have their parts among them and are told apart by their ids. -/
structure Apart (next : Nat) (made : List Node) : Prop where
  below : ∀ node ∈ made, node.id < next
  parts : ∀ node ∈ made, ∀ part ∈ node.parts, part ∈ made
  eq_of_id : ∀ first ∈ made, ∀ second ∈ made, first.id = second.id → first = second

section Constructed

variable {next : Nat} {made nodes : List Node} {node other : Node}

theorem Apart.cons (apart : Apart next made) (id_eq : node.id = next)
    (known : ∀ part ∈ node.parts, part ∈ made) : Apart (next + 1) (node :: made) where
  below other member := by
    rcases List.mem_cons.1 member with rfl | old
    · exact id_eq ▸ Nat.lt_succ_self _
    · exact Nat.lt_succ_of_lt (apart.below other old)
  parts other member part isPart := by
    rcases List.mem_cons.1 member with rfl | old
    · exact List.mem_cons_of_mem _ (known part isPart)
    · exact List.mem_cons_of_mem _ (apart.parts other old part isPart)
  eq_of_id first isFirst second isSecond same := by
    rcases List.mem_cons.1 isFirst with rfl | oldFirst
    · rcases List.mem_cons.1 isSecond with rfl | oldSecond
      · rfl
      · exact absurd (same.symm.trans id_eq) (Nat.ne_of_lt (apart.below second oldSecond))
    · rcases List.mem_cons.1 isSecond with rfl | oldSecond
      · exact absurd (same.trans id_eq) (Nat.ne_of_lt (apart.below first oldFirst))
      · exact apart.eq_of_id first oldFirst second oldSecond same

/-- A node that has been made before is made again by using up an id. -/
theorem Apart.again (apart : Apart next made) (old : node ∈ made) :
    Apart (next + 1) (node :: made) := by
  have whole : ∀ other ∈ node :: made, other ∈ made := by
    intro other member
    rcases List.mem_cons.1 member with rfl | known
    · exact old
    · exact known
  refine ⟨fun other member => ?_, fun other member part isPart => ?_,
    fun first isFirst second isSecond => ?_⟩
  · exact Nat.lt_succ_of_lt (apart.below other (whole other member))
  · exact List.mem_cons_of_mem _ (apart.parts other (whole other member) part isPart)
  · exact apart.eq_of_id first (whole first isFirst) second (whole second isSecond)

/-- What is merged has been made before: the nodes themselves and the alternatives of those that are
ambiguities. -/
theorem Apart.mem_of_distinct (apart : Apart next made) (known : ∀ other ∈ nodes, other ∈ made)
    (member : node ∈ distinct nodes) : node ∈ made := by
  obtain ⟨other, inNodes, isPart⟩ := List.mem_flatMap.1 (mem_sorted member)
  have old := known other inNodes
  unfold unpacked at isPart
  split at isPart
  · exact apart.parts _ old node isPart
  · exact List.mem_singleton.1 isPart ▸ old

theorem Apart.merge (apart : Apart next made) (known : ∀ other ∈ nodes, other ∈ made)
    {symbol : Symbol} {span : Span} (merged : merge? next symbol span nodes = some node) :
    Apart (next + 1) (node :: made) := by
  rcases merge?_eq_some_iff.1 merged with single | ⟨-, rfl⟩
  · exact apart.again (apart.mem_of_distinct known (single ▸ List.mem_singleton_self _))
  · exact apart.cons rfl fun part isPart => apart.mem_of_distinct known isPart

theorem Constructed.apart (constructed : Constructed next made) : Apart next made := by
  induction constructed with
  | nil =>
    constructor <;> exact fun _ member => absurd member List.not_mem_nil
  | leaf _ _ _ _ ih => exact ih.cons rfl fun _ member => absurd member List.not_mem_nil
  | branch _ _ _ _ known ih => exact ih.cons rfl known
  | list _ known turns ih =>
    obtain ⟨-, rfl⟩ := list?_eq_some_iff.1 turns
    exact ih.cons rfl known
  | ambiguity _ known merged ih => exact ih.merge known merged

theorem Apart.mem_of_reaches (apart : Apart next made) (reaches : node.Reaches other)
    (member : node ∈ made) : other ∈ made := by
  induction reaches with
  | root => exact member
  | part isPart _ ih => exact ih (apart.parts _ member _ isPart)

/-- However the nodes that have been made are shared, they are told apart by their ids. -/
theorem Constructed.identified (constructed : Constructed next made) (member : node ∈ made) :
    node.Identified := by
  have apart := constructed.apart
  intro first second reaches reachesToo same
  exact apart.eq_of_id first (apart.mem_of_reaches reaches member) second
    (apart.mem_of_reaches reachesToo member) same

end Constructed

/-! ## Different trees -/

theorem nodup_choices {nodes : List Node} (each : ∀ node ∈ nodes, node.trees.Nodup) :
    (choices nodes).Nodup := by
  induction nodes with
  | nil => exact List.nodup_singleton _
  | cons node rest ih =>
    have further := ih fun other member => each other (List.mem_cons_of_mem _ member)
    rw [choices, List.nodup_flatMap]
    refine ⟨fun tree _ => further.map fun _ _ => List.tail_eq_of_cons_eq, ?_⟩
    refine (each node List.mem_cons_self).imp fun {first second} different => ?_
    intro chosen isFirst isSecond
    obtain ⟨_, -, rfl⟩ := List.mem_map.1 isFirst
    obtain ⟨_, -, eq⟩ := List.mem_map.1 isSecond
    exact different (List.head_eq_of_cons_eq eq).symm

theorem nodup_treesOfAny {nodes : List Node} (each : ∀ node ∈ nodes, node.trees.Nodup)
    (apart : nodes.Pairwise fun node other => List.Disjoint node.trees other.trees) :
    (treesOfAny nodes).Nodup := by
  induction nodes with
  | nil => exact List.nodup_nil
  | cons node rest ih =>
    obtain ⟨here, further⟩ := List.pairwise_cons.1 apart
    rw [treesOfAny]
    refine (each node List.mem_cons_self).append
      (ih (fun other member => each other (List.mem_cons_of_mem _ member)) further) ?_
    intro tree inNode inRest
    obtain ⟨other, member, inOther⟩ := mem_treesOfAny_iff.1 inRest
    exact here other member inNode inOther

section Trees

variable {g : Grammar} {input : Input} {chart : Chart} {node : Node} {constituent : Constituent}

/-- The alternatives of a made node have no tree in common: a tree tells by its outline which of
them it is of. -/
theorem FaithfulTo.disjoint_alternatives (wired : g.Wired)
    (faithful : node.FaithfulTo g input constituent) (all : node.All (Made g chart)) :
    node.alternatives.Pairwise fun first second => List.Disjoint first.trees second.trees := by
  obtain ⟨each, -, outlines⟩ := faithful.alternatives_apart all
  have different := List.pairwise_map.1 outlines
  refine different.imp_of_mem fun {first second} isFirst isSecond apart => ?_
  obtain ⟨plain, faithfulFirst, -⟩ := each first isFirst
  obtain ⟨plainToo, faithfulSecond, -⟩ := each second isSecond
  intro tree inFirst inSecond
  exact apart ((faithfulFirst.outline_eq wired plain inFirst).symm.trans
    (faithfulSecond.outline_eq wired plainToo inSecond))

/-- No two choices among the alternatives of a made forest lead to the same tree. -/
theorem FaithfulTo.nodup_trees (wired : g.Wired) : ∀ {constituent : Constituent},
    node.FaithfulTo g input constituent → node.All (Made g chart) → node.trees.Nodup := by
  induction node using induction_parts with
  | step node ih =>
    intro constituent faithful all
    have below : ∀ part ∈ node.parts, part.trees.Nodup := fun part member =>
      ih part member (faithful.part member) (all.part member)
    cases node with
    | leaf => exact List.nodup_singleton _
    | branch id tag symbol span children =>
      refine (nodup_choices below).map fun first second same => ?_
      injection same
    | list id tag symbol span arity children =>
      refine (nodup_choices below).map fun first second same => ?_
      injection same
    | ambiguity id symbol span alternatives =>
      exact nodup_treesOfAny below (faithful.disjoint_alternatives wired all)

end Trees

end Node

namespace Grammar

/-- The count of a node is exact as far as a count can go, however the nodes are made and shared: it
is the number that counting each shared node wherever it stands would give, or the largest count. Of
a text that is parsed, keeping its ambiguities, that number is the number of the trees of the forest,
which are all different. -/
theorem count_exact :
    (∀ (next : Nat) (made : List Node), Node.Constructed next made →
      ∀ node ∈ made, node.count = min (2 ^ 128 - 1) node.exactCount) ∧
    ∀ (start : Symbol) (script : List Declaration) (g : Grammar),
      (Grammar.ofScript start script).value = .ok g →
      ∀ (symbol : Symbol) (text : String) (root : Node),
        (g.parseSymbol .keep symbol text).value = .ok root →
          root.count = min (2 ^ 128 - 1) root.exactCount ∧
          root.exactCount = root.trees.length ∧ root.trees.Nodup := by
  have exact_ : ∀ {node : Node}, node.Identified →
      node.count = min (2 ^ 128 - 1) node.exactCount := by
    intro node identified
    rw [Node.count_eq identified, Node.exactCount_eq, Nat.min_comm]
    rfl
  refine ⟨fun next made constructed node member => exact_ (constructed.identified member), ?_⟩
  intro start script g built symbol text root parsed
  have wired := Wired.of_script built
  have full := wired.full_recognize (Input.ofString text) symbol
  obtain ⟨-, packed⟩ := parseSymbol_keep_iff.1 parsed
  have faithful := Packing.faithful_of_pack wired full [] packed
  obtain ⟨-, registry, all⟩ := Packing.regular_of_pack wired full [] packed
  refine ⟨exact_ (Packing.identified_of_regular all), Node.exactCount_eq root, ?_⟩
  exact faithful.nodup_trees wired (all.imp fun regular => regular.made)

/-- A node of `A` over the text `a`, by a production with the given label. -/
def sharedLetter (id : Nat) (tag : String) : Node :=
  .branch id tag (.nonTerminal "A") ⟨0, 1⟩ [.leaf 0 (.literal "a") "a" ⟨0, 1⟩]

/-- Two nodes that share a leaf are merged, and what they make is taken twice. -/
def sharedTwice : Node :=
  let both : Node := .ambiguity 3 (.nonTerminal "A") ⟨0, 1⟩
    [sharedLetter 1 "First", sharedLetter 2 "Second"]
  .branch 4 "Twice" (.nonTerminal "S") ⟨0, 1⟩ [both, both]

/-- `S ::= A | B`, `A ::= "a"` and `B ::= "a"`: the text `a` has two trees. A node that has such an
ambiguity twice among its children has four. -/
theorem count_exact_ambiguous : sharedTwice.count = 4 ∧ ∃ (g : Grammar) (root : Node),
    (Grammar.ofScript (.nonTerminal "S") Example.ambiguous).value = .ok g ∧
    (g.parseSymbol .keep (.nonTerminal "S") "a").value = .ok root ∧
    root.count = 2 ∧ root.trees.length = 2 ∧ root.trees.Nodup := by
  constructor
  · have letters : Node.Constructed 3 [sharedLetter 2 "Second", sharedLetter 1 "First",
        .leaf 0 (.literal "a") "a" ⟨0, 1⟩] :=
      .branch _ _ _ (.branch _ _ _ (.leaf _ _ _ .nil) (by simp)) (by simp)
    have merged : Node.merge? 3 (.nonTerminal "A") ⟨0, 1⟩
        [sharedLetter 1 "First", sharedLetter 2 "Second"] =
          some (.ambiguity 3 (.nonTerminal "A") ⟨0, 1⟩
            [sharedLetter 1 "First", sharedLetter 2 "Second"]) := rfl
    have twice : Node.Constructed 5 (sharedTwice :: _) :=
      .branch _ _ _ (.ambiguity letters (by simp) merged) (by simp)
    exact count_exact.1 5 _ twice sharedTwice List.mem_cons_self
  obtain ⟨g, built, tested⟩ := exists_of_script (.nonTerminal "S") Example.ambiguous
    (fun g => match (g.parseSymbol .keep (.nonTerminal "S") "a").value with
      | .ok root => root.exactCount == 2
      | .error _ => false)
    (by decide +kernel)
  split at tested
  · next root parsed =>
    obtain ⟨count_eq, exact_eq, nodup⟩ :=
      count_exact.2 _ _ g built (.nonTerminal "S") "a" root parsed
    have two := eq_of_beq tested
    rw [two] at count_eq exact_eq
    exact ⟨g, root, built, parsed, count_eq, exact_eq.symm, nodup⟩
  · cases tested

end Grammar

end Scannerless
