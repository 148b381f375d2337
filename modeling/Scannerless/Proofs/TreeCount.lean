import Mathlib.Algebra.Group.Nat.Units
import Scannerless.Forest.Count
import Scannerless.Proofs.MadeNodes

/-!
# The number of trees

The count of a forest is the number of its trees, as far as a count can go: what is known of a
shared node is the count of that node, if nodes are told apart by their ids, and stopping at the
largest count is no different on the way than at the end.

A forest of sound nodes packs a single tree just if it has no ambiguity, and the first ambiguity is
the first that a walk meets that visits a node before its parts.
-/

namespace Scannerless

namespace Node

/-! ## Counts that stop -/

theorem saturatingAdd_min (m n : Nat) :
    saturatingAdd (min m countLimit) (min n countLimit) = min (m + n) countLimit := by
  unfold saturatingAdd
  omega

theorem saturatingMul_min (m n : Nat) :
    saturatingMul (min m countLimit) (min n countLimit) = min (m * n) countLimit := by
  unfold saturatingMul
  generalize countLimit = limit
  rcases Nat.eq_zero_or_pos m with rfl | someM
  · simp
  rcases Nat.eq_zero_or_pos n with rfl | someN
  · simp
  rcases Nat.eq_zero_or_pos limit with rfl | someLimit
  · simp
  rcases Nat.le_total m limit with leM | geM
  · rcases Nat.le_total n limit with leN | geN
    · rw [Nat.min_eq_left leM, Nat.min_eq_left leN]
    · have left : limit ≤ m * limit := Nat.le_mul_of_pos_left limit someM
      have right : limit ≤ m * n := Nat.le_trans left (Nat.mul_le_mul_left m geN)
      rw [Nat.min_eq_left leM, Nat.min_eq_right geN, Nat.min_eq_right left, Nat.min_eq_right right]
  · have left : limit ≤ limit * min n limit :=
      Nat.le_mul_of_pos_right limit (Nat.lt_min.2 ⟨someN, someLimit⟩)
    have right : limit ≤ m * n := Nat.le_trans geM (Nat.le_mul_of_pos_right m someN)
    rw [Nat.min_eq_right geM, Nat.min_eq_right left, Nat.min_eq_right right]

theorem one_min_countLimit : min 1 countLimit = 1 := by
  decide

/-! ## Counts of shared nodes -/

/-- The nodes of a forest are told apart by their ids. -/
def Identified (node : Node) : Prop :=
  ∀ {first second : Node}, node.Reaches first → node.Reaches second → first.id = second.id →
    first = second

/-- What is known of the nodes of a forest are their numbers of trees. -/
def Counted (root : Node) (known : Counts) : Prop :=
  ∀ {node : Node} {count : Nat}, root.Reaches node → known[node.id]? = some count →
    count = min node.trees.length countLimit

theorem length_choices_cons (node : Node) (rest : List Node) :
    (choices (node :: rest)).length = node.trees.length * (choices rest).length := by
  rw [choices, List.length_flatMap]
  simp [List.map_const']

theorem length_treesOfAny_cons (node : Node) (rest : List Node) :
    (treesOfAny (node :: rest)).length = node.trees.length + (treesOfAny rest).length := by
  rw [treesOfAny, List.length_append]

section Counted

variable {root node : Node} {known : Counts}

/-- Recalling a count is right, if computing it is. -/
theorem Counted.recall (identified : root.Identified) (counted : Counted root known)
    (inRoot : root.Reaches node) {compute : Counts → Nat × Counts}
    (computes : (compute known).1 = min node.trees.length countLimit ∧
      Counted root (compute known).2) :
    (known.recall node.id compute).1 = min node.trees.length countLimit ∧
      Counted root (known.recall node.id compute).2 := by
  unfold Counts.recall
  cases found : known[node.id]? with
  | some count => exact ⟨counted inRoot found, counted⟩
  | none =>
    refine ⟨computes.1, fun {other count} otherInRoot foundLater => ?_⟩
    dsimp only at foundLater
    rw [Std.TreeMap.getElem?_insert] at foundLater
    split at foundLater
    · next same =>
      obtain rfl := identified inRoot otherInRoot (Std.LawfulEqOrd.eq_of_compare same)
      rw [← Option.some.inj foundLater]
      exact computes.1
    · exact computes.2 otherInRoot foundLater

mutual

theorem Counted.countFrom (identified : root.Identified) :
    ∀ (node : Node) {known : Counts}, root.Reaches node → Counted root known →
      (node.countFrom known).1 = min node.trees.length countLimit ∧
        Counted root (node.countFrom known).2
  | leaf id symbol text span, known, inRoot, counted => by
    rw [Node.countFrom]
    exact counted.recall identified inRoot ⟨rfl, counted⟩
  | branch id tag symbol span children, known, inRoot, counted => by
    rw [Node.countFrom]
    refine counted.recall identified inRoot ?_
    have counts := Counted.productFrom identified children 1
      (fun child member => inRoot.trans (.part member (.root child))) counted
    rw [one_min_countLimit, Nat.one_mul] at counts
    rwa [trees, List.length_map]
  | list id tag symbol span arity children, known, inRoot, counted => by
    rw [Node.countFrom]
    refine counted.recall identified inRoot ?_
    have counts := Counted.productFrom identified children 1
      (fun child member => inRoot.trans (.part member (.root child))) counted
    rw [one_min_countLimit, Nat.one_mul] at counts
    rwa [trees, List.length_map]
  | ambiguity id symbol span alternatives, known, inRoot, counted => by
    rw [Node.countFrom]
    refine counted.recall identified inRoot ?_
    have counts := Counted.sumFrom identified alternatives 0
      (fun child member => inRoot.trans (.part member (.root child))) counted
    rwa [Nat.zero_min, Nat.zero_add] at counts

theorem Counted.productFrom (identified : root.Identified) :
    ∀ (nodes : List Node) (product : Nat) {known : Counts}, (∀ node ∈ nodes, root.Reaches node) →
      Counted root known →
        (productFrom nodes (min product countLimit) known).1 =
            min (product * (choices nodes).length) countLimit ∧
          Counted root (productFrom nodes (min product countLimit) known).2
  | [], product, known, _, counted => by
    rw [Node.productFrom, choices]
    exact ⟨by simp, counted⟩
  | node :: rest, product, known, inRoot, counted => by
    obtain ⟨count_eq, counts⟩ :=
      Counted.countFrom identified node (inRoot node List.mem_cons_self) counted
    rw [Node.productFrom]
    dsimp only
    rw [count_eq, saturatingMul_min, length_choices_cons, ← Nat.mul_assoc]
    exact Counted.productFrom identified rest (product * node.trees.length)
      (fun other member => inRoot other (List.mem_cons_of_mem _ member)) counts

theorem Counted.sumFrom (identified : root.Identified) :
    ∀ (nodes : List Node) (sum : Nat) {known : Counts}, (∀ node ∈ nodes, root.Reaches node) →
      Counted root known →
        (sumFrom nodes (min sum countLimit) known).1 =
            min (sum + (treesOfAny nodes).length) countLimit ∧
          Counted root (sumFrom nodes (min sum countLimit) known).2
  | [], sum, known, _, counted => by
    rw [Node.sumFrom, treesOfAny]
    exact ⟨rfl, counted⟩
  | node :: rest, sum, known, inRoot, counted => by
    obtain ⟨count_eq, counts⟩ :=
      Counted.countFrom identified node (inRoot node List.mem_cons_self) counted
    rw [Node.sumFrom]
    dsimp only
    rw [count_eq, saturatingAdd_min, length_treesOfAny_cons, ← Nat.add_assoc]
    exact Counted.sumFrom identified rest (sum + node.trees.length)
      (fun other member => inRoot other (List.mem_cons_of_mem _ member)) counts

end

end Counted

/-- The count of a forest is the number of its trees, as far as a count can go. -/
theorem count_eq {node : Node} (identified : node.Identified) :
    node.count = min node.trees.length countLimit :=
  (Counted.countFrom identified node (.root node) fun _ found => by simp at found).1

theorem count_eq_one_iff {node : Node} (identified : node.Identified) :
    node.count = 1 ↔ node.trees.length = 1 := by
  have several : 1 < countLimit := by decide
  rw [count_eq identified]
  omega

/-! ## Ambiguities -/

mutual

/-- The nodes of a forest, each before its parts and parts in order. -/
def preorder : Node → List Node
  | leaf id symbol text span => [leaf id symbol text span]
  | branch id tag symbol span children =>
    branch id tag symbol span children :: preorderAll children
  | list id tag symbol span arity children =>
    list id tag symbol span arity children :: preorderAll children
  | ambiguity id symbol span alternatives =>
    ambiguity id symbol span alternatives :: preorderAll alternatives

/-- The nodes of several forests, one after another. -/
def preorderAll : List Node → List Node
  | [] => []
  | node :: rest => preorder node ++ preorderAll rest

end

theorem mem_preorderAll {nodes : List Node} {other : Node} :
    other ∈ preorderAll nodes ↔ ∃ node ∈ nodes, other ∈ node.preorder := by
  induction nodes with
  | nil => simp [preorderAll]
  | cons node rest ih => simp [preorderAll, ih]

theorem preorder_eq (node : Node) : node.preorder = node :: preorderAll node.parts := by
  cases node <;> rfl

/-- A walk meets all nodes of the forest. -/
theorem mem_preorder_iff {node other : Node} : other ∈ node.preorder ↔ node.Reaches other := by
  induction node using induction_parts with
  | step node ih =>
    rw [preorder_eq, List.mem_cons, mem_preorderAll]
    constructor
    · rintro (rfl | ⟨part, member, below⟩)
      · exact .root other
      · exact .part member ((ih part member).1 below)
    · intro reaches
      cases reaches with
      | root => exact .inl rfl
      | part member below => exact .inr ⟨_, member, (ih _ member).2 below⟩

/-- The ambiguity that a node is. -/
def found (node : Node) : AmbiguityFound :=
  ⟨node.symbol, node.span⟩

mutual

/-- The first ambiguity is the first that a walk meets. -/
theorem ambiguity?_eq : ∀ node : Node,
    node.ambiguity? = (node.preorder.find? isAmbiguous).map found
  | leaf .. => rfl
  | branch _ _ _ _ children => by
    rw [ambiguity?, ambiguityIn?_eq children]
    rfl
  | list _ _ _ _ _ children => by
    rw [ambiguity?, ambiguityIn?_eq children]
    rfl
  | ambiguity .. => rfl

theorem ambiguityIn?_eq : ∀ nodes : List Node,
    ambiguityIn? nodes = ((preorderAll nodes).find? isAmbiguous).map found
  | [] => rfl
  | node :: rest => by
    rw [ambiguityIn?, ambiguity?_eq node, ambiguityIn?_eq rest, preorderAll, List.find?_append]
    cases node.preorder.find? isAmbiguous <;> rfl

end

theorem ambiguityIn?_eq_none_iff {nodes : List Node} :
    ambiguityIn? nodes = none ↔ ∀ node ∈ nodes, node.ambiguity? = none := by
  induction nodes with
  | nil => simp [ambiguityIn?]
  | cons node rest ih =>
    rw [ambiguityIn?, List.forall_mem_cons, ← ih]
    cases node.ambiguity? <;> simp

theorem length_choices_eq_one_iff {nodes : List Node} :
    (choices nodes).length = 1 ↔ ∀ node ∈ nodes, node.trees.length = 1 := by
  induction nodes with
  | nil => simp [choices]
  | cons node rest ih =>
    rw [length_choices_cons, mul_eq_one, ih, List.forall_mem_cons]

theorem length_le_treesOfAny (nodes : List Node) (each : ∀ node ∈ nodes, node.trees ≠ []) :
    nodes.length ≤ (treesOfAny nodes).length := by
  induction nodes with
  | nil => exact Nat.zero_le _
  | cons node rest ih =>
    have here := List.length_pos_iff.2 (each node List.mem_cons_self)
    have further := ih fun other member => each other (List.mem_cons_of_mem _ member)
    rw [length_treesOfAny_cons, List.length_cons]
    omega

/-- A forest of sound nodes packs a single tree just if it has no ambiguity. -/
theorem FaithfulTo.length_trees_eq_one_iff {g : Grammar} {input : Input} {node : Node} :
    ∀ {constituent : Constituent}, node.FaithfulTo g input constituent →
      (node.trees.length = 1 ↔ node.ambiguity? = none) := by
  induction node using induction_parts with
  | step node ih =>
    intro constituent faithful
    have together : (choices node.parts).length = 1 ↔ ambiguityIn? node.parts = none := by
      rw [length_choices_eq_one_iff, ambiguityIn?_eq_none_iff]
      exact forall₂_congr fun part member => ih part member (faithful.part member)
    cases node with
    | leaf => exact iff_of_true rfl rfl
    | branch =>
      rw [trees, List.length_map]
      exact together
    | list =>
      rw [trees, List.length_map]
      exact together
    | ambiguity id symbol span alternatives =>
      have whole := faithful.sound (.root _)
      cases whole with
      | ambiguity several =>
        refine iff_of_false (fun single => ?_) nofun
        rw [trees] at single
        have enough := length_le_treesOfAny alternatives fun alternative member => by
          obtain ⟨tree, inTrees⟩ := (faithful.part member).exists_tree
          exact List.ne_nil_of_mem inTrees
        omega

end Node

/-- The registry tells apart the nodes that are packed. -/
theorem Packing.identified_of_regular {g : Grammar} {chart : Chart} {barred : Constituent → Prop}
    {registry : Registry} {node : Node} (all : node.All (Regular g chart barred registry)) :
    node.Identified := by
  intro first second reaches reachesToo same
  rw [← (all.of_reaches reaches).noted.2, same, (all.of_reaches reachesToo).noted.2]

end Scannerless
