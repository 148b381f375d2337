import Std.Data.TreeMap
import Scannerless.Forest.Node

/-!
# Counting trees

How many trees a forest packs: a leaf is one tree, an ambiguity is as many as all its alternatives
together, and a reduction as many as there are ways to choose a tree for each child. The count
stops at the largest number of 128 bits. Shared nodes are counted once and looked up afterwards.
-/

namespace Scannerless

namespace Node

/-- The largest count. -/
def countLimit : Nat := Nat.pow 2 128 - 1

/-- The sum, or the largest count. -/
def saturatingAdd (m n : Nat) : Nat :=
  min (m + n) countLimit

/-- The product, or the largest count. -/
def saturatingMul (m n : Nat) : Nat :=
  min (m * n) countLimit

/-- The counts of shared nodes, by id. -/
abbrev Counts := Std.TreeMap Nat Nat

/-- The count of a shared node: the known one, or the computed one, which is then known. -/
def Counts.recall (known : Counts) (id : Nat) (compute : Counts → Nat × Counts) : Nat × Counts :=
  match known[id]? with
  | some count => (count, known)
  | none =>
    let (count, known) := compute known
    (count, known.insert id count)

mutual

/-- Counts the trees of a node. -/
def countFrom : Node → Counts → Nat × Counts
  | leaf id _ _ _, known => known.recall id fun known => (1, known)
  | branch id _ _ _ children, known => known.recall id (productFrom children 1)
  | list id _ _ _ _ children, known => known.recall id (productFrom children 1)
  | ambiguity id _ _ alternatives, known => known.recall id (sumFrom alternatives 0)

/-- Multiplies the counts of nodes to a number. -/
def productFrom : List Node → Nat → Counts → Nat × Counts
  | [], product, known => (product, known)
  | node :: rest, product, known =>
    let (count, known) := countFrom node known
    productFrom rest (saturatingMul product count) known

/-- Adds the counts of nodes to a number. -/
def sumFrom : List Node → Nat → Counts → Nat × Counts
  | [], sum, known => (sum, known)
  | node :: rest, sum, known =>
    let (count, known) := countFrom node known
    sumFrom rest (saturatingAdd sum count) known

end

/-- The number of trees that the forest under a node packs. -/
def count (node : Node) : Nat :=
  (node.countFrom ∅).1

end Node

end Scannerless
