import Std.Data.TreeMap
import Scannerless.Forest.Node
import Scannerless.Symbol.Text

/-!
# Forests as graphs

A forest flattened to numbered nodes. Each shared node gets one number, in the order of a walk that
visits a node before its children and children in order; an edge to a child is put down after the
child's own edges. The graph is written in the language of graph drawing tools.
-/

namespace Scannerless

/-- An edge between two numbered nodes. It is marked if it leads to an alternative. -/
structure SharingEdge where
  source : Nat
  target : Nat
  alternative : Bool
  deriving DecidableEq

/-- A forest flattened to numbered nodes. -/
structure SharingGraph where
  /-- The labels of the nodes, by number. -/
  labels : Array String := #[]
  edges : Array SharingEdge := #[]

/-- A graph in the making, with the numbers of the shared nodes met so far by id. -/
structure SharingGraph.Partial where
  graph : SharingGraph := {}
  numbers : Std.TreeMap Nat Nat := ∅

namespace SharingGraph

/-- The label of a node. -/
def labelOf : Node → String
  | .leaf _ _ text span => Text.quoted text ++ " " ++ span.describe
  | .branch _ tag _ span _ => tag ++ " " ++ span.describe
  | .list _ tag _ span _ _ => tag ++ " " ++ span.describe
  | .ambiguity _ symbol span _ => "amb " ++ symbol.describe ++ " " ++ span.describe

/-- Gives a node the next number. -/
def Partial.addNode (p : Partial) (node : Node) : Nat × Partial :=
  let number := p.graph.labels.size
  (number,
    { graph := { p.graph with labels := p.graph.labels.push (labelOf node) }
      numbers := p.numbers.insert node.id number })

/-- Puts down an edge. -/
def Partial.addEdge (p : Partial) (edge : SharingEdge) : Partial :=
  { p with graph := { p.graph with edges := p.graph.edges.push edge } }

/-- The number of a node: the known one, or the next one, after which the node's targets are
added. -/
def Partial.visit (p : Partial) (node : Node) (addTargets : Nat → Partial → Partial) :
    Nat × Partial :=
  match p.numbers[node.id]? with
  | some number => (number, p)
  | none =>
    let (number, p) := p.addNode node
    (number, addTargets number p)

mutual

/-- Adds a node and all that is under it. -/
def add : Node → Partial → Nat × Partial
  | .leaf id symbol text span, p => p.visit (.leaf id symbol text span) fun _ p => p
  | .branch id tag symbol span children, p =>
    p.visit (.branch id tag symbol span children) fun number => addAll number false children
  | .list id tag symbol span arity children, p =>
    p.visit (.list id tag symbol span arity children) fun number => addAll number false children
  | .ambiguity id symbol span alternatives, p =>
    p.visit (.ambiguity id symbol span alternatives) fun number => addAll number true alternatives

/-- Adds the targets of a node in order, each followed by the edge to it. -/
def addAll (source : Nat) (alternative : Bool) : List Node → Partial → Partial
  | [], p => p
  | node :: rest, p =>
    let (target, p) := add node p
    addAll source alternative rest (p.addEdge { source, target, alternative })

end

/-- The graph of the forest under a node. -/
def ofNode (root : Node) : SharingGraph :=
  (add root {}).2.graph

/-! ## Writing -/

/-- The line of a node. -/
def nodeLine (number : Nat) (label : String) : String :=
  "    n" ++ toString number ++ "[label=\"" ++ Text.label label ++ "\"];\n"

/-- The line of an edge. -/
def edgeLine (edge : SharingEdge) : String :=
  "    n" ++ toString edge.source ++ " -> n" ++ toString edge.target ++ "[label=\"" ++
    (if edge.alternative then "alt" else "") ++ "\"];\n"

/-- The graph in the language of graph drawing tools. -/
def render (graph : SharingGraph) : String :=
  "digraph forest \x7b\n" ++
    String.join (graph.labels.toList.mapIdx nodeLine) ++
    String.join (graph.edges.toList.map edgeLine) ++ "\x7d\n"

end SharingGraph

end Scannerless
