import Std.Data.TreeMap
import Std.Data.TreeSet
import Scannerless.Input
import Scannerless.Symbol.Order

/-!
# Stack nodes

A stack node stands for one position on the right-hand side of a production. Nodes of terminal
symbols match the text themselves. All others leave it to the productions of their symbol, and the
production they stand in goes on once that symbol has been reduced.

For each production that it is wired into, a node knows what may follow it there: every sequence
of nodes that completes the production. The empty sequence means that the production is complete
after the node.
-/

namespace Scannerless

/-- The identity of a stack node within its grammar. -/
abbrev NodeId := Nat

/-- The place of a production among those of its grammar. -/
abbrev ProdId := Nat

/-- One position on the right-hand side of a production. -/
structure StackNode where
  id : NodeId
  /-- The symbol that the node stands for. -/
  symbol : Symbol
  /-- The element node and the separator nodes of a list; none for any other symbol. -/
  parts : List NodeId := []
  /-- What may follow the node, by production. -/
  successors : Std.TreeMap ProdId (Std.TreeSet (List NodeId)) := ∅

/-- Where a terminal symbol that is matched from `offset` on ends, if it does match there. -/
def Symbol.scan? (symbol : Symbol) (input : Input) (offset : Nat) : Option Nat :=
  match symbol with
  | .literal text =>
    let chars := text.toList
    let stop := offset + chars.length
    if input.chars? offset stop = some chars then some stop else none
  | .charClass cls =>
    match input.charAt? offset with
    | some c => if cls.contains c then some (offset + 1) else none
    | none => none
  | .nonTerminal _ => none
  | .list _ _ _ => none

/-- What comes of a node at an offset. -/
inductive Step where
  /-- The node matched up to this offset. -/
  | matched (stop : Nat)
  /-- The node cannot match. -/
  | failed
  /-- Any reduction of this symbol that starts at the offset satisfies the node. -/
  | call (symbol : Symbol)

namespace StackNode

def isTerminal (node : StackNode) : Bool :=
  node.symbol.isTerminal

/-- Drives the node at an offset. -/
def step (node : StackNode) (input : Input) (offset : Nat) : Step :=
  if node.isTerminal then
    match node.symbol.scan? input offset with
    | some stop => .matched stop
    | none => .failed
  else
    .call node.symbol

/-- Takes note of what may follow the node in a production. -/
def addSuccessors (node : StackNode) (prod : ProdId) (sequences : List (List NodeId)) :
    StackNode :=
  { node with
    successors := node.successors.alter prod fun known =>
      some ((known.getD ∅).insertMany sequences) }

/-- What may follow the node in a production, in order. -/
def successorsIn (node : StackNode) (prod : ProdId) : List (List NodeId) :=
  match node.successors[prod]? with
  | some sequences => sequences.toList
  | none => []

end StackNode

end Scannerless
