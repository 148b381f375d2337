import Scannerless.Forest.Node

/-!
# The order of nodes

Nodes are compared by structure, and their ids play no part. Leaves come before reductions of
sequences, these before reductions of lists, and lists before ambiguities; within a kind, nodes
compare part by part. `Node.merge?` keeps the alternatives of an ambiguity as a set in this order.
-/

namespace Scannerless

namespace Node

/-- The place of the node's kind in the order of kinds. -/
def rank : Node → Nat
  | leaf .. => 0
  | branch .. => 1
  | list .. => 2
  | ambiguity .. => 3

mutual

/-- Compares two nodes by structure. -/
def cmp : Node → Node → Ordering
  | leaf _ symbol text span, leaf _ symbol' text' span' =>
    (compare symbol symbol').then <| (compare text text').then <| compare span span'
  | branch _ tag symbol span children, branch _ tag' symbol' span' children' =>
    (compare tag tag').then <| (compare symbol symbol').then <| (compare span span').then <|
      cmpAll children children'
  | list _ tag symbol span arity children, list _ tag' symbol' span' arity' children' =>
    (compare tag tag').then <| (compare symbol symbol').then <| (compare span span').then <|
      (compare arity arity').then <| cmpAll children children'
  | ambiguity _ symbol span alternatives, ambiguity _ symbol' span' alternatives' =>
    (compare symbol symbol').then <| (compare span span').then <|
      cmpAll alternatives alternatives'
  | a, b => compare a.rank b.rank

/-- Compares two sequences of nodes lexicographically. -/
def cmpAll : List Node → List Node → Ordering
  | [], [] => .eq
  | [], _ :: _ => .lt
  | _ :: _, [] => .gt
  | a :: as, b :: bs => (cmp a b).then (cmpAll as bs)

end

instance : Ord Node where
  compare := cmp

/-! ## Structure alone -/

mutual

/-- The node with all ids forgotten. Nodes have the same structure if they erase to the same. -/
def erase : Node → Node
  | leaf _ symbol text span => leaf 0 symbol text span
  | branch _ tag symbol span children => branch 0 tag symbol span (eraseAll children)
  | list _ tag symbol span arity children => list 0 tag symbol span arity (eraseAll children)
  | ambiguity _ symbol span alternatives => ambiguity 0 symbol span (eraseAll alternatives)

/-- The nodes with all ids forgotten. -/
def eraseAll : List Node → List Node
  | [] => []
  | node :: rest => erase node :: eraseAll rest

end

/-! ## Sets of alternatives -/

/-- Adds a node to nodes in increasing order. It takes the place of one with the same structure. -/
def insertInto (node : Node) : List Node → List Node
  | [] => [node]
  | other :: rest =>
    match cmp node other with
    | .lt => node :: other :: rest
    | .eq => node :: rest
    | .gt => other :: node.insertInto rest

/-- The structurally different nodes among the given ones, in increasing order. -/
def sorted (nodes : List Node) : List Node :=
  nodes.foldl (fun set node => node.insertInto set) []

/-- What a node brings to an ambiguity: an ambiguity its alternatives, any other node itself. -/
def unpacked (node : Node) : List Node :=
  match node with
  | ambiguity _ _ _ (first :: rest) => first :: rest
  | node => [node]

/-- The structurally different nodes among the given ones and the alternatives of the given
ambiguities, in increasing order. -/
def distinct (nodes : List Node) : List Node :=
  sorted (nodes.flatMap unpacked)

/-- Merges the derivations of a symbol over a span. A single derivation is given as it is; several
make an ambiguity node, which gets the id. -/
def merge? (id : Nat) (symbol : Symbol) (span : Span) (nodes : List Node) : Option Node :=
  match distinct nodes with
  | [] => none
  | [node] => some node
  | alternatives => some (.ambiguity id symbol span alternatives)

end Node

end Scannerless
