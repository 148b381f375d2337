import Scannerless.Closure
import Scannerless.Grammar.Defect
import Scannerless.Production.Basic

/-!
# Grammars

A grammar has a start symbol, productions in the order of their registration, and stack nodes that
the productions are wired to, one node for each symbol of a right-hand side. `Grammar.assemble`
puts a grammar together and refuses defective ones.
-/

namespace Scannerless

/-- A production, and the nodes wired to its right-hand side in order. -/
structure WiredProduction where
  production : Production
  wiring : List NodeId

/-- What may follow the node at an index of the wiring. In a sequence, the nodes after it follow.
In a list the element follows the last separator, and after an element the list may end. -/
def WiredProduction.continuations (entry : WiredProduction) (index : Nat) :
    List (List NodeId) :=
  let after := entry.wiring.drop (index + 1)
  match entry.production.kind with
  | .sequence => [after]
  | .list _ =>
    let again := after ++ entry.wiring.take 1
    if index = 0 then [[], again] else [again]

/-- A scannerless context-free grammar. -/
structure Grammar where
  start : Symbol
  /-- All productions, by id. -/
  prods : Array WiredProduction := #[]
  /-- The productions that define a symbol, in increasing order. -/
  rules : Std.TreeMap Symbol (List ProdId) := ∅
  /-- The production with a label. -/
  labels : Std.TreeMap String ProdId := ∅
  nodes : Std.TreeMap NodeId StackNode := ∅

namespace Grammar

/-! ## What a grammar holds -/

def prod? (g : Grammar) (id : ProdId) : Option WiredProduction :=
  g.prods[id]?

def prodIds (g : Grammar) : List ProdId :=
  List.range g.prods.size

/-- The productions that define a symbol. -/
def prodsFor (g : Grammar) (symbol : Symbol) : List ProdId :=
  g.rules.getD symbol []

/-- Whether some production defines the symbol. -/
def isDefined (g : Grammar) (symbol : Symbol) : Bool :=
  g.rules.contains symbol

/-- The production with a label. -/
def withLabel? (g : Grammar) (label : String) : Option ProdId :=
  g.labels[label]?

def node? (g : Grammar) (id : NodeId) : Option StackNode :=
  g.nodes[id]?

/-- The nodes, by id. -/
def nodeList (g : Grammar) : List StackNode :=
  g.nodes.values

/-- The nodes wired to a production. -/
def wiring (g : Grammar) (id : ProdId) : List NodeId :=
  match g.prod? id with
  | some entry => entry.wiring
  | none => []

/-- The number of positions on the right-hand side of a production. -/
def slots (g : Grammar) (id : ProdId) : Nat :=
  (g.wiring id).length

/-- The node at a position of a production. -/
def nodeAt? (g : Grammar) (id : ProdId) (index : Nat) : Option StackNode :=
  (g.wiring id)[index]?.bind g.node?

/-! ## Reachability -/

/-- The symbols that the productions of a symbol refer to. -/
def symbolsUsed (g : Grammar) (symbol : Symbol) : List Symbol :=
  (g.prodsFor symbol).flatMap fun id =>
    (g.wiring id).filterMap fun node => (g.node? node).map StackNode.symbol

/-- The search for the symbols that derivations of the start symbol can use. All of them but the
start symbol belong to nodes, which bounds the number of levels. -/
def reach (g : Grammar) : Closure Symbol :=
  closure (g.nodes.size + 1) [g.start] g.symbolsUsed

/-- The symbols that derivations of the start symbol can use. -/
def reachable (g : Grammar) : Std.TreeSet Symbol :=
  g.reach.seen

/-- The defined symbols that no derivation of the start symbol can use, in order. -/
def unreachable (g : Grammar) : List Symbol :=
  let reachable := g.reachable
  g.rules.keys.filter fun symbol => !reachable.contains symbol

/-! ## Assembly -/

/-- The first id that stands twice, given those that have been seen. -/
def firstRepeat? (seen : List NodeId) : List NodeId → Option NodeId
  | [] => none
  | id :: rest => if id ∈ seen then some id else firstRepeat? (id :: seen) rest

/-- Tells the nodes from `index` on what may follow them in a production. -/
def connect (prod : ProdId) (entry : WiredProduction) :
    (index : Nat) → List NodeId → Std.TreeMap NodeId StackNode →
      Except Defect (Std.TreeMap NodeId StackNode)
  | _, [], nodes => .ok nodes
  | index, id :: rest, nodes =>
    match nodes[id]? with
    | none => .error (.unknownNode entry.production.label id)
    | some node =>
      connect prod entry (index + 1) rest
        (nodes.insert id (node.addSuccessors prod (entry.continuations index)))

/-- Adds a production to the grammar. -/
def register (g : Grammar) (entry : WiredProduction) : Except Defect Grammar :=
  let id := g.prods.size
  let label := entry.production.label
  let lhs := entry.production.lhs
  if !entry.production.definesLhs then .error (.invalidLhs label lhs)
  else if g.labels.contains label then .error (.duplicateLabel label)
  else
    match firstRepeat? [] entry.wiring with
    | some node => .error (.reusedNode label node)
    | none =>
      match connect id entry 0 entry.wiring g.nodes with
      | .error defect => .error defect
      | .ok nodes =>
        .ok { g with
          prods := g.prods.push entry
          rules := g.rules.insert lhs (g.prodsFor lhs ++ [id])
          labels := g.labels.insert label id
          nodes := nodes }

/-- The first symbol that needs productions and has none: the start symbol is looked at first, then
the symbols of the nodes. -/
def undefined? (g : Grammar) : Option Symbol :=
  if g.isDefined g.start then
    (g.nodeList.map StackNode.symbol).find? fun symbol =>
      symbol.hasProductions && !g.isDefined symbol
  else
    some g.start

/-- The grammar with these productions and nodes. -/
def assemble (start : Symbol) (entries : List WiredProduction)
    (nodes : Std.TreeMap NodeId StackNode) : Except Defect Grammar :=
  match entries.foldlM register { start, nodes } with
  | .error defect => .error defect
  | .ok g =>
    match g.undefined? with
    | some symbol => .error (.undefinedSymbol symbol)
    | none => .ok g

end Grammar

end Scannerless
