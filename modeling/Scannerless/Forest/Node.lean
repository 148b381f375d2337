import Scannerless.Input
import Scannerless.Symbol.Order

/-!
# Forest nodes

A forest packs the derivations of a text. A leaf is text that a terminal matched. A reduction of a
sequence production has the children of its right-hand side; a reduction of a list production has
elements and separators by turns. An ambiguity node has the different derivations of one symbol
over one span.

Nodes are shared. Each carries an id, and two nodes are the same shared node if they have the same
id. Apart from the graph of a forest, ids do not matter: nodes are compared by structure.
-/

namespace Scannerless

/-- A node of a forest. -/
inductive Node where
  /-- Text matched by a terminal symbol. -/
  | leaf (id : Nat) (symbol : Symbol) (text : String) (span : Span)
  /-- A reduction of a sequence production, which the tag names. -/
  | branch (id : Nat) (tag : String) (symbol : Symbol) (span : Span) (children : List Node)
  /-- A reduction of a list production with so many separators between two elements. -/
  | list (id : Nat) (tag : String) (symbol : Symbol) (span : Span) (separatorArity : Nat)
    (children : List Node)
  /-- Different derivations, in increasing order. -/
  | ambiguity (id : Nat) (symbol : Symbol) (span : Span) (alternatives : List Node)
  deriving Inhabited

/-- An ambiguity: a symbol with several derivations over a span. -/
structure AmbiguityFound where
  symbol : Symbol
  span : Span
  deriving DecidableEq

namespace Node

/-! ## Parts -/

def id : Node → Nat
  | leaf id .. => id
  | branch id .. => id
  | list id .. => id
  | ambiguity id .. => id

def symbol : Node → Symbol
  | leaf _ symbol _ _ => symbol
  | branch _ _ symbol _ _ => symbol
  | list _ _ symbol _ _ _ => symbol
  | ambiguity _ symbol _ _ => symbol

def span : Node → Span
  | leaf _ _ _ span => span
  | branch _ _ _ span _ => span
  | list _ _ _ span _ _ => span
  | ambiguity _ _ span _ => span

/-- The label of the production that a reduction is of. -/
def tag? : Node → Option String
  | leaf .. => none
  | branch _ tag .. => some tag
  | list _ tag .. => some tag
  | ambiguity .. => none

/-- The children of a reduction. -/
def children : Node → List Node
  | leaf .. => []
  | branch _ _ _ _ children => children
  | list _ _ _ _ _ children => children
  | ambiguity .. => []

def isLeaf : Node → Bool
  | leaf .. => true
  | _ => false

def isAmbiguous : Node → Bool
  | ambiguity .. => true
  | _ => false

/-- The alternatives of an ambiguity node. Any other node is its only alternative. -/
def alternatives : Node → List Node
  | ambiguity _ _ _ alternatives => alternatives
  | node => [node]

/-! ## Lists -/

/-- The children of a reduction of a list production, and how many of them separate two
elements. -/
structure ListParts where
  separatorArity : Nat
  children : List Node

/-- The value after `skip` values, and from there on the value after every `step` values. -/
def everyAfter (step : Nat) : (skip : Nat) → List Node → List Node
  | _, [] => []
  | 0, node :: rest => node :: everyAfter step step rest
  | skip + 1, _ :: rest => everyAfter step skip rest

/-- The elements, in order. -/
def ListParts.elements (parts : ListParts) : List Node :=
  everyAfter parts.separatorArity 0 parts.children

/-- The separators, in order: the children that do not stand where an element is due. -/
def ListParts.separators (parts : ListParts) : List Node :=
  (parts.children.zipIdx.filter fun (_, i) => i % (parts.separatorArity + 1) != 0).map Prod.fst

/-- The number of children from one element to the next, if it is a machine word. -/
def stride? (separatorArity : Nat) : Option Nat :=
  if separatorArity + 1 < UInt64.size then some (separatorArity + 1) else none

/-- The elements, unless they are too far apart for a machine word. -/
def ListParts.elements? (parts : ListParts) : Option (List Node) :=
  (stride? parts.separatorArity).map fun stride => everyAfter (stride - 1) 0 parts.children

/-- The separators, unless the elements are too far apart for a machine word. -/
def ListParts.separators? (parts : ListParts) : Option (List Node) :=
  (stride? parts.separatorArity).map fun stride =>
    (parts.children.zipIdx.filter fun (_, i) => i % stride != 0).map Prod.fst

/-- The parts of a reduction of a list production. -/
def listParts? : Node → Option ListParts
  | list _ _ _ _ separatorArity children => some { separatorArity, children }
  | _ => none

/-- Whether elements and separators take turns, with an element at both ends. -/
def Alternating (separatorArity : Nat) (children : List Node) : Prop :=
  children = [] ∨ (children.length - 1) % (separatorArity + 1) = 0

instance (separatorArity : Nat) (children : List Node) :
    Decidable (Alternating separatorArity children) :=
  match children with
  | [] => .isTrue (.inl rfl)
  | node :: rest =>
    if h : ((node :: rest).length - 1) % (separatorArity + 1) = 0 then .isTrue (.inr h)
    else .isFalse fun alternating => alternating.elim (fun empty => by contradiction) h

/-- A reduction of a list production, if elements and separators take turns. The arity is counted on
the production, and may be any number. For an arity that is given as a machine word see `ofList`. -/
def list? (id : Nat) (tag : String) (symbol : Symbol) (span : Span) (separatorArity : Nat)
    (children : List Node) : Option Node :=
  if Alternating separatorArity children then
    some (.list id tag symbol span separatorArity children)
  else none

theorem list?_eq_some_iff {id : Nat} {tag : String} {symbol : Symbol} {span : Span}
    {separatorArity : Nat} {children : List Node} {node : Node} :
    list? id tag symbol span separatorArity children = some node ↔
      Alternating separatorArity children ∧
        node = .list id tag symbol span separatorArity children := by
  rw [list?, Option.ite_none_right_eq_some, Option.some.injEq, eq_comm]

/-- Why a list is refused. -/
inductive ListFault where
  /-- The elements are too far apart for a machine word. -/
  | overflow
  /-- Elements and separators do not take turns. -/
  | uneven
  deriving DecidableEq

/-- The wording of a refusal, if it has one. -/
def ListFault.message? : ListFault → Option String
  | overflow => none
  | uneven => some "List children must alternate elements and separators."

/-- A list of the given arity, if elements and separators take turns. How far apart the elements are
is not asked if there are no children. -/
def ofList (id : Nat) (tag : String) (symbol : Symbol) (span : Span) (separatorArity : UInt64)
    (children : List Node) : Except ListFault Node :=
  let made : Node := .list id tag symbol span separatorArity.toNat children
  if children.isEmpty then .ok made
  else
    match stride? separatorArity.toNat with
    | none => .error .overflow
    | some stride =>
      if (children.length - 1) % stride = 0 then .ok made else .error .uneven

/-! ## Ambiguity -/

mutual

/-- The first ambiguity, a node before its children and children in order. -/
def ambiguity? : Node → Option AmbiguityFound
  | leaf .. => none
  | branch _ _ _ _ children => ambiguityIn? children
  | list _ _ _ _ _ children => ambiguityIn? children
  | ambiguity _ symbol span _ => some { symbol, span }

/-- The first ambiguity in a sequence of nodes. -/
def ambiguityIn? : List Node → Option AmbiguityFound
  | [] => none
  | node :: rest =>
    match ambiguity? node with
    | some found => some found
    | none => ambiguityIn? rest

end

/-! ## Text -/

mutual

/-- The text under a node. All alternatives of an ambiguity cover the same text, so the first one
gives it. -/
def yieldText : Node → String
  | leaf _ _ text _ => text
  | branch _ _ _ _ children => yieldAll children
  | list _ _ _ _ _ children => yieldAll children
  | ambiguity _ _ _ alternatives => yieldFirst alternatives

/-- The texts under the nodes, one after another. -/
def yieldAll : List Node → String
  | [] => ""
  | node :: rest => yieldText node ++ yieldAll rest

/-- The text under the first node. -/
def yieldFirst : List Node → String
  | [] => ""
  | node :: _ => yieldText node

end

end Node

end Scannerless
