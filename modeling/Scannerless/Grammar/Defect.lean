import Scannerless.Grammar.StackNode
import Scannerless.Symbol.Text

/-!
# Defects of a grammar

The ways in which a grammar script can fail to describe a grammar. A grammar with a defect is never
used to parse.
-/

namespace Scannerless

/-- What is wrong with a grammar. -/
inductive Defect where
  /-- A production was wired to more or fewer nodes than its right-hand side has symbols. -/
  | arityMismatch (label : String) (arity wired : Nat)
  /-- Two nodes were given the same id. -/
  | duplicateNode (id : NodeId)
  /-- Two productions were given the same label. -/
  | duplicateLabel (label : String)
  /-- A node is referred to that does not exist. -/
  | unknownNode (context : String) (id : NodeId)
  /-- A production was wired to a node that stands for another symbol. -/
  | symbolMismatch (label : String) (index : Nat) (id : NodeId) (expected found : Symbol)
  /-- A production was wired to the same node twice. -/
  | reusedNode (label : String) (id : NodeId)
  /-- All node ids were used up. -/
  | idsExhausted
  /-- A production is given for a symbol that it cannot define. -/
  | invalidLhs (label : String) (lhs : Symbol)
  /-- A symbol that needs productions has none. -/
  | undefinedSymbol (symbol : Symbol)
  deriving DecidableEq

/-- The written form of a node id. -/
def NodeId.describe (id : NodeId) : String :=
  "#" ++ toString id

/-- The wording of a defect. -/
def Defect.message : Defect → String
  | .arityMismatch label arity wired =>
    "production " ++ label ++ " has " ++ toString arity ++ " rhs symbols, but " ++
      toString wired ++ " stack nodes were wired for it"
  | .duplicateNode id =>
    "stack node id " ++ NodeId.describe id ++ " is registered more than once"
  | .duplicateLabel label => "production label " ++ label ++ " is registered more than once"
  | .unknownNode context id => context ++ " refers to unknown stack node " ++ NodeId.describe id
  | .symbolMismatch label index id expected found =>
    "production " ++ label ++ " expects " ++ expected.describe ++ " at position " ++
      toString index ++ ", but stack node " ++ NodeId.describe id ++ " stands for " ++
      found.describe
  | .reusedNode label id =>
    "production " ++ label ++ " wires stack node " ++ NodeId.describe id ++
      " into more than one position"
  | .idsExhausted => "no stack node ids are left to allocate"
  | .invalidLhs label lhs => "production " ++ label ++ " cannot define " ++ lhs.describe
  | .undefinedSymbol symbol => symbol.describe ++ " is used but has no productions"

end Scannerless
