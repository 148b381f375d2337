import Scannerless.Symbol.Order
import Scannerless.Symbol.Text

/-!
# Productions

A production says how a symbol can be made up. A sequence production matches its right-hand side
once, in order; a list production repeats its first symbol, with all of the others between each two
occurrences. The label tells the productions of a grammar apart.
-/

namespace Scannerless

/-! ## Attributes -/

/-- A flag on a production. -/
inductive Attribute where
  /-- Lexical structure: only the matched text matters. -/
  | lexical
  /-- Only groups its single nonterminal. -/
  | bracket
  /-- Insensitive to layout. Kept for those who ask; recognition takes no notice. -/
  | noLayout
  /-- An embedded fragment with no structure to visit. -/
  | sealed
  deriving DecidableEq

def Attribute.name : Attribute → String
  | .lexical => "Lexical"
  | .bracket => "Bracket"
  | .noLayout => "NoLayout"
  | .sealed => "Opaque"

/-- The name of an attribute in lower case. -/
def Attribute.word : Attribute → String
  | .lexical => "lexical"
  | .bracket => "bracket"
  | .noLayout => "nolayout"
  | .sealed => "opaque"

def Attribute.rank : Attribute → Nat
  | .lexical => 0
  | .bracket => 1
  | .noLayout => 2
  | .sealed => 3

/-- A set of attributes. -/
structure Attributes where
  lexical : Bool := false
  bracket : Bool := false
  noLayout : Bool := false
  sealed : Bool := false
  deriving DecidableEq

namespace Attributes

def has (attributes : Attributes) : Attribute → Bool
  | .lexical => attributes.lexical
  | .bracket => attributes.bracket
  | .noLayout => attributes.noLayout
  | .sealed => attributes.sealed

def add (attributes : Attributes) : Attribute → Attributes
  | .lexical => { attributes with lexical := true }
  | .bracket => { attributes with bracket := true }
  | .noLayout => { attributes with noLayout := true }
  | .sealed => { attributes with sealed := true }

/-- The attributes in order. -/
def toList (attributes : Attributes) : List Attribute :=
  [.lexical, .bracket, .noLayout, .sealed].filter attributes.has

def isEmpty (attributes : Attributes) : Bool :=
  attributes.toList.isEmpty

end Attributes

/-! ## Productions -/

/-- How the right-hand side of a production is matched. -/
inductive ProductionKind where
  /-- In order, once. -/
  | sequence
  /-- As an element and its separators, repeated. -/
  | list (repetition : Repetition)
  deriving DecidableEq

def ProductionKind.isList : ProductionKind → Bool
  | .sequence => false
  | .list _ => true

/-- A way to make up a symbol. -/
structure Production where
  label : String
  lhs : Symbol
  rhs : List Symbol
  attributes : Attributes := {}
  kind : ProductionKind := .sequence
  deriving DecidableEq

namespace Production

/-- A production that repeats an element, with the separators between each two. -/
def ofList (label : String) (lhs element : Symbol) (separators : List Symbol)
    (repetition : Repetition) : Production where
  label := label
  lhs := lhs
  rhs := element :: separators
  kind := .list repetition

/-- The production that defines a list symbol, labelled with the symbol's written form. -/
def forListSymbol? : Symbol → Option Production
  | .list element separators repetition =>
    let symbol := Symbol.list element separators repetition
    some (ofList symbol.describe symbol element separators repetition)
  | _ => none

def withAttribute (production : Production) (flag : Attribute) : Production :=
  { production with attributes := production.attributes.add flag }

def withLabel (production : Production) (label : String) : Production :=
  { production with label := label }

def isList (production : Production) : Bool :=
  production.kind.isList

/-- The number of symbols on the right-hand side. -/
def arity (production : Production) : Nat :=
  production.rhs.length

/-- The number of separators between two elements of a list production. -/
def separatorArity (production : Production) : Nat :=
  match production.kind with
  | .sequence => 0
  | .list _ => production.arity - 1

/-- Whether the production may define its left-hand side: a nonterminal may be defined in any way,
a list symbol only by the list production with its own parts and repetition. -/
def definesLhs (production : Production) : Bool :=
  match production.lhs, production.kind with
  | .nonTerminal _, _ => true
  | .list element separators repetition, .list r =>
    repetition = r && production.rhs = element :: separators
  | _, _ => false

end Production

/-! ## The order of productions -/

/-- The place of the kind in the order of kinds: sequences come first. -/
def ProductionKind.code : ProductionKind → List Nat
  | .sequence => []
  | .list repetition => [repetition.rank]

/-- Productions compare by label, left-hand side, right-hand side, attributes and kind. -/
instance : Ord Production where
  compare p q :=
    (compare p.label q.label).then <| (compare p.lhs q.lhs).then <| (compare p.rhs q.rhs).then <|
      (compare (p.attributes.toList.map Attribute.rank)
        (q.attributes.toList.map Attribute.rank)).then <|
      compare p.kind.code q.kind.code

end Scannerless
