import Scannerless.CharClass

/-!
# Symbols

The symbols of a grammar. Terminals are matched against the text itself: a literal matches its own
characters, a class one of its members. Nonterminals and separated lists are recognized through
productions.
-/

namespace Scannerless

/-- How many elements a separated list needs. -/
inductive Repetition where
  /-- One or more. -/
  | plus
  /-- Any number, none included. -/
  | star
  deriving DecidableEq

def Repetition.allowsEmpty : Repetition → Bool
  | .plus => false
  | .star => true

/-- A symbol of a grammar. -/
inductive Symbol where
  /-- A fixed text. -/
  | literal (text : String)
  /-- One character of a class. -/
  | charClass (cls : CharClass)
  /-- A name that productions define. -/
  | nonTerminal (name : String)
  /-- Elements with all of the separators between each two. -/
  | list (element : Symbol) (separators : List Symbol) (repetition : Repetition)
  deriving Inhabited

namespace Symbol

/-- Whether the symbol is matched against the text itself. -/
def isTerminal : Symbol → Bool
  | literal _ => true
  | charClass _ => true
  | nonTerminal _ => false
  | list _ _ _ => false

/-- Whether the symbol is recognized through productions. -/
def hasProductions (symbol : Symbol) : Bool :=
  !symbol.isTerminal

/-- The name of a nonterminal. -/
def name? : Symbol → Option String
  | nonTerminal name => some name
  | _ => none

/-- The repetition of a separated list. -/
def repetition? : Symbol → Option Repetition
  | list _ _ repetition => some repetition
  | _ => none

/-- Whether the symbol is a separated list. -/
def isList (symbol : Symbol) : Bool :=
  symbol.repetition?.isSome

/-- The symbols that a list is made of: its element, then its separators. -/
def parts : Symbol → List Symbol
  | list element separators _ => element :: separators
  | _ => []

end Symbol

end Scannerless
