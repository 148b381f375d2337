import Scannerless.Layout
import Scannerless.Symbol.Basic
import Scannerless.Text.Quoted

/-!
# Symbols in text

A literal is written in quotes, a class in square brackets, a nonterminal by its name, and a list
in braces: its element, its separators and the mark of its repetition. Laid out as a document, a
list may break between its parts.
-/

namespace Scannerless

/-- The name of a repetition. -/
def Repetition.name : Repetition → String
  | .plus => "Plus"
  | .star => "Star"

/-- The mark that follows a list. -/
def Repetition.mark : Repetition → String
  | .plus => "+"
  | .star => "*"

namespace Symbol

mutual

/-- The written form of a symbol. -/
def describe : Symbol → String
  | literal text => Text.quoted text
  | charClass cls => cls.describe
  | nonTerminal name => name
  | list element separators repetition =>
    "\x7b" ++ describe element ++ describeAfter separators ++ "\x7d" ++ repetition.mark

/-- The written form of separators, each after a space. -/
def describeAfter : List Symbol → String
  | [] => ""
  | symbol :: rest => " " ++ describe symbol ++ describeAfter rest

end

/-- The documents of the parts of a list, between braces and with the mark of its repetition. -/
def listDoc (parts : List Doc) (repetition : Repetition) : Doc :=
  .text "\x7b" ++ Doc.intersperse .softline parts ++ .text "\x7d" ++ .text repetition.mark

mutual

/-- The symbol as a document. -/
def toDoc : Symbol → Doc
  | list element separators repetition =>
    listDoc (toDoc element :: toDocs separators) repetition
  | literal text => .text (describe (literal text))
  | charClass cls => .text (describe (charClass cls))
  | nonTerminal name => .text (describe (nonTerminal name))

/-- The symbols as documents. -/
def toDocs : List Symbol → List Doc
  | [] => []
  | symbol :: rest => toDoc symbol :: toDocs rest

end

end Symbol

end Scannerless
