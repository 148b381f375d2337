import Scannerless.Grammar.Script

/-!
# Example grammars

Small grammars for reference: lists with and without separators, an ambiguous grammar, a left
recursive one for expressions, a cyclic one, and one with fragments that cannot be visited.
-/

namespace Scannerless

namespace Example

/-- The rule `A ::= "a"`. -/
def ruleA : Declaration :=
  .rule (.nonTerminal "A") [.sequence "A" [.literal "a"] []]

/-- `S ::= {A "b"}+` and `A ::= "a"`, with the nodes of the list wired by hand. -/
def separatedPlus : List Declaration :=
  [.nonTerminal 1 "A",
    .literal 2 "b",
    .wired (Production.ofList "S" (.nonTerminal "S") (.nonTerminal "A") [.literal "b"] .plus)
      [1, 2],
    ruleA]

/-- `S ::= A*` and `A ::= "a"`. -/
def star : List Declaration :=
  [.rule (.nonTerminal "S") [.list "S" (.nonTerminal "A") [] .star], ruleA]

/-- `S ::= A | B`, `A ::= "a"` and `B ::= "a"`: the text `a` has two derivations. -/
def ambiguous : List Declaration :=
  [.rule (.nonTerminal "S")
      [.sequence "ViaA" [.nonTerminal "A"] [], .sequence "ViaB" [.nonTerminal "B"] []],
    ruleA,
    .rule (.nonTerminal "B") [.sequence "B" [.literal "a"] []]]

/-- Sums, products, brackets and numbers, with no precedence between them. -/
def expr : List Declaration :=
  let expr := Symbol.nonTerminal "Expr"
  let digit := Symbol.charClass (CharClass.ofRanges [CharRange.ofBounds '0' '9'])
  [.rule expr
      [.sequence "Add" [expr, .literal "+", expr] [],
        .sequence "Mul" [expr, .literal "*", expr] [],
        .sequence "Paren" [.literal "(", expr, .literal ")"] [.bracket],
        .sequence "NumExpr" [.nonTerminal "Num"] []],
    .rule (.nonTerminal "Num") [.sequence "Num" [.list digit [] .plus] [.lexical]]]

/-- `S ::= S | "a"`: each `S` derives itself over the same span. -/
def cyclic : List Declaration :=
  [.rule (.nonTerminal "S")
      [.sequence "Loop" [.nonTerminal "S"] [], .sequence "Leaf" [.literal "a"] []]]

/-- Statements separated by semicolons. A statement is a name, or a fragment in the braces of
`native`, which cannot be visited. -/
def sealedFragments : List Declaration :=
  let lower := Symbol.charClass (CharClass.ofRanges [CharRange.ofBounds 'a' 'z'])
  [.rule (.nonTerminal "Body") [.list "Body" (.nonTerminal "Stmt") [.literal ";"] .star],
    .rule (.nonTerminal "Stmt")
      [.sequence "Ident" [.list lower [] .plus] [.lexical],
        .sequence "Native" [.literal "native\x7b", .list lower [] .star, .literal "\x7d"]
          [.sealed]]]

/-- The start symbols and scripts of the example grammars, by name. -/
def all : List (String × String × List Declaration) :=
  [("separated_plus", "S", separatedPlus),
    ("star", "S", star),
    ("ambiguous", "S", ambiguous),
    ("expr", "Expr", expr),
    ("cyclic", "S", cyclic),
    ("opaque", "Body", sealedFragments)]

/-- The example grammar of a name. -/
def grammar? (name : String) : Option (Traced (Except Defect Grammar)) :=
  (all.lookup name).map fun (start, script) => Grammar.ofScript (.nonTerminal start) script

end Example

end Scannerless
