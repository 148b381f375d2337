import Scannerless.Forest.Node
import Scannerless.Layout
import Scannerless.Symbol.Text
import Scannerless.Text.Record

/-!
# Forests in text

Forests as terms: `"text"` for a leaf, `Tag(..)` for the reduction of a sequence, `Tag[..]` for
that of a list, and `amb` with braces for an ambiguity. As a document, a term may break between its
parts, and an ambiguity names its symbol.
-/

namespace Scannerless

/-- The wording of an ambiguity. -/
def AmbiguityFound.message (found : AmbiguityFound) : String :=
  found.symbol.describe ++ " is ambiguous over " ++ found.span.describe

namespace Node

mutual

/-- The forest as a term. -/
def term : Node → String
  | leaf _ _ text _ => Text.quoted text
  | branch _ tag _ _ children => tag ++ "(" ++ Text.commas (terms children) ++ ")"
  | list _ tag _ _ _ children => tag ++ "[" ++ Text.commas (terms children) ++ "]"
  | ambiguity _ _ _ alternatives =>
    "amb\x7b" ++ Text.commas (terms alternatives) ++ "\x7d"

/-- The forests as terms. -/
def terms : List Node → List String
  | [] => []
  | node :: rest => term node :: terms rest

end

/-- The written form of a node: its term and its span. -/
def describe (node : Node) : String :=
  node.term ++ "@" ++ node.span.describe

/-- The parts of a node as a record. -/
def describeParts : Node → String
  | leaf _ symbol text span =>
    Text.applied "Leaf"
      [Text.record "Leaf"
        [("symbol", symbol.describe), ("text", text), ("span", span.describe)]]
  | branch _ tag symbol span children =>
    Text.applied "Prod"
      [Text.record "Branch"
        [("tag", tag), ("symbol", symbol.describe), ("span", span.describe),
          ("children", Text.list (children.map describe))]]
  | list _ tag symbol span arity children =>
    Text.applied "List"
      [Text.record "ListBranch"
        [("tag", tag), ("symbol", symbol.describe), ("span", span.describe),
          ("separator_arity", toString arity), ("children", Text.list (children.map describe))]]
  | ambiguity _ symbol span alternatives =>
    Text.applied "Ambiguity"
      [Text.record "Ambiguity"
        [("symbol", symbol.describe), ("span", span.describe),
          ("alternatives", Text.set (alternatives.map describe))]]

/-! ## Documents -/

/-- A head with its parts between brackets. -/
def partsDoc (head opening closing : String) (parts : List Doc) : Doc :=
  .group <|
    .text head ++ .text opening ++
      .nest 2 (.softlineOrNil ++ Doc.intersperse (.text "," ++ .softline) parts) ++
      .softlineOrNil ++ .text closing

mutual

/-- The forest as a document. -/
def toDoc : Node → Doc
  | leaf _ _ text _ => .text (Text.quoted text)
  | branch _ tag _ _ children => partsDoc tag "(" ")" (toDocs children)
  | list _ tag _ _ _ children => partsDoc tag "[" "]" (toDocs children)
  | ambiguity _ symbol _ alternatives =>
    partsDoc ("amb<" ++ symbol.describe ++ ">") "\x7b" "\x7d" (toDocs alternatives)

/-- The forests as documents. -/
def toDocs : List Node → List Doc
  | [] => []
  | node :: rest => toDoc node :: toDocs rest

end

/-- The forest laid out within 80 columns. -/
def pretty (node : Node) : String :=
  node.toDoc.render 80

end Node

end Scannerless
