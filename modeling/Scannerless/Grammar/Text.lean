import Scannerless.Grammar.Dotted
import Scannerless.Production.Text

/-!
# Grammars in text

Grammars, their rules, productions, nodes and dotted productions described as records, and grammars
and rules laid out as documents.
-/

namespace Scannerless

/-- The written form of node ids in order. -/
def NodeId.describeAll (ids : List NodeId) : String :=
  Text.list (ids.map NodeId.describe)

/-- The written form of a production's id. -/
def ProdId.describe (id : ProdId) : String :=
  "P" ++ toString id

namespace StackNode

/-- The written form of a node: its list parts are shown if it has any, then what may follow it in
each production in turn. -/
def describe (node : StackNode) : String :=
  let parts :=
    match node.parts with
    | [] => []
    | element :: separators =>
      [("element", NodeId.describe element), ("separators", NodeId.describeAll separators)]
  let sequences := node.successors.values.flatMap Std.TreeSet.toList
  Text.record "StackNode" <|
    [("id", NodeId.describe node.id), ("symbol", node.symbol.describe)] ++
    parts ++
    [("successors", Text.set (sequences.map NodeId.describeAll))]

end StackNode

namespace Grammar

/-- The written form of a production of the grammar. -/
def describeProd (g : Grammar) (id : ProdId) : String :=
  match g.prod? id with
  | none => ProdId.describe id
  | some entry =>
    Text.record "Prod"
      [("id", ProdId.describe id),
        ("production", entry.production.describe),
        ("wiring", NodeId.describeAll entry.wiring)]

/-- The written form of a dotted production. -/
def describeDotted (g : Grammar) (d : Dotted) : String :=
  Text.record "ProdState" [("prod", g.describeProd d.prod), ("index", toString d.index)]

/-- The written form of the rule that defines a symbol. -/
def describeRule (g : Grammar) (head : Symbol) : String :=
  Text.record "Rule"
    [("head", head.describe), ("prods", Text.list ((g.prodsFor head).map g.describeProd))]

/-- The written form of the grammar. -/
def describe (g : Grammar) : String :=
  Text.record "Grammar"
    [("start", g.start.describe),
      ("prods", Text.list (g.prodIds.map g.describeProd)),
      ("nodes", Text.list (g.nodeList.map StackNode.describe))]

/-! ## Documents -/

/-- A production of the grammar as a document. -/
def prodDoc (g : Grammar) (id : ProdId) : Doc :=
  match g.prod? id with
  | none => .nil
  | some entry => entry.production.toDoc

/-- The rule that defines a symbol, as a document. -/
def ruleDoc (g : Grammar) (head : Symbol) : Doc :=
  let bodies := Doc.intersperse (.text " |" ++ .softline) ((g.prodsFor head).map g.prodDoc)
  .group (head.toDoc ++ .text " =>" ++ .nest 2 (.softline ++ bodies))

/-- The grammar as a document. -/
def toDoc (g : Grammar) : Doc :=
  let rules := Doc.concat (g.rules.keys.map fun head => g.ruleDoc head ++ .text ";" ++ .softline)
  let startEntry := .group (.text "Start =") ++ .softline ++ g.start.toDoc
  let rulesEntry := .text "Rules " ++ Doc.braces (.softline ++ .nest 2 rules)
  Doc.concat ([startEntry, rulesEntry].map fun entry => entry ++ .text "," ++ .softline)

/-- The grammar laid out within 80 columns. -/
def pretty (g : Grammar) : String :=
  g.toDoc.render 80

end Grammar

end Scannerless
