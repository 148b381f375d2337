import Scannerless.Production.Basic
import Scannerless.Text.Record

/-!
# Productions in text

A production is described as a record of its parts; its attributes are left out if there are none.
As a document it reads `label: body`, with the attributes after the body.
-/

namespace Scannerless

/-- The written form of a kind. -/
def ProductionKind.describe : ProductionKind → String
  | .sequence => "Default"
  | .list repetition => Text.applied "List" [repetition.name]

/-- The written form of a set of attributes. -/
def Attributes.describe (attributes : Attributes) : String :=
  Text.applied "Attributes" [Text.set (attributes.toList.map Attribute.name)]

namespace Production

/-- The written form of a production. -/
def describe (production : Production) : String :=
  let attributes :=
    if production.attributes.isEmpty then []
    else [("attributes", production.attributes.describe)]
  Text.record "Production" <|
    [("label", production.label),
      ("lhs", production.lhs.describe),
      ("rhs", Text.list (production.rhs.map Symbol.describe))] ++
    attributes ++
    [("kind", production.kind.describe)]

/-- The right-hand side as a document. -/
def bodyDoc (production : Production) : Doc :=
  match production.kind, production.rhs with
  | .sequence, [] => .text "ε"
  | .sequence, rhs => Doc.intersperse .softline (rhs.map Symbol.toDoc)
  | .list repetition, rhs => Symbol.listDoc (rhs.map Symbol.toDoc) repetition

/-- The attributes as a document, if there are any. -/
def attributesDoc (production : Production) : Doc :=
  if production.attributes.isEmpty then .nil
  else .softline ++ .text (Text.set (production.attributes.toList.map Attribute.word))

/-- The production as a document. -/
def toDoc (production : Production) : Doc :=
  .group <|
    .text production.label ++ .text ":" ++ .softline ++ production.bodyDoc ++
      production.attributesDoc

end Production

end Scannerless
