import Scannerless.Chart.Basic
import Scannerless.Grammar.Text

/-!
# Charts in text

Charts and their parts described as records.
-/

namespace Scannerless

/-- The written form of a match. -/
def Match.describe (found : Match) : String :=
  Text.record "Child" [("node", NodeId.describe found.node), ("span", found.span.describe)]

/-- The written form of a link. -/
def Backlink.describe (link : Backlink) : String :=
  Text.record "Link"
    [("prev_pos", toString link.prevPos),
      ("prev_index", toString link.prevIndex),
      ("child", Text.option (link.matched.map Match.describe))]

/-- The written form of an item. -/
def Item.describe (g : Grammar) (item : Item) : String :=
  Text.record "ItemKey"
    [("pos", toString item.pos),
      ("state", g.describeDotted item.state),
      ("origin", toString item.origin)]

/-- The written form of a constituent. -/
def Constituent.describe (constituent : Constituent) : String :=
  Text.applied "" [constituent.symbol.describe, constituent.span.describe]

/-- The written form of a chart. -/
def Chart.describe (g : Grammar) (chart : Chart) : String :=
  Text.record "Chart"
    [("items", Text.map (chart.items.toList.map fun (item, links) =>
        (item.describe g, Text.set (links.toList.map Backlink.describe)))),
      ("completions", Text.set (chart.completions.keys.map Constituent.describe)),
      ("furthest", toString chart.furthest)]

/-- The written form of the symbols expected at an offset. Where there are none, the text is
expected to end. -/
def Symbol.describeExpected (expected : List Symbol) : String :=
  if expected.isEmpty then "end of input"
  else Text.set (expected.map Symbol.describe)

end Scannerless
