import Scannerless.Chart.Text
import Scannerless.Forest.Packing
import Scannerless.Forest.Text

/-!
# Packing in text

A forest that is being packed, described as a record: the chart it comes from, what is known of
constituents, and which of them are in progress.
-/

namespace Scannerless

/-- The written form of a forest that is being packed from a chart. -/
def Packing.describe (g : Grammar) (chart : Chart) (packing : Packing) : String :=
  Text.record "ForestBuilder"
    [("chart", chart.describe g),
      ("memo", Text.map (packing.memo.toList.map fun (constituent, node) =>
        (constituent.describe, Text.option (node.map Node.describe)))),
      ("in_progress", Text.list (packing.inProgress.reverse.map Constituent.describe)),
      ("cut", Text.option (packing.cut.map toString))]

end Scannerless
