import Scannerless.Chart.Item

/-!
# Charts

The tables that recognition fills in: all items with the links to them, all calls with their
results and with the items that wait on them, and all completed constituents.

There is no table of the matches of terminals. Whether the node of a terminal matches depends on the
node, the text and the offset alone (`StackNode.step`), so looking a match up would give what trying
it again gives.
-/

namespace Scannerless

/-- What is known of the recognition of a symbol from an offset on. That it is in the chart means
that the productions of the symbol have been started there. -/
structure Call where
  /-- The offsets at which reductions of the symbol end. -/
  results : Std.TreeSet Nat := ∅
  /-- The items that wait on the symbol, resumed once for each result. -/
  waiters : Std.TreeSet Item := ∅

/-- What recognition has found out. -/
structure Chart where
  /-- The items reached, each with the ways in which it was reached. -/
  items : Std.TreeMap Item (Std.TreeSet Backlink) := ∅
  calls : Std.TreeMap CallSite Call := ∅
  /-- The productions completed over a span, by their symbol. -/
  completions : Std.TreeMap Constituent (Std.TreeSet ProdId) := ∅
  /-- The furthest offset that an item has reached. -/
  furthest : Nat := 0

namespace Chart

/-! ## Questions -/

def numItems (chart : Chart) : Nat :=
  chart.items.size

def hasItem (chart : Chart) (item : Item) : Bool :=
  chart.items.contains item

/-- The ways in which an item was reached, in order. -/
def links (chart : Chart) (item : Item) : List Backlink :=
  match chart.items[item]? with
  | some links => links.toList
  | none => []

/-- What is known at a call site; nothing if the symbol has not been called there. -/
def callAt (chart : Chart) (site : CallSite) : Call :=
  chart.calls.getD site {}

/-- The productions completed over a constituent, in order. -/
def completed (chart : Chart) (constituent : Constituent) : List ProdId :=
  match chart.completions[constituent]? with
  | some prods => prods.toList
  | none => []

/-- The offsets at which the reductions of a symbol from `start` on end, in order. -/
def ends (chart : Chart) (symbol : Symbol) (start : Nat) : List Nat :=
  (chart.callAt ⟨symbol, start⟩).results.toList

/-- Whether some reduction of the symbol spans the first `length` characters. -/
def accepts (chart : Chart) (symbol : Symbol) (length : Nat) : Bool :=
  (chart.callAt ⟨symbol, 0⟩).results.contains length

/-- The terminal symbol that an item waits to match, if it does. -/
def awaited? (g : Grammar) (item : Item) : Option Symbol :=
  match item.state.next? g with
  | some node => if node.isTerminal then some node.symbol else none
  | none => none

/-- The terminal symbols that items at an offset wait to match, in order. -/
def expectedAt (g : Grammar) (chart : Chart) (offset : Nat) : List Symbol :=
  (Std.TreeSet.ofList <|
    (chart.items.keys.filter fun item => item.pos == offset).filterMap (awaited? g)).toList

/-! ## Entries -/

/-- Adds an item, or a further link to it. Also tells whether the item is new. -/
def addItem (chart : Chart) (item : Item) (link : Option Backlink) : Bool × Chart :=
  let known := chart.items[item]?
  let links := (known.getD ∅).insertMany link.toList
  (known.isNone,
    { chart with
      items := chart.items.insert item links
      furthest := max chart.furthest item.pos })

/-- Puts down what is known at a call site. -/
def setCall (chart : Chart) (site : CallSite) (call : Call) : Chart :=
  { chart with calls := chart.calls.insert site call }

/-- Puts down that a production was completed. -/
def addCompletion (chart : Chart) (constituent : Constituent) (prod : ProdId) : Chart :=
  let known := chart.completions.getD constituent ∅
  { chart with completions := chart.completions.insert constituent (known.insert prod) }

end Chart

end Scannerless
