import Scannerless.Chart.Basic
import Scannerless.Event

/-!
# Recognition

Recognition drives the nodes of a grammar over the text. Every item is taken once, in the order in
which the items were found. An item before a terminal goes on if the terminal matches. An item
before any other symbol calls the symbol at its offset and waits.

The first call of a symbol at an offset starts the productions of the symbol there. A later call
only waits for the results of the first, those that are known and those that are still to come. So
a symbol that begins with itself waits on itself, and left recursion comes to an end.
-/

namespace Scannerless

/-- Recognition in progress. -/
structure Recognition where
  chart : Chart := {}
  /-- All items, in the order in which they were found. -/
  agenda : Array Item := #[]
  /-- The items that have been taken from the agenda, in order. -/
  taken : Array Item := #[]
  events : Array Event := #[]

namespace Recognition

/-- Reports an event. -/
def report (r : Recognition) (event : Event) : Recognition :=
  { r with events := r.events.push event }

/-- Adds an item to the chart, and to the agenda if it is new. -/
def add (r : Recognition) (item : Item) (link : Option Backlink) : Recognition :=
  let (isNew, chart) := r.chart.addItem item link
  { r with
    chart := chart
    agenda := if isNew then r.agenda.push item else r.agenda }

/-- Takes an item past the node that is due in it, which matched up to `stop`. -/
def resume (g : Grammar) (r : Recognition) (item : Item) (stop : Nat) : Recognition :=
  match item.state.next? g with
  | none => r
  | some node =>
    let link : Backlink := ⟨item.pos, item.state.index, some ⟨node.id, ⟨item.pos, stop⟩⟩⟩
    (item.state.advance g).foldl
      (fun r state => r.add ⟨stop, state, item.origin⟩ (some link)) r

/-- Starts the productions of a symbol at an offset, unless they have been started there. -/
def start (g : Grammar) (r : Recognition) (site : CallSite) : Recognition :=
  if r.chart.calls.contains site then r
  else
    let r := { r with chart := r.chart.setCall site {} }
    (g.prodsFor site.symbol).foldl
      (fun r prod => r.add ⟨site.offset, .ofStart prod, site.offset⟩ none)
      (r.report (.calling site.symbol site.offset))

/-- Lets an item wait on a symbol at an offset, and resumes it with the results that are known. -/
def call (g : Grammar) (r : Recognition) (site : CallSite) (waiter : Item) : Recognition :=
  let r := r.start g site
  let known := r.chart.callAt site
  if known.waiters.contains waiter then r
  else
    let r := { r with
      chart := r.chart.setCall site { known with waiters := known.waiters.insert waiter } }
    known.results.toList.foldl (fun r stop => r.resume g waiter stop) r

/-- Puts down that a production is complete, and resumes the items that wait on its symbol if this
is a result they have not had. -/
def complete (g : Grammar) (r : Recognition) (item : Item) : Recognition :=
  match g.prod? item.state.prod with
  | none => r
  | some entry =>
    let lhs := entry.production.lhs
    let span : Span := ⟨item.origin, item.pos⟩
    let r := r.report (.completed entry.production.label span)
    let r := { r with chart := r.chart.addCompletion ⟨lhs, span⟩ item.state.prod }
    let site : CallSite := ⟨lhs, item.origin⟩
    let known := r.chart.callAt site
    if known.results.contains item.pos then r
    else
      let r := { r with
        chart := r.chart.setCall site { known with results := known.results.insert item.pos } }
      known.waiters.toList.foldl (fun r waiter => r.resume g waiter item.pos) r

/-- Completes a list that needs no element, where it began. -/
def completeEmpty (g : Grammar) (r : Recognition) (item : Item) : Recognition :=
  if item.state.allowsEmpty g ∧ item.pos = item.origin then
    r.add { item with state := .complete g item.state.prod }
      (some ⟨item.pos, item.state.index, none⟩)
  else r

/-- Processes an item. -/
def process (g : Grammar) (input : Input) (r : Recognition) (item : Item) : Recognition :=
  if item.state.isComplete g then r.complete g item
  else
    let r := r.completeEmpty g item
    match item.state.next? g with
    | none => r
    | some node =>
      match node.step input item.pos with
      | .matched stop => r.resume g item stop
      | .failed => r
      | .call symbol => r.call g ⟨symbol, item.pos⟩ item

/-- The item of the agenda that is due. -/
def due? (r : Recognition) : Option Item :=
  r.agenda[r.taken.size]?

/-- Takes an item from the agenda. -/
def take (r : Recognition) (item : Item) : Recognition :=
  { r with taken := r.taken.push item }

/-- Takes and processes the items that are due, at most so many. -/
def run (g : Grammar) (input : Input) : (items : Nat) → Recognition → Recognition
  | 0, r => r
  | items + 1, r =>
    match r.due? with
    | none => r
    | some item => run g input items (process g input (r.take item) item)

end Recognition

namespace Grammar

/-- No recognition of a text of `length` characters finds more items: an item has a production, an
index, and an origin that is not after its offset. -/
def itemBound (g : Grammar) (length : Nat) : Nat :=
  (g.prodIds.map fun id => g.slots id + 1).foldr (· + ·) 0 * ((length + 1) * (length + 2) / 2)

/-- Recognizes a symbol from the start of the text on. A symbol without productions is not
recognized at all. -/
def recognition (g : Grammar) (input : Input) (symbol : Symbol) : Recognition :=
  if g.isDefined symbol then
    Recognition.run g input (g.itemBound input.length) (Recognition.start g {} ⟨symbol, 0⟩)
  else {}

/-- The chart of recognizing a symbol, with the events on the way to it. -/
def recognize (g : Grammar) (input : Input) (symbol : Symbol) : Traced Chart :=
  let r := g.recognition input symbol
  { value := r.chart, events := r.events.toList }

end Grammar

end Scannerless
