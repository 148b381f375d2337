import Scannerless.Parsing

/-!
# Guarded parsing

Parsing once more, with every assumption that it makes stated where it is made. A lookup has to find
something, a difference has to be one of numbers in order, a remainder needs a divisor, a span needs
its ends in order and within the text. Where that fails, there is a fault and nothing else.

The functions follow those without guards one by one and have their names. Where those only ever
work for so many steps, to run out of steps before the work is done is a fault too. Sums are not
guarded: they count the characters of a text or the symbols of a production, and neither comes near
the greatest machine word. A list of a given arity does (`Node.ofList`).
-/

namespace Scannerless

namespace Guarded

/-! ## Faults -/

/-- An assumption that does not hold. -/
inductive Fault where
  /-- A span is to end before it starts. -/
  | disorderedSpan (start stop : Nat)
  /-- The text does not reach as far as a span. -/
  | pastText (span : Span)
  /-- The grammar has no such production. -/
  | unknownProduction (id : ProdId)
  /-- The grammar has no such stack node. -/
  | unknownNode (id : NodeId)
  /-- A symbol is complete where it was not called. -/
  | unknownCall (site : CallSite)
  /-- A production has no such index. -/
  | pastSlots (prod : ProdId) (index : Nat)
  /-- More nodes are to follow in a production than fit into it. -/
  | longContinuation (prod : ProdId) (length : Nat)
  /-- A list production is wired to no node, not even to one of its element. -/
  | noSlots (prod : ProdId)
  /-- No node is due, though the production is not complete or waits on a symbol. -/
  | nothingDue (state : Dotted)
  /-- Elements and separators do not take turns. -/
  | brokenTurns (label : String)
  /-- The steps ran out before the work was done. -/
  | unfinished
  deriving DecidableEq

/-- The value that has to be there. -/
def demand {α : Type} (fault : Fault) : Option α → Except Fault α
  | some value => .ok value
  | none => .error fault

/-- Goes on only if a condition holds. -/
def require (fault : Fault) (condition : Prop) [Decidable condition] : Except Fault Unit :=
  if condition then .ok () else .error fault

/-! ## Texts and grammars -/

def span (start stop : Nat) : Except Fault Span :=
  demand (.disorderedSpan start stop) (Span.ofBounds? start stop)

def slice (input : Input) (span : Span) : Except Fault String := do
  let chars ← demand (.pastText span) (input.chars? span.start span.stop)
  return String.ofList chars

def production (g : Grammar) (id : ProdId) : Except Fault WiredProduction :=
  demand (.unknownProduction id) (g.prod? id)

def node (g : Grammar) (id : NodeId) : Except Fault StackNode :=
  demand (.unknownNode id) (g.node? id)

/-! ## Dotted productions -/

/-- The node at an index of a production, if there is such an index. -/
def next (g : Grammar) (d : Dotted) : Except Fault (Option StackNode) := do
  let entry ← production g d.prod
  match entry.wiring[d.index]? with
  | none => return none
  | some id => return some (← node g id)

/-- The node that has to be due. -/
def due (g : Grammar) (d : Dotted) : Except Fault StackNode := do
  demand (.nothingDue d) (← next g d)

def withIndex (g : Grammar) (d : Dotted) (index : Nat) : Except Fault Dotted := do
  let _ ← production g d.prod
  demand (.pastSlots d.prod index) (d.withIndex? g index)

def before (g : Grammar) (d : Dotted) (rest : List NodeId) : Except Fault Dotted := do
  let entry ← production g d.prod
  let slots := entry.wiring.length
  match entry.production.kind with
  | .sequence =>
    require (.longContinuation d.prod rest.length) (rest.length ≤ slots)
    withIndex g d (slots - rest.length)
  | .list _ =>
    if rest.isEmpty then withIndex g d slots
    else
      require (.longContinuation d.prod rest.length) (rest.length ≤ slots + 1)
      require (.noSlots d.prod) (slots ≠ 0)
      withIndex g d ((slots + 1 - rest.length) % slots)

def advance (g : Grammar) (d : Dotted) : Except Fault (List Dotted) := do
  match ← next g d with
  | none => return []
  | some node => (node.successorsIn d.prod).mapM (before g d)

/-! ## Recognition -/

def resume (g : Grammar) (r : Recognition) (item : Item) (stop : Nat) :
    Except Fault Recognition := do
  let node ← due g item.state
  let matched ← span item.pos stop
  let states ← advance g item.state
  let link : Backlink := ⟨item.pos, item.state.index, some ⟨node.id, matched⟩⟩
  return states.foldl (fun r state => r.add ⟨stop, state, item.origin⟩ (some link)) r

def start (g : Grammar) (r : Recognition) (site : CallSite) : Except Fault Recognition :=
  if r.chart.calls.contains site then return r
  else
    let r := { r with chart := r.chart.setCall site {} }
    (g.prodsFor site.symbol).foldlM
      (fun r prod => do
        let _ ← production g prod
        return r.add ⟨site.offset, .ofStart prod, site.offset⟩ none)
      (r.report (.calling site.symbol site.offset))

def call (g : Grammar) (r : Recognition) (site : CallSite) (waiter : Item) :
    Except Fault Recognition := do
  let r ← start g r site
  let known := r.chart.callAt site
  if known.waiters.contains waiter then return r
  else
    let r := { r with
      chart := r.chart.setCall site { known with waiters := known.waiters.insert waiter } }
    known.results.toList.foldlM (fun r stop => resume g r waiter stop) r

/-- What is known at a call site, where the symbol has to have been called. -/
def callAt (chart : Chart) (site : CallSite) : Except Fault Call :=
  demand (.unknownCall site) chart.calls[site]?

def complete (g : Grammar) (r : Recognition) (item : Item) : Except Fault Recognition := do
  let entry ← production g item.state.prod
  let lhs := entry.production.lhs
  let covered ← span item.origin item.pos
  let r := r.report (.completed entry.production.label covered)
  let r := { r with chart := r.chart.addCompletion ⟨lhs, covered⟩ item.state.prod }
  let site : CallSite := ⟨lhs, item.origin⟩
  let known ← callAt r.chart site
  if known.results.contains item.pos then return r
  else
    let r := { r with
      chart := r.chart.setCall site { known with results := known.results.insert item.pos } }
    known.waiters.toList.foldlM (fun r waiter => resume g r waiter item.pos) r

def process (g : Grammar) (input : Input) (r : Recognition) (item : Item) :
    Except Fault Recognition := do
  let _ ← production g item.state.prod
  if item.state.isComplete g then complete g r item
  else
    let r := r.completeEmpty g item
    let node ← due g item.state
    match node.step input item.pos with
    | .matched stop => resume g r item stop
    | .failed => return r
    | .call symbol => call g r ⟨symbol, item.pos⟩ item

def run (g : Grammar) (input : Input) : (items : Nat) → Recognition → Except Fault Recognition
  | 0, r => if r.taken.size < r.agenda.size then .error .unfinished else .ok r
  | items + 1, r =>
    match r.due? with
    | none => .ok r
    | some item => do
      let r ← process g input (r.take item) item
      run g input items r

def recognition (g : Grammar) (input : Input) (symbol : Symbol) : Except Fault Recognition :=
  if g.isDefined symbol then do
    let r ← start g {} ⟨symbol, 0⟩
    run g input (g.itemBound input.length) r
  else return {}

/-! ## Rejections -/

def awaited (g : Grammar) (item : Item) : Except Fault (Option Symbol) := do
  match ← next g item.state with
  | none => return none
  | some node => return if node.isTerminal then some node.symbol else none

def rejection (g : Grammar) (chart : Chart) (symbol : Symbol) : Except Fault Rejection := do
  let awaited ← (chart.items.keys.filter fun item => item.pos == chart.furthest).mapM (awaited g)
  return {
    symbol := symbol
    offset := chart.furthest
    expected := (Std.TreeSet.ofList (awaited.filterMap id)).toList }

/-! ## Walks -/

def endingIn (g : Grammar) (chart : Chart) (prod : ProdId) (origin : Nat) (keepEmpty : Bool) :
    (steps : Nat) → (pos index : Nat) → (visited : List (Nat × Nat)) → (after : List Match) →
      Except Fault (List (List Match))
  | 0, _, _, _, _ => .error .unfinished
  | steps + 1, pos, index, visited, after =>
    if visited.contains (pos, index) then .ok []
    else if pos = origin ∧ index = 0 then .ok [after]
    else do
      let links := chart.links ⟨pos, ⟨prod, index⟩, origin⟩
      let walks ← (links.filter (Walk.keeps keepEmpty)).mapM fun link => do
        let before ← withIndex g ⟨prod, index⟩ link.prevIndex
        endingIn g chart prod origin keepEmpty steps link.prevPos before.index
          ((pos, index) :: visited) (link.matched.toList ++ after)
      return walks.flatten

def derivations (g : Grammar) (chart : Chart) (prod : ProdId) (span : Span) :
    Except Fault (List (List Match)) := do
  let entry ← production g prod
  let slots := entry.wiring.length
  endingIn g chart prod span.start (Walk.keepsEmpty entry.production span)
    ((span.length + 1) * (slots + 1) + 1) span.stop slots [] []

/-! ## Packing -/

/-- How a constituent is packed into a node, unless there is a fault. -/
abbrev Pack := Constituent → Packing → Except Fault (Option Node × Packing)

def childNode (g : Grammar) (input : Input) (pack : Pack) (child : Match) (packing : Packing) :
    Except Fault (Option Node × Packing) := do
  let node ← node g child.node
  if node.isTerminal then
    let (id, packing) := packing.freshId
    let text ← slice input child.span
    return (some (.leaf id node.symbol text child.span), packing)
  else
    pack ⟨node.symbol, child.span⟩ packing

def childNodes (g : Grammar) (input : Input) (pack : Pack) :
    List Match → Packing → Except Fault (Option (List Node) × Packing)
  | [], packing => .ok (some [], packing)
  | child :: rest, packing => do
    match ← childNode g input pack child packing with
    | (none, packing) => return (none, packing)
    | (some node, packing) =>
      match ← childNodes g input pack rest packing with
      | (none, packing) => return (none, packing)
      | (some nodes, packing) => return (some (node :: nodes), packing)

def reductionNode (production : Production) (span : Span) (nodes : List Node)
    (packing : Packing) : Except Fault (Option Node × Packing) :=
  let (id, packing) := packing.freshId
  if production.isList then do
    let node ← demand (.brokenTurns production.label) <|
      Node.list? id production.label production.lhs span production.separatorArity nodes
    return (some node, packing)
  else
    .ok (some (.branch id production.label production.lhs span nodes), packing)

def reduce (g : Grammar) (input : Input) (pack : Pack) (span : Span)
    (production : Production) (children : List Match) (packing : Packing) :
    Except Fault (Option Node × Packing) := do
  match ← childNodes g input pack children packing with
  | (none, packing) => return (none, packing)
  | (some nodes, packing) => reductionNode production span nodes packing

def reductions (g : Grammar) (chart : Chart) (constituent : Constituent) :
    Except Fault (List (Production × List Match)) := do
  let found ← (chart.completed constituent).mapM fun prod => do
    let entry ← production g prod
    let walks ← derivations g chart prod constituent.span
    return walks.map fun children => (entry.production, children)
  return found.flatten

def reduceAll (g : Grammar) (input : Input) (pack : Pack) (span : Span) :
    List (Production × List Match) → Packing → Except Fault (List Node × Packing)
  | [], packing => .ok ([], packing)
  | (production, children) :: rest, packing => do
    let (node, packing) ← reduce g input pack span production children packing
    let (nodes, packing) ← reduceAll g input pack span rest packing
    return (node.toList ++ nodes, packing)

def packWithin (g : Grammar) (input : Input) (chart : Chart) : (depth : Nat) → Pack
  | 0, _, _ => .error .unfinished
  | limit + 1, constituent, packing =>
    match packing.memo[constituent]? with
    | some result => .ok (result, packing)
    | none =>
      match Packing.depthIn constituent packing.inProgress with
      | some depth => .ok (none, packing.cutAt constituent depth)
      | none => do
        let depth := packing.inProgress.length
        let outerCut := packing.cut
        let found ← reductions g chart constituent
        let (nodes, packing) ← reduceAll g input (packWithin g input chart limit)
          constituent.span found (packing.enter constituent)
        let (result, packing) := packing.merge constituent nodes
        return (result, packing.leave outerCut depth constituent result)

def pack (g : Grammar) (input : Input) (chart : Chart) (constituent : Constituent)
    (packing : Packing) : Except Fault (Option Node × Packing) :=
  if g.isDefined constituent.symbol then do
    let limit := chart.completions.size + 1
    let (result, packing) ← packWithin g input chart limit constituent packing
    return (result, packing.report (.built packing.memo.size))
  else
    .ok (none, packing)

/-! ## Parsing -/

def forestOf (g : Grammar) (onAmbiguity : OnAmbiguity) (symbol : Symbol) (input : Input)
    (chart : Chart) : Except Fault (Except Refusal Node) := do
  let whole ← span 0 input.length
  let (root, _) ← pack g input chart ⟨symbol, whole⟩ {}
  match root with
  | none => return .error (.rejected (← rejection g chart symbol))
  | some root =>
    match onAmbiguity, root.ambiguity? with
    | .refuse, some found => return .error (.ambiguous found)
    | _, _ => return .ok root

/-- Parses a text as a symbol, unless there is a fault. -/
def parseSymbol (g : Grammar) (onAmbiguity : OnAmbiguity) (symbol : Symbol) (text : String) :
    Except Fault (Except Refusal Node) := do
  let input := Input.ofString text
  let r ← recognition g input symbol
  if r.chart.accepts symbol input.length then forestOf g onAmbiguity symbol input r.chart
  else return .error (.rejected (← rejection g r.chart symbol))

end Guarded

end Scannerless
