import Scannerless.Event
import Scannerless.Forest.Order
import Scannerless.Forest.Walk

/-!
# Packing forests

The forest of a constituent is packed from its completed productions: each walk through a
production gives a reduction, whose children are packed in the same way. Every constituent is
packed at most once and shared.

A derivation that needs the very constituent it is to give is cut. What is packed in the shadow of a
cut leaves out derivations that would be there in another context, so it is not shared: a result is
shared only if no cut below it refers to a constituent further out that is still in progress.
-/

namespace Scannerless

/-- A forest that is being packed. -/
structure Packing where
  /-- What is known of constituents: their nodes, or that they have none. -/
  memo : Std.TreeMap Constituent (Option Node) := ∅
  /-- The constituents in progress, the innermost first. -/
  inProgress : List Constituent := []
  /-- The depth of the outermost constituent in progress that a cut has referred to. -/
  cut : Option Nat := none
  /-- The id of the next node. -/
  nextId : Nat := 0
  events : Array Event := #[]

namespace Packing

/-- Reports an event. -/
def report (packing : Packing) (event : Event) : Packing :=
  { packing with events := packing.events.push event }

/-- Uses up an id. -/
def freshId (packing : Packing) : Nat × Packing :=
  (packing.nextId, { packing with nextId := packing.nextId + 1 })

/-- How deep a constituent in progress is: the number of those further out. -/
def depthIn (constituent : Constituent) : List Constituent → Option Nat
  | [] => none
  | other :: outer => if constituent = other then some outer.length else depthIn constituent outer

/-- The depth that is further out. -/
def outermost : Option Nat → Option Nat → Option Nat
  | some a, some b => some (min a b)
  | some a, none => some a
  | none, b => b

/-- Cuts a derivation that refers to the constituent in progress at a depth. -/
def cutAt (packing : Packing) (constituent : Constituent) (depth : Nat) : Packing :=
  { packing.report (.cutting constituent.symbol constituent.span) with
    cut := outermost packing.cut (some depth) }

/-- Begins a constituent. -/
def enter (packing : Packing) (constituent : Constituent) : Packing :=
  { packing with inProgress := constituent :: packing.inProgress, cut := none }

/-- Ends the constituent begun last, at a depth, with its result. The result is shared unless a
cut refers to a constituent further out. -/
def leave (packing : Packing) (outerCut : Option Nat) (depth : Nat) (constituent : Constituent)
    (result : Option Node) : Packing :=
  let innerCut := packing.cut.filter (· < depth)
  { packing with
    inProgress := packing.inProgress.tail
    cut := outermost outerCut innerCut
    memo := if innerCut.isNone then packing.memo.insert constituent result else packing.memo }

/-! ## Reductions -/

/-- How a constituent is packed into a node. -/
abbrev Pack := Constituent → Packing → Option Node × Packing

/-- The node of a child: a leaf for a terminal, and whatever any other symbol is packed into. -/
def childNode (g : Grammar) (input : Input) (pack : Pack) (child : Match) (packing : Packing) :
    Option Node × Packing :=
  match g.node? child.node with
  | none => (none, packing)
  | some node =>
    if node.isTerminal then
      let (id, packing) := packing.freshId
      (some (.leaf id node.symbol (input.slice child.span) child.span), packing)
    else
      pack ⟨node.symbol, child.span⟩ packing

/-- The nodes of children in order, unless one has none; then those after it are not packed. -/
def childNodes (g : Grammar) (input : Input) (pack : Pack) :
    List Match → Packing → Option (List Node) × Packing
  | [], packing => (some [], packing)
  | child :: rest, packing =>
    match childNode g input pack child packing with
    | (none, packing) => (none, packing)
    | (some node, packing) =>
      match childNodes g input pack rest packing with
      | (none, packing) => (none, packing)
      | (some nodes, packing) => (some (node :: nodes), packing)

/-- The node of a reduction with given children. -/
def reductionNode (production : Production) (span : Span) (nodes : List Node)
    (packing : Packing) : Option Node × Packing :=
  let (id, packing) := packing.freshId
  if production.isList then
    (Node.list? id production.label production.lhs span production.separatorArity nodes, packing)
  else
    (some (.branch id production.label production.lhs span nodes), packing)

/-- The node of a reduction, unless a child has none. -/
def reduce (g : Grammar) (input : Input) (pack : Pack) (span : Span)
    (production : Production) (children : List Match) (packing : Packing) :
    Option Node × Packing :=
  match childNodes g input pack children packing with
  | (none, packing) => (none, packing)
  | (some nodes, packing) => reductionNode production span nodes packing

/-- The reductions of a constituent: its completed productions in order, each with the children of
every walk that completes it. -/
def reductions (g : Grammar) (chart : Chart) (constituent : Constituent) :
    List (Production × List Match) :=
  (chart.completed constituent).flatMap fun prod =>
    match g.prod? prod with
    | none => []
    | some entry =>
      (chart.derivations g prod constituent.span).map fun children => (entry.production, children)

/-- The nodes of those reductions that have one. -/
def reduceAll (g : Grammar) (input : Input) (pack : Pack) (span : Span) :
    List (Production × List Match) → Packing → List Node × Packing
  | [], packing => ([], packing)
  | (production, children) :: rest, packing =>
    let (node, packing) := reduce g input pack span production children packing
    let (nodes, packing) := reduceAll g input pack span rest packing
    (node.toList ++ nodes, packing)

/-- Merges the derivations of a constituent. -/
def merge (packing : Packing) (constituent : Constituent) (nodes : List Node) :
    Option Node × Packing :=
  let (id, packing) := packing.freshId
  let result := Node.merge? id constituent.symbol constituent.span nodes
  match result with
  | some (.ambiguity _ _ _ alternatives) =>
    (result,
      packing.report (.ambiguous constituent.symbol constituent.span alternatives.length))
  | _ => (result, packing)

/-! ## Constituents -/

/-- Packs a constituent into a node, if it has a derivation that needs no constituent in progress.
The constituents in progress differ, and each has a completed production, so that `depth` need not
be more than one above the number of completed constituents. -/
def packWithin (g : Grammar) (input : Input) (chart : Chart) : (depth : Nat) → Pack
  | 0, _, packing => (none, packing)
  | limit + 1, constituent, packing =>
    match packing.memo[constituent]? with
    | some result => (result, packing)
    | none =>
      match depthIn constituent packing.inProgress with
      | some depth => (none, packing.cutAt constituent depth)
      | none =>
        let depth := packing.inProgress.length
        let outerCut := packing.cut
        let (nodes, packing) :=
          reduceAll g input (packWithin g input chart limit) constituent.span
            (reductions g chart constituent) (packing.enter constituent)
        let (result, packing) := packing.merge constituent nodes
        (result, packing.leave outerCut depth constituent result)

/-- Packs a constituent into a node. A symbol without productions has none. -/
def pack (g : Grammar) (input : Input) (chart : Chart) (constituent : Constituent)
    (packing : Packing) : Option Node × Packing :=
  if g.isDefined constituent.symbol then
    let limit := chart.completions.size + 1
    let (result, packing) := packWithin g input chart limit constituent packing
    (result, packing.report (.built packing.memo.size))
  else
    (none, packing)

end Packing

end Scannerless
