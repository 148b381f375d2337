import Scannerless.Grammar.Basic

/-!
# Dotted productions

A production with a place on its right-hand side: how far it has been recognized. The place is an
index into the wiring; the index one past the last node says that the production is complete.

A list production is wired to its element and its separators, and its places form a loop: after the
last separator the element is due again, and after an element the production may also be complete.
-/

namespace Scannerless

/-- A production, recognized up to an index of its wiring. -/
structure Dotted where
  prod : ProdId
  index : Nat
  deriving DecidableEq

/-- Dotted productions compare by production, then by index. -/
instance : Ord Dotted where
  compare := compareLex (compareOn Dotted.prod) (compareOn Dotted.index)

namespace Dotted

/-- The production before anything of it is recognized. -/
def ofStart (prod : ProdId) : Dotted :=
  ⟨prod, 0⟩

/-- The production when all of it is recognized. -/
def complete (g : Grammar) (prod : ProdId) : Dotted :=
  ⟨prod, g.slots prod⟩

/-- The same production at another index, if it has one. -/
def withIndex? (g : Grammar) (d : Dotted) (index : Nat) : Option Dotted :=
  if index ≤ g.slots d.prod then some { d with index } else none

/-- The node that is due. -/
def next? (g : Grammar) (d : Dotted) : Option StackNode :=
  g.nodeAt? d.prod d.index

def isComplete (g : Grammar) (d : Dotted) : Bool :=
  g.slots d.prod == d.index

def isStart (d : Dotted) : Bool :=
  d.index == 0

/-- How a production is matched; one that is not in the grammar counts as a sequence. -/
def kind (g : Grammar) (d : Dotted) : ProductionKind :=
  match g.prod? d.prod with
  | some entry => entry.production.kind
  | none => .sequence

/-- Whether the production may be complete from here without matching anything: the start of a
list that needs no element. -/
def allowsEmpty (g : Grammar) (d : Dotted) : Bool :=
  match d.kind g with
  | .sequence => false
  | .list repetition => d.index == 0 && repetition.allowsEmpty

/-- The place after which `rest` completes the production. A sequence of nodes that goes on with a
list ends with the element, and its first node tells the place. -/
def before (g : Grammar) (d : Dotted) (rest : List NodeId) : Dotted :=
  let slots := g.slots d.prod
  match d.kind g with
  | .sequence => { d with index := slots - rest.length }
  | .list _ =>
    if rest.isEmpty then { d with index := slots }
    else { d with index := (slots + 1 - rest.length) % slots }

/-- The places reached once the node that is due has matched: one for each sequence of nodes that
may follow it. -/
def advance (g : Grammar) (d : Dotted) : List Dotted :=
  match d.next? g with
  | none => []
  | some node => (node.successorsIn d.prod).map (d.before g)

end Dotted

end Scannerless
