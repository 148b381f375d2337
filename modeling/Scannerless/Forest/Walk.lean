import Scannerless.Chart.Basic

/-!
# Walks through a production

How a production was completed over a span: the sequences of children on the ways from the item it
began with to the completed item. The links of the chart lead back from the completed item, and
every way back to the first item is a walk. No walk visits an item twice, so that loops that match
nothing are left out.

A list without separators could hold any number of elements that match nothing. No such element is
kept, except as the only one in a list that needs an element and spans nothing.
-/

namespace Scannerless

namespace Walk

/-- Whether children that match nothing are kept. -/
def keepsEmpty (production : Production) (span : Span) : Bool :=
  match production.kind with
  | .sequence => true
  | .list repetition =>
    if production.separatorArity = 0 then span.isEmpty && !repetition.allowsEmpty else true

/-- Whether a link is kept. -/
def keeps (keepEmpty : Bool) (link : Backlink) : Bool :=
  match link.matched with
  | none => true
  | some found => keepEmpty || !found.span.isEmpty

/-- The walks that end in an item and go on with `after`. Items on the way are in `visited`, by
offset and index. -/
def endingIn (chart : Chart) (prod : ProdId) (origin : Nat) (keepEmpty : Bool) :
    (steps : Nat) → (pos index : Nat) → (visited : List (Nat × Nat)) → (after : List Match) →
      List (List Match)
  | 0, _, _, _, _ => []
  | steps + 1, pos, index, visited, after =>
    if (pos, index) ∈ visited then []
    else if pos = origin ∧ index = 0 then [after]
    else
      let links := chart.links ⟨pos, ⟨prod, index⟩, origin⟩
      (links.filter (keeps keepEmpty)).flatMap fun link =>
        endingIn chart prod origin keepEmpty steps link.prevPos link.prevIndex
          ((pos, index) :: visited) (link.matched.toList ++ after)

end Walk

/-- The child sequences of all walks that complete a production over a span. The items of a walk
differ in offset or index, which bounds its length. -/
def Chart.derivations (g : Grammar) (chart : Chart) (prod : ProdId) (span : Span) :
    List (List Match) :=
  match g.prod? prod with
  | none => []
  | some entry =>
    let slots := g.slots prod
    Walk.endingIn chart prod span.start (Walk.keepsEmpty entry.production span)
      ((span.length + 1) * (slots + 1) + 1) span.stop slots [] []

end Scannerless
