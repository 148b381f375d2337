import Scannerless.Forest.Node

/-!
# Filters

Conditions on the alternatives of an ambiguity, by which some of them are kept and the others
dropped.
-/

namespace Scannerless

/-- Conditions on an alternative, which is kept if it meets all of them. -/
structure AlternativeFilter where
  /-- Tags that it must not have. -/
  rejected : List String := []
  /-- Tags of which it must have one, if they are given. -/
  kept : Option (List String) := none
  /-- How many children it may have at most. -/
  maxChildren : Option Nat := none
  /-- How many characters its last child may span at most. -/
  maxLastSpan : Option Nat := none

namespace AlternativeFilter

/-- Whether the tag of the alternative may be. -/
def passesTag (filter : AlternativeFilter) (tag : Option String) : Bool :=
  let isIn (tags : List String) : Bool := tag.any fun tag => tags.contains tag
  !isIn filter.rejected && filter.kept.all isIn

/-- Whether the children of the alternative may be. -/
def passesChildren (filter : AlternativeFilter) (children : List Node) : Bool :=
  filter.maxChildren.all (children.length ≤ ·) &&
    filter.maxLastSpan.all fun most => children.getLast?.all (·.span.length ≤ most)

/-- Whether the alternative meets all conditions. -/
def passes (filter : AlternativeFilter) (alternative : Node) : Bool :=
  filter.passesTag alternative.tag? && filter.passesChildren alternative.children

end AlternativeFilter

end Scannerless
