import Std.Data.TreeSet

/-!
# Breadth-first closure

All values that can be reached from given ones by a step function. The search goes level by level:
the values of a level are stepped in order, and those not seen before make up the next level. Each
value is stepped once. The number of levels is bounded by the caller; a bound of one more than the
number of reachable values lets every search come to its end.
-/

namespace Scannerless

/-- What a search has seen, and the values it has stepped, in order. -/
structure Closure (α : Type) [Ord α] where
  seen : Std.TreeSet α
  stepped : Array α

namespace Closure

variable {α : Type} [Ord α]

/-- A search in the middle of a level: what it has found so far, and the values that make up the
next level. -/
structure Frontier (α : Type) [Ord α] extends Closure α where
  next : Std.TreeSet α

/-- Takes note of a value. -/
def Frontier.meet (frontier : Frontier α) (value : α) : Frontier α :=
  if frontier.seen.contains value then frontier
  else
    { frontier with
      seen := frontier.seen.insert value
      next := frontier.next.insert value }

/-- Steps a value. -/
def Frontier.advance (step : α → List α) (frontier : Frontier α) (value : α) : Frontier α :=
  (step value).foldl Frontier.meet { frontier with stepped := frontier.stepped.push value }

/-- Steps the values of a level in order. -/
def level (step : α → List α) (values : List α) (found : Closure α) : Frontier α :=
  values.foldl (Frontier.advance step) { found with next := ∅ }

/-- Goes on from a level. -/
def search (step : α → List α) :
    (levels : Nat) → (current : Std.TreeSet α) → Closure α → Closure α
  | 0, _, found => found
  | levels + 1, current, found =>
    if current.isEmpty then found
    else
      let frontier := level step current.toList found
      search step levels frontier.next frontier.toClosure

end Closure

/-- The values reached from the initial ones within a number of levels. -/
def closure {α : Type} [Ord α] (levels : Nat) (initial : List α) (step : α → List α) : Closure α :=
  let start := Std.TreeSet.ofList initial
  Closure.search step levels start { seen := start, stepped := #[] }

end Scannerless
