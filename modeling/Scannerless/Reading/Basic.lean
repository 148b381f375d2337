import Scannerless.Forest.Node

/-!
# Readings

What a forest means to those who interpret it: a value for each reduction, or several readings
where an ambiguity has not been resolved. The value of a reduction is made from an argument for
each nonterminal or list on the right-hand side of its production.
-/

namespace Scannerless

/-- A reading of a forest. -/
inductive Reading (α : Type) where
  /-- A value. -/
  | value (a : α)
  /-- The readings of several derivations. -/
  | several (readings : List (Reading α))
  deriving Inhabited

namespace Reading

variable {α β : Type}

/-- The value of an unambiguous reading. -/
def value? : Reading α → Option α
  | value a => some a
  | several _ => none

def isAmbiguous : Reading α → Bool
  | value _ => false
  | several _ => true

/-- The readings that an ambiguous reading leaves open. -/
def alternatives : Reading α → List (Reading α)
  | value _ => []
  | several readings => readings

/-- A single reading as it is, and any other number of them left open. -/
def ofAlternatives : List (Reading α) → Reading α
  | [reading] => reading
  | readings => several readings

mutual

/-- Applies a function to all values. What is open stays open. -/
def map (f : α → β) : Reading α → Reading β
  | value a => .value (f a)
  | several readings => .several (mapAll f readings)

/-- Applies a function to all values of the readings. -/
def mapAll (f : α → β) : List (Reading α) → List (Reading β)
  | [] => []
  | reading :: rest => map f reading :: mapAll f rest

end

end Reading

/-- What the value of a reduction is made from. -/
inductive Argument (α : Type) where
  /-- The reading of a nonterminal. -/
  | single (reading : Reading α)
  /-- The readings of the elements of a list. Its separators are not passed on. -/
  | elements (readings : List (Reading α))
  /-- The readings of the elements, for each derivation of a list. -/
  | severalLists (lists : List (List (Reading α)))

namespace Argument

variable {α : Type}

/-- The reading of a nonterminal. -/
def single? : Argument α → Option (Reading α)
  | single reading => some reading
  | _ => none

/-- The readings of the elements of an unambiguous list. -/
def elements? : Argument α → Option (List (Reading α))
  | elements readings => some readings
  | _ => none

/-- The elements of a single derivation of a list as they are, and those of any other number of
derivations left open. -/
def ofLists : List (List (Reading α)) → Argument α
  | [readings] => elements readings
  | lists => severalLists lists

/-- The values of the unambiguous nonterminals among arguments. -/
def values (arguments : List (Argument α)) : List α :=
  arguments.filterMap fun argument => argument.single?.bind Reading.value?

/-- The values of the unambiguous elements of the unambiguous lists among arguments. -/
def elementValues (arguments : List (Argument α)) : List α :=
  (arguments.filterMap elements?).flatten.filterMap Reading.value?

end Argument

end Scannerless
