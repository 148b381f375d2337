import Scannerless.Text.Quoted

/-!
# Inputs and spans

The text being parsed, as characters, and the stretches of it. Offsets count characters from zero;
a span holds the offsets from its start up to but not including its end.
-/

namespace Scannerless

/-! ## Spans -/

/-- The stretch of a text from `start` up to `stop`. -/
structure Span where
  start : Nat
  stop : Nat
  deriving DecidableEq, Inhabited

namespace Span

/-- The span between two offsets, if they are in order. -/
def ofBounds? (start stop : Nat) : Option Span :=
  if start ≤ stop then some ⟨start, stop⟩ else none

def length (span : Span) : Nat :=
  span.stop - span.start

def isEmpty (span : Span) : Bool :=
  span.start == span.stop

/-- The written form of a span. -/
def describe (span : Span) : String :=
  "[" ++ toString span.start ++ "," ++ toString span.stop ++ ")"

/-- Spans compare by start, then by end. -/
instance : Ord Span where
  compare := compareLex (compareOn Span.start) (compareOn Span.stop)

instance : Std.TransOrd Span :=
  inferInstanceAs (Std.TransCmp (compareLex (compareOn Span.start) (compareOn Span.stop)))

instance : Std.LawfulEqOrd Span where
  eq_of_compare {s t} h := by
    obtain ⟨hstart, hstop⟩ := Ordering.then_eq_eq.1 h
    cases s
    cases t
    simp only [Span.mk.injEq]
    exact ⟨Std.LawfulEqOrd.eq_of_compare hstart, Std.LawfulEqOrd.eq_of_compare hstop⟩

end Span

/-! ## Inputs -/

/-- A text, as characters. -/
structure Input where
  chars : Array Char
  deriving DecidableEq

namespace Input

def ofString (text : String) : Input :=
  ⟨text.toList.toArray⟩

def length (input : Input) : Nat :=
  input.chars.size

def isEmpty (input : Input) : Bool :=
  input.chars.isEmpty

/-- The character at an offset. -/
def charAt? (input : Input) (offset : Nat) : Option Char :=
  input.chars[offset]?

/-- The characters from `start` up to `stop`, if the text reaches that far. -/
def chars? (input : Input) (start stop : Nat) : Option (List Char) :=
  if start ≤ stop ∧ stop ≤ input.length then
    some (input.chars.extract start stop).toList
  else
    none

/-- The text of a span. -/
def slice (input : Input) (span : Span) : String :=
  String.ofList (input.chars.extract span.start span.stop).toList

end Input

end Scannerless
