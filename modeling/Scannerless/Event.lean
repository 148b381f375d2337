import Scannerless.Input
import Scannerless.Symbol.Text

/-!
# Events

What the assembly of grammars, recognition, packing and reading report as they go, each report with
a level and a text. A traced value is a value with the events on the way to it.
-/

namespace Scannerless

/-- How much detail an event gives. -/
inductive Level where
  | debug
  | trace
  deriving DecidableEq

def Level.name : Level → String
  | .debug => "DEBUG"
  | .trace => "TRACE"

/-- Something worth reporting. -/
inductive Event where
  /-- A grammar of so many productions and stack nodes is about to be checked. -/
  | assembling (productions nodes : Nat)
  /-- No derivation of the start symbol uses this symbol. -/
  | unreachable (symbol : Symbol)
  /-- A text of so many characters is about to be recognized. -/
  | parsing (symbol : Symbol) (length : Nat)
  /-- Recognition is over. -/
  | finished (items furthest : Nat)
  /-- The productions of a symbol are started at an offset. -/
  | calling (symbol : Symbol) (offset : Nat)
  /-- A production is complete over a span. -/
  | completed (label : String) (span : Span)
  /-- A derivation needs the very symbol and span it is to give. -/
  | cutting (symbol : Symbol) (span : Span)
  /-- A symbol has several derivations over a span. -/
  | ambiguous (symbol : Symbol) (span : Span) (alternatives : Nat)
  /-- A forest is packed, with so many shared nodes. -/
  | built (shared : Nat)
  /-- A reading keeps so many alternatives. -/
  | keeping (alternatives : Nat) (symbol : Symbol) (span : Span)

namespace Event

def level : Event → Level
  | assembling .. => .debug
  | unreachable .. => .debug
  | parsing .. => .debug
  | finished .. => .debug
  | built .. => .debug
  | calling .. => .trace
  | completed .. => .trace
  | cutting .. => .trace
  | ambiguous .. => .trace
  | keeping .. => .trace

def text : Event → String
  | assembling productions nodes =>
    "Building grammar with " ++ toString productions ++ " productions over " ++ toString nodes ++
      " stack nodes"
  | unreachable symbol => symbol.describe ++ " is not reachable from the start symbol"
  | parsing symbol length =>
    "Parsing " ++ symbol.describe ++ " over " ++ toString length ++ " characters"
  | finished items furthest =>
    "Finished with " ++ toString items ++ " items, furthest offset " ++ toString furthest
  | calling symbol offset => "Calling " ++ symbol.describe ++ " at " ++ toString offset
  | completed label span => "Completed " ++ label ++ " over " ++ span.describe
  | cutting symbol span =>
    "Cutting cyclic derivation of " ++ symbol.describe ++ " over " ++ span.describe
  | ambiguous symbol span alternatives =>
    symbol.describe ++ " over " ++ span.describe ++ " has " ++ toString alternatives ++
      " alternatives"
  | built shared => "Built forest with " ++ toString shared ++ " shared nodes"
  | keeping alternatives symbol span =>
    "Keeping " ++ toString alternatives ++ " alternatives of " ++ symbol.describe ++ " over " ++
      span.describe

/-- The event as a line of a log. -/
def line (event : Event) : String :=
  event.level.name ++ " " ++ event.text

end Event

/-! ## Traced values -/

/-- A value, and the events on the way to it. -/
structure Traced (α : Type) where
  value : α
  events : List Event := []

namespace Traced

instance : Monad Traced where
  pure value := { value }
  bind first next :=
    let second := next first.value
    { value := second.value, events := first.events ++ second.events }

instance : LawfulMonad Traced :=
  LawfulMonad.mk' Traced
    (fun traced => by simp [Functor.map])
    (fun _ _ => rfl)
    (fun first second third => by simp [bind])

/-- Reports an event. -/
def report (event : Event) : Traced Unit :=
  { value := (), events := [event] }

end Traced

end Scannerless
