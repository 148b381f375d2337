import Scannerless.Chart.Recognize
import Scannerless.Chart.Text
import Scannerless.Forest.Packing
import Scannerless.Forest.Text

/-!
# Parsing

Recognition and packing put together: a text is parsed as a symbol if some derivation of the symbol
spans all of it. Ambiguity is kept in the forest, or refused.
-/

namespace Scannerless

/-- What to do with a text that has several derivations. -/
inductive OnAmbiguity where
  /-- Keep all of them in the forest. -/
  | keep
  /-- Refuse the text. -/
  | refuse
  deriving DecidableEq

/-- No derivation of the symbol spans the whole text. The partial ones reach `offset`, where they
could go on with one of the expected symbols. -/
structure Rejection where
  symbol : Symbol
  offset : Nat
  expected : List Symbol
  deriving DecidableEq

/-- The wording of a rejection. -/
def Rejection.message (rejection : Rejection) : String :=
  "could not parse " ++ rejection.symbol.describe ++ ": stopped at offset " ++
    toString rejection.offset ++ ", expected one of " ++
    Symbol.describeExpected rejection.expected

/-- Why a text was not parsed. -/
inductive Refusal where
  /-- No derivation spans the whole text. -/
  | rejected (rejection : Rejection)
  /-- There are several derivations, and ambiguity is to be refused. -/
  | ambiguous (found : AmbiguityFound)
  deriving DecidableEq

/-- The wording of a refusal. -/
def Refusal.message : Refusal → String
  | rejected rejection => rejection.message
  | ambiguous found => found.message

/-- The rejection that a chart gives for a symbol. -/
def Chart.rejection (g : Grammar) (chart : Chart) (symbol : Symbol) : Rejection where
  symbol := symbol
  offset := chart.furthest
  expected := chart.expectedAt g chart.furthest

namespace Grammar

/-- Recognizes a symbol over the whole text. -/
def recognizeAll (g : Grammar) (symbol : Symbol) (input : Input) :
    Traced (Except Rejection Chart) := do
  Traced.report (.parsing symbol input.length)
  let chart ← g.recognize input symbol
  Traced.report (.finished chart.numItems chart.furthest)
  if chart.accepts symbol input.length then
    return .ok chart
  else
    return .error (chart.rejection g symbol)

/-- The forest of a symbol over the whole of the text that the chart is about, unless it is to be
refused. -/
def forestOf (g : Grammar) (onAmbiguity : OnAmbiguity) (symbol : Symbol) (input : Input)
    (chart : Chart) : Traced (Except Refusal Node) :=
  let (root, packing) := Packing.pack g input chart ⟨symbol, ⟨0, input.length⟩⟩ {}
  let outcome : Except Refusal Node :=
    match root with
    | none => .error (.rejected (chart.rejection g symbol))
    | some root =>
      match onAmbiguity, root.ambiguity? with
      | .refuse, some found => .error (.ambiguous found)
      | _, _ => .ok root
  { value := outcome, events := packing.events.toList }

/-- Parses a text as a symbol. -/
def parseSymbol (g : Grammar) (onAmbiguity : OnAmbiguity) (symbol : Symbol) (text : String) :
    Traced (Except Refusal Node) := do
  let input := Input.ofString text
  match ← g.recognizeAll symbol input with
  | .error rejection => return .error (.rejected rejection)
  | .ok chart => g.forestOf onAmbiguity symbol input chart

/-- Parses a text as the start symbol. -/
def parse (g : Grammar) (onAmbiguity : OnAmbiguity) (text : String) :
    Traced (Except Refusal Node) :=
  g.parseSymbol onAmbiguity g.start text

end Grammar

end Scannerless
