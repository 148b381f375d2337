/-!
# Reading numerals

Decimal numerals of 64 bits. A plus sign may lead; a sign alone is no numeral. The digits are read
from the left, and the first thing wrong is the one reported: a character that is no digit, or a
digit that carries the value past 64 bits.
-/

namespace Scannerless

namespace Text

/-- What is wrong with a numeral. -/
inductive NumeralError where
  | empty
  | invalidDigit
  | tooLarge
  deriving DecidableEq

/-- The wording of a numeral error. -/
def NumeralError.message : NumeralError → String
  | .empty => "cannot parse integer from empty string"
  | .invalidDigit => "invalid digit found in string"
  | .tooLarge => "number too large to fit in target type"

/-- Reads digits after those that gave `value`. -/
def readDigits : List Char → Nat → Except NumeralError Nat
  | [], value => .ok value
  | c :: rest, value =>
    if c.isDigit then
      let next := value * 10 + (c.toNat - '0'.toNat)
      if next < 2 ^ 64 then readDigits rest next else .error .tooLarge
    else
      .error .invalidDigit

/-- Reads a numeral of 64 bits. -/
def readNumeral (text : String) : Except NumeralError Nat :=
  match text.toList with
  | [] => .error .empty
  | ['+'] => .error .invalidDigit
  | '+' :: digits => readDigits digits 0
  | digits => readDigits digits 0

end Text

end Scannerless
