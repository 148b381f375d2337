import Scannerless.Text.Printable

/-!
# Quoted text

How a text is shown inside double quotes: line breaks, tabs, NUL, quotes and backslashes have a
short form, characters that would not show are named by code point, and all others stand for
themselves. The same rule without the enclosing quotes shows the bounds of a character range, and
a stricter one, which names every character outside printable ASCII, labels graph nodes.
-/

namespace Scannerless

namespace Text

/-- A character named by its code point, in lower-case hexadecimal without padding. -/
def codePoint (c : Char) : List Char :=
  ['\\', 'u', '\x7b'] ++ Nat.toDigits 16 c.toNat ++ ['\x7d']

/-- The form of a character in which quotes are of no concern. -/
def visible (c : Char) : List Char :=
  match c with
  | '\x00' => ['\\', '0']
  | '\t' => ['\\', 't']
  | '\r' => ['\\', 'r']
  | '\n' => ['\\', 'n']
  | '\\' => ['\\', '\\']
  | c => if isEscaped c then codePoint c else [c]

/-- The form of a character between double quotes. -/
def quotedChar (c : Char) : List Char :=
  if c = '"' then ['\\', '"'] else visible c

/-- A text between double quotes. -/
def quoted (text : String) : String :=
  String.ofList ('"' :: text.toList.flatMap quotedChar ++ ['"'])

/-- The form of a character that stands alone: both kinds of quote are escaped. -/
def bareChar (c : Char) : List Char :=
  if c = '"' ∨ c = '\'' then ['\\', c] else visible c

/-- The form of a character in a graph label: only printable ASCII stands for itself. -/
def labelChar (c : Char) : List Char :=
  match c with
  | '\t' => ['\\', 't']
  | '\r' => ['\\', 'r']
  | '\n' => ['\\', 'n']
  | '\\' => ['\\', '\\']
  | '\'' => ['\\', '\'']
  | '"' => ['\\', '"']
  | c => if ' ' ≤ c ∧ c ≤ '~' then [c] else codePoint c

/-- A text as it stands between the quotes of a graph label. -/
def label (text : String) : String :=
  String.ofList (text.toList.flatMap labelChar)

end Text

end Scannerless
