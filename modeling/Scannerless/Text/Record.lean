/-!
# Records, lists, sets and maps in text

The written form of compound values: `[a, b]`, a set or a map in braces, a named record with its
fields in order, and an optional value as `Some(a)` or `None`. The parts are given as texts.
-/

namespace Scannerless

namespace Text

/-- Parts separated by commas. -/
def commas (parts : List String) : String :=
  ", ".intercalate parts

/-- The parts in square brackets. -/
def list (parts : List String) : String :=
  "[" ++ commas parts ++ "]"

/-- The parts in braces. -/
def set (parts : List String) : String :=
  "\x7b" ++ commas parts ++ "\x7d"

/-- A named value, as in `start: S`. -/
def field (entry : String × String) : String :=
  entry.1 ++ ": " ++ entry.2

/-- The keys and values, in braces. -/
def map (entries : List (String × String)) : String :=
  set (entries.map field)

/-- A record with at least one field. -/
def record (name : String) (fields : List (String × String)) : String :=
  name ++ " \x7b " ++ commas (fields.map field) ++ " \x7d"

/-- A name applied to its parts, as in `List(Plus)`. -/
def applied (name : String) (parts : List String) : String :=
  name ++ "(" ++ commas parts ++ ")"

/-- A value that may be missing. -/
def option : Option String → String
  | none => "None"
  | some part => applied "Some" [part]

/-- A truth value. -/
def truth (b : Bool) : String :=
  if b then "true" else "false"

end Text

end Scannerless
