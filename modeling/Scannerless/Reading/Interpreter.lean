import Scannerless.Event
import Scannerless.Forest.Text
import Scannerless.Grammar.Text
import Scannerless.Reading.Basic

/-!
# Interpreting forests

An interpreter has a handler for the tags of reductions. Each reduction of a forest is handed to
the handler of its tag, with the readings of its parts as arguments. The attributes of the
production change that: a lexical reduction gets no arguments, a bracket has the reading of its
only nonterminal, and a sealed fragment cannot be read. An ambiguity is left open, unless the
interpreter keeps one alternative of it only, or refuses ambiguities.
-/

namespace Scannerless

/-! ## Errors -/

/-- Why there is no reading of a node. -/
inductive Unreadable where
  /-- It is matched text, and no reduction. -/
  | terminal
  /-- It is a fragment that cannot be visited. -/
  | sealed
  /-- It is a bracket around none or several nonterminals. -/
  | bracket
  /-- No handler is registered for its tag. -/
  | noHandler
  deriving DecidableEq

/-- The wording of a reason. -/
def Unreadable.text : Unreadable → String
  | terminal => "terminals have no constructor"
  | sealed => "opaque fragments cannot be visited"
  | bracket => "bracket productions need exactly one nonterminal"
  | noHandler => "no constructor is registered"

/-- Why a forest has no reading. -/
inductive ReadingError where
  /-- A node in it has none. -/
  | unreadable (tag : String) (span : Span) (reason : Unreadable)
  /-- There is an ambiguity, and the interpreter refuses ambiguities. -/
  | ambiguous (found : AmbiguityFound)
  /-- No alternative of an ambiguity is kept. -/
  | noAlternatives (symbol : Symbol) (span : Span)
  /-- A handler failed. -/
  | handler (tag : String) (span : Span) (cause : String)
  deriving DecidableEq

namespace ReadingError

/-- The wording of an error. Of a failed handler it says which one it was. -/
def message : ReadingError → String
  | unreadable tag span reason =>
    "cannot build " ++ tag ++ " over " ++ span.describe ++ ": " ++ reason.text
  | ambiguous found => found.message
  | noAlternatives symbol span =>
    "no alternative of " ++ symbol.describe ++ " over " ++ span.describe ++ " passed the filter"
  | handler tag span _ => "building " ++ tag ++ " over " ++ span.describe

/-- The wording of an error, and of its cause if it has one. -/
def chain (error : ReadingError) : String :=
  match error with
  | handler _ _ cause => error.message ++ ": " ++ cause
  | _ => error.message

end ReadingError

/-! ## Interpreters -/

/-- Makes the value of a reduction from its arguments, or fails with a text. -/
abbrev Handler (α : Type) := Node → List (Argument α) → Except String α

/-- How forests are read. -/
structure Interpreter (α : Type) where
  grammar : Grammar
  handlers : Std.TreeMap String (Handler α) := ∅
  /-- Which alternatives of an ambiguity are kept. -/
  keeps : Node → Bool := fun _ => true
  refusesAmbiguity : Bool := false

/-- A step of reading, which may fail and reports events. -/
abbrev Attempt (α : Type) := ExceptT ReadingError Traced α

namespace Interpreter

variable {α : Type}

/-- Registers the handler for a tag, in place of an earlier one. -/
def withHandler (interpreter : Interpreter α) (tag : String) (handler : Handler α) :
    Interpreter α :=
  { interpreter with handlers := interpreter.handlers.insert tag handler }

/-- The attributes of the production with a tag. -/
def attributes (interpreter : Interpreter α) (tag : String) : Attributes :=
  match (interpreter.grammar.withLabel? tag).bind interpreter.grammar.prod? with
  | some entry => entry.production.attributes
  | none => {}

/-- How many alternatives of an ambiguity are kept, unless that is an error. -/
def countKept (interpreter : Interpreter α) (symbol : Symbol) (span : Span)
    (alternatives : List Node) : Except ReadingError Nat :=
  let count := alternatives.countP interpreter.keeps
  if count = 0 then .error (.noAlternatives symbol span)
  else if 1 < count ∧ interpreter.refusesAmbiguity then .error (.ambiguous { symbol, span })
  else .ok count

/-- The reading that a handler gives for a reduction. -/
def called (handler : Handler α) (tag : String) (node : Node) (arguments : List (Argument α)) :
    Except ReadingError (Reading α) :=
  match handler node arguments with
  | .ok a => .ok (.value a)
  | .error cause => .error (.handler tag node.span cause)

/-- The reading of a reduction. `inner` reads the children that are no leaves, and `arguments`
makes the arguments of the handler; at most one of them is needed. -/
def reduction (interpreter : Interpreter α) (tag : String) (node : Node)
    (inner : Unit → Attempt (List (Reading α)))
    (arguments : Unit → Attempt (List (Argument α))) : Attempt (Reading α) :=
  let attributes := interpreter.attributes tag
  if attributes.sealed then throw (.unreadable tag node.span .sealed)
  else if attributes.bracket then
    if node.children.countP (!·.isLeaf) = 1 then Reading.ofAlternatives <$> inner ()
    else throw (.unreadable tag node.span .bracket)
  else
    match interpreter.handlers[tag]? with
    | none => throw (.unreadable tag node.span .noHandler)
    | some handler => do
      let passed ← if attributes.lexical then pure [] else arguments ()
      ExceptT.mk (pure (called handler tag node passed))

/-- Reports that several alternatives are kept. -/
def reportKept (count : Nat) (symbol : Symbol) (span : Span) : Attempt Unit :=
  if count = 1 then pure ()
  else ExceptT.lift (Traced.report (.keeping count symbol span))

/-! ## Reading -/

mutual

/-- The reading of a node. -/
def read (interpreter : Interpreter α) : Node → Attempt (Reading α)
  | .leaf _ symbol _ span => throw (.unreadable symbol.describe span .terminal)
  | .branch id tag symbol span children =>
    interpreter.reduction tag (.branch id tag symbol span children)
      (fun _ => interpreter.readInner children) (fun _ => interpreter.arguments children)
  | .list id tag symbol span arity children =>
    interpreter.reduction tag (.list id tag symbol span arity children)
      (fun _ => interpreter.readInner children)
      (fun _ => do return [.elements (← interpreter.readElements arity 0 children)])
  | .ambiguity _ symbol span alternatives => do
    let count ← ExceptT.mk (pure (interpreter.countKept symbol span alternatives))
    reportKept count symbol span
    return Reading.ofAlternatives (← interpreter.readKept alternatives)

/-- The readings of the alternatives that are kept. -/
def readKept (interpreter : Interpreter α) : List Node → Attempt (List (Reading α))
  | [] => return []
  | node :: rest => do
    if interpreter.keeps node then
      let reading ← interpreter.read node
      return reading :: (← interpreter.readKept rest)
    else
      interpreter.readKept rest

/-- The readings of the nodes that are no leaves. -/
def readInner (interpreter : Interpreter α) : List Node → Attempt (List (Reading α))
  | [] => return []
  | node :: rest => do
    if node.isLeaf then interpreter.readInner rest
    else
      let reading ← interpreter.read node
      return reading :: (← interpreter.readInner rest)

/-- The readings of the nodes at which an element is due: after `skip` nodes, and then after every
`arity` nodes. -/
def readElements (interpreter : Interpreter α) (arity : Nat) :
    (skip : Nat) → List Node → Attempt (List (Reading α))
  | _, [] => return []
  | 0, node :: rest => do
    let reading ← interpreter.read node
    return reading :: (← interpreter.readElements arity arity rest)
  | skip + 1, _ :: rest => interpreter.readElements arity skip rest

/-- The arguments that children give: none for a leaf, the elements for a list symbol, and the
reading for any other symbol. -/
def arguments (interpreter : Interpreter α) : List Node → Attempt (List (Argument α))
  | [] => return []
  | node :: rest => do
    if node.isLeaf then interpreter.arguments rest
    else if node.symbol.isList then
      let lists ← interpreter.readLists node
      return Argument.ofLists lists :: (← interpreter.arguments rest)
    else
      let reading ← interpreter.read node
      return .single reading :: (← interpreter.arguments rest)

/-- The readings of the elements, for each derivation of a list that is kept. A derivation that is
no reduction of a list production is its own only element. -/
def readLists (interpreter : Interpreter α) : Node → Attempt (List (List (Reading α)))
  | .leaf _ symbol _ span => throw (.unreadable symbol.describe span .terminal)
  | .branch id tag symbol span children => do
    let reading ← interpreter.reduction tag (.branch id tag symbol span children)
      (fun _ => interpreter.readInner children) (fun _ => interpreter.arguments children)
    return [[reading]]
  | .list _ _ _ _ arity children => return [← interpreter.readElements arity 0 children]
  | .ambiguity _ symbol span alternatives => do
    let _ ← ExceptT.mk (pure (interpreter.countKept symbol span alternatives))
    interpreter.readKeptLists alternatives

/-- The readings of the elements, for each alternative of a list that is kept. -/
def readKeptLists (interpreter : Interpreter α) : List Node → Attempt (List (List (Reading α)))
  | [] => return []
  | node :: rest => do
    if interpreter.keeps node then
      let lists ← interpreter.readLists node
      return lists ++ (← interpreter.readKeptLists rest)
    else
      interpreter.readKeptLists rest

end

/-- The written form of an interpreter: its grammar, and whether it refuses ambiguities. -/
def describe (interpreter : Interpreter α) : String :=
  Text.record "AstBuilder"
    [("grammar", interpreter.grammar.describe),
      ("fail_on_ambiguity", Text.truth interpreter.refusesAmbiguity)]

end Interpreter

end Scannerless
