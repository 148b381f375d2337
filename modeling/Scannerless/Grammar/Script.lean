import Scannerless.Event
import Scannerless.Grammar.Basic

/-!
# Grammar scripts

A grammar is described by a script of declarations. Nodes are declared with ids of the script's
choice and wired to productions by hand, or they are made for the symbols of a production, with ids
above all that have been seen.

The first defect that a declaration brings in is the one that the script is refused for. If there
is none, every list symbol that a node stands for and that no production defines is given its list
production, and the grammar is assembled.
-/

namespace Scannerless

/-- One alternative of a rule. -/
inductive RuleBody where
  /-- Symbols in order. -/
  | sequence (label : String) (rhs : List Symbol) (attributes : List Attribute)
  /-- A separated list. -/
  | list (label : String) (element : Symbol) (separators : List Symbol) (repetition : Repetition)

/-- The production that defines `head` by this alternative. -/
def RuleBody.production (head : Symbol) : RuleBody → Production
  | sequence label rhs attributes =>
    attributes.foldl Production.withAttribute { label, lhs := head, rhs }
  | list label element separators repetition =>
    Production.ofList label head element separators repetition

/-- One step of a grammar script. -/
inductive Declaration where
  /-- A node for a literal. -/
  | literal (id : NodeId) (text : String)
  /-- A node for a character class. -/
  | charClass (id : NodeId) (ranges : List CharRange)
  /-- A node for a nonterminal. -/
  | nonTerminal (id : NodeId) (name : String)
  /-- A node for a list of what the given nodes stand for. -/
  | separatedList (id element : NodeId) (separators : List NodeId) (repetition : Repetition)
  /-- A node for a symbol, and nodes for its parts, with ids not used before. -/
  | node (symbol : Symbol)
  /-- An id not used before. -/
  | fresh
  /-- A production wired to these nodes. -/
  | wired (production : Production) (nodes : List NodeId)
  /-- A production wired to nodes of its own. -/
  | production (production : Production)
  /-- The alternatives of a symbol, each wired to nodes of its own. -/
  | rule (head : Symbol) (bodies : List RuleBody)

/-- What a script has described so far. -/
structure GrammarDraft where
  start : Symbol
  nodes : Std.TreeMap NodeId StackNode := ∅
  prods : Array WiredProduction := #[]
  /-- The first defect, if there has been one. -/
  defect? : Option Defect := none
  /-- A bound above all ids seen. -/
  nextId : Nat := 0

namespace GrammarDraft

/-- Node ids lie below this bound. -/
def idLimit : Nat := Nat.pow 2 32

/-- Takes note of a defect. Only the first one counts. -/
def report (draft : GrammarDraft) (defect : Defect) : GrammarDraft :=
  { draft with defect? := draft.defect?.or (some defect) }

/-! ## Nodes -/

/-- Adds a node under an id. -/
def addNode (draft : GrammarDraft) (id : NodeId) (symbol : Symbol) (parts : List NodeId) :
    GrammarDraft :=
  let draft := { draft with nextId := max draft.nextId (id + 1) }
  if draft.nodes.contains id then draft.report (.duplicateNode id)
  else { draft with nodes := draft.nodes.insert id { id, symbol, parts } }

/-- An id not used before. When none is left, that is a defect, and the highest id stands in. -/
def freshId (draft : GrammarDraft) : NodeId × GrammarDraft :=
  if draft.nextId < idLimit then (draft.nextId, { draft with nextId := draft.nextId + 1 })
  else (idLimit - 1, draft.report .idsExhausted)

/-- The symbols that nodes stand for, or the first id that is not a node's. -/
def symbolsOf (draft : GrammarDraft) : List NodeId → Except NodeId (List Symbol)
  | [] => .ok []
  | id :: rest =>
    match draft.nodes[id]? with
    | none => .error id
    | some node =>
      match draft.symbolsOf rest with
      | .error missing => .error missing
      | .ok symbols => .ok (node.symbol :: symbols)

/-- Adds a list node over an element node and separator nodes. -/
def addList (draft : GrammarDraft) (id element : NodeId) (separators : List NodeId)
    (repetition : Repetition) : GrammarDraft :=
  match draft.symbolsOf (element :: separators) with
  | .error missing => draft.report (.unknownNode "separated list" missing)
  | .ok [] => draft
  | .ok (elementSymbol :: separatorSymbols) =>
    draft.addNode id (.list elementSymbol separatorSymbols repetition) (element :: separators)

mutual

/-- Makes a node for a symbol. The parts of a list get nodes before the list does. -/
def nodeFor (draft : GrammarDraft) : Symbol → NodeId × GrammarDraft
  | .list element separators repetition =>
    let (elementNode, draft) := draft.nodeFor element
    let (separatorNodes, draft) := draft.nodesFor separators
    let (id, draft) := draft.freshId
    (id, draft.addList id elementNode separatorNodes repetition)
  | .literal text =>
    let (id, draft) := draft.freshId
    (id, draft.addNode id (.literal text) [])
  | .charClass cls =>
    let (id, draft) := draft.freshId
    (id, draft.addNode id (.charClass cls) [])
  | .nonTerminal name =>
    let (id, draft) := draft.freshId
    (id, draft.addNode id (.nonTerminal name) [])

/-- Makes nodes for symbols in order. -/
def nodesFor (draft : GrammarDraft) : List Symbol → List NodeId × GrammarDraft
  | [] => ([], draft)
  | symbol :: rest =>
    let (id, draft) := draft.nodeFor symbol
    let (ids, draft) := draft.nodesFor rest
    (id :: ids, draft)

end

/-! ## Productions -/

/-- The first position, counted from `index`, at which a node does not stand for the symbol. -/
def misfit? (draft : GrammarDraft) (label : String) :
    (index : Nat) → List NodeId → List Symbol → Option Defect
  | index, id :: ids, expected :: rest =>
    match draft.nodes[id]? with
    | none => some (.unknownNode label id)
    | some node =>
      if node.symbol = expected then draft.misfit? label (index + 1) ids rest
      else some (.symbolMismatch label index id expected node.symbol)
  | _, _, _ => none

/-- What is wrong with wiring a production to these nodes. -/
def wiringDefect? (draft : GrammarDraft) (production : Production) (nodes : List NodeId) :
    Option Defect :=
  if production.arity = nodes.length then draft.misfit? production.label 0 nodes production.rhs
  else some (.arityMismatch production.label production.arity nodes.length)

/-- Adds a production wired to these nodes. -/
def wire (draft : GrammarDraft) (production : Production) (nodes : List NodeId) :
    GrammarDraft :=
  match draft.wiringDefect? production nodes with
  | some defect => draft.report defect
  | none => { draft with prods := draft.prods.push ⟨production, nodes⟩ }

/-- Adds a production wired to nodes of its own. -/
def addProduction (draft : GrammarDraft) (production : Production) : GrammarDraft :=
  let (nodes, draft) := draft.nodesFor production.rhs
  draft.wire production nodes

/-- Adds the alternatives of a symbol. -/
def addRule (draft : GrammarDraft) (head : Symbol) (bodies : List RuleBody) : GrammarDraft :=
  (bodies.map (RuleBody.production head)).foldl addProduction draft

/-! ## Scripts -/

/-- Carries out a declaration, and gives the id that it is about. -/
def declare (draft : GrammarDraft) : Declaration → Option NodeId × GrammarDraft
  | .literal id text => (some id, draft.addNode id (.literal text) [])
  | .charClass id ranges => (some id, draft.addNode id (.charClass (CharClass.ofRanges ranges)) [])
  | .nonTerminal id name => (some id, draft.addNode id (.nonTerminal name) [])
  | .separatedList id element separators repetition =>
    (some id, draft.addList id element separators repetition)
  | .node symbol =>
    let (id, draft) := draft.nodeFor symbol
    (some id, draft)
  | .fresh =>
    let (id, draft) := draft.freshId
    (some id, draft)
  | .wired production nodes => (none, draft.wire production nodes)
  | .production production => (none, draft.addProduction production)
  | .rule head bodies => (none, draft.addRule head bodies)

/-- Carries out a script. -/
def run (draft : GrammarDraft) (script : List Declaration) : GrammarDraft :=
  script.foldl (fun draft declaration => (draft.declare declaration).2) draft

/-- The ids that the declarations of a script are about, in order. -/
def answers (draft : GrammarDraft) : List Declaration → List (Option NodeId)
  | [] => []
  | declaration :: rest =>
    let (id, draft) := draft.declare declaration
    id :: draft.answers rest

/-! ## The grammar -/

/-- List productions for the list symbols of nodes that are not yet defined, each wired to the
parts of the first node that stands for it. -/
def impliedBy (defined : Std.TreeSet Symbol) : List StackNode → List WiredProduction
  | [] => []
  | node :: rest =>
    match Production.forListSymbol? node.symbol with
    | none => impliedBy defined rest
    | some production =>
      if defined.contains node.symbol then impliedBy defined rest
      else ⟨production, node.parts⟩ :: impliedBy (defined.insert node.symbol) rest

/-- The list productions that the script leaves unsaid. -/
def implied (draft : GrammarDraft) : List WiredProduction :=
  impliedBy (Std.TreeSet.ofList (draft.prods.toList.map fun entry => entry.production.lhs))
    draft.nodes.values

/-- All productions: those of the script, then those it leaves unsaid. -/
def entries (draft : GrammarDraft) : List WiredProduction :=
  draft.prods.toList ++ draft.implied

/-- The grammar that the script has described, with the events on the way to it. -/
def build (draft : GrammarDraft) : Traced (Except Defect Grammar) :=
  match draft.defect? with
  | some defect => pure (.error defect)
  | none =>
    let entries := draft.entries
    let outcome := Grammar.assemble draft.start entries draft.nodes
    let unreachable :=
      match outcome with
      | .error _ => []
      | .ok g => g.unreachable.map Event.unreachable
    { value := outcome, events := .assembling entries.length draft.nodes.size :: unreachable }

end GrammarDraft

/-- The grammar that a script describes. -/
def Grammar.ofScript (start : Symbol) (script : List Declaration) :
    Traced (Except Defect Grammar) :=
  (GrammarDraft.run { start } script).build

end Scannerless
