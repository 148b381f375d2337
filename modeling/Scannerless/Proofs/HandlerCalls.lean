import Scannerless.Proofs.SameReadings
import Scannerless.Proofs.SeparatedLists
import Scannerless.Proofs.Visits

/-!
# Calls of handlers

A reading says nothing of the calls of handlers that have led to it, and an error says even less.
What can be seen of a call is that the answer to it matters: a handler that fails where it is called
makes the whole reading fail, with whatever text it likes. So a call is made on the way to the
reading of a node if the reading is another one for some other answer (`Interpreter.Makes`).

A call that is made is one of a reduction in the forest that is neither sealed nor a bracket, with
the arguments that are handed to its handler (`Makes.due`). If there is a reading, all such calls
are made that reading comes to (`Due.makes_of_visits`).
-/

namespace Scannerless

/-- A call of a handler: its tag, the reduction and the arguments. -/
structure HandlerCall (α : Type) where
  tag : String
  node : Node
  arguments : List (Argument α)

namespace Node

theorem Reaches.sizeOf_le {node other : Node} (reaches : node.Reaches other) :
    sizeOf other ≤ sizeOf node := by
  induction reaches with
  | root => exact Nat.le_refl _
  | part member _ ih => exact Nat.le_of_lt (Nat.lt_of_le_of_lt ih (sizeOf_lt_of_mem_parts member))

theorem not_reaches_of_part {node part : Node} (member : part ∈ node.parts) :
    ¬ part.Reaches node :=
  fun reaches => absurd reaches.sizeOf_le (Nat.not_le_of_lt (sizeOf_lt_of_mem_parts member))

end Node

namespace Interpreter

variable {α : Type} {interpreter : Interpreter α} {root : Node} {call : HandlerCall α}

open Classical in
/-- The interpreter with another answer to one call. -/
noncomputable def answering (interpreter : Interpreter α) (call : HandlerCall α)
    (answer : Except String α) : Interpreter α :=
  { interpreter with
    handlers := interpreter.handlers.modify call.tag fun handler node arguments =>
      if node = call.node ∧ arguments = call.arguments then answer else handler node arguments }

/-- Whether the call is made on the way to the reading of the root: the answer to it matters. -/
def Makes (interpreter : Interpreter α) (root : Node) (call : HandlerCall α) : Prop :=
  ∃ answer, (interpreter.answering call answer).read root ≠ interpreter.read root

/-- Whether the call is the one that reading its reduction leads to: there is a handler to be
called, and these are the arguments that it is handed. -/
structure Due (interpreter : Interpreter α) (call : HandlerCall α) : Prop where
  tagged : call.node.tag? = some call.tag
  notSealed : (interpreter.attributes call.tag).sealed = false
  notBracket : (interpreter.attributes call.tag).bracket = false
  registered : ∃ handler, interpreter.handlers[call.tag]? = some handler
  handed : Attempt.Gives (interpreter.handed call.tag call.node) call.arguments

section Answering

variable {answer : Except String α}

theorem answers_of_not_due {tag : String} {node : Node} (tagged : node.tag? = some tag)
    (notSealed : (interpreter.attributes tag).sealed = false)
    (notBracket : (interpreter.attributes tag).bracket = false)
    (elsewhere : node = call.node → ¬ interpreter.Due call) :
    Option.Rel
      (fun handler second => ∀ arguments : List (Argument α),
        Attempt.Gives (interpreter.handed tag node) arguments →
          handler node arguments = second node arguments)
      interpreter.handlers[tag]? (interpreter.answering call answer).handlers[tag]? := by
  unfold answering
  rw [Std.TreeMap.getElem?_modify]
  cases registered : interpreter.handlers[tag]? with
  | none =>
    split
    · next same =>
      rw [Std.LawfulEqOrd.eq_of_compare same, registered]
      exact .none
    · exact .none
  | some handler =>
    split
    · next same =>
      obtain rfl := Std.LawfulEqOrd.eq_of_compare same
      rw [registered]
      refine .some fun arguments given => (if_neg ?_).symm
      rintro ⟨rfl, rfl⟩
      exact elsewhere rfl ⟨tagged, notSealed, notBracket, ⟨handler, registered⟩, given⟩
    · exact .some fun _ _ => rfl

/-- The reductions of one node, if its parts are read alike. -/
theorem sameParts_self {other : Interpreter α} {tag : String} {node : Node}
    (tagged : node.tag? = some tag) (attributes : interpreter.attributes tag = other.attributes tag)
    (parts : ∀ part ∈ node.parts, Alike interpreter other part part) :
    SameParts interpreter other tag node node where
  tagged := tagged
  taggedToo := tagged
  symbol := rfl
  span := rfl
  attributes := attributes
  children := by
    cases node with
    | leaf | ambiguity => cases tagged
    | branch | list => exact List.forall₂_same.2 parts
  elements := by
    cases node with
    | leaf | ambiguity => cases tagged
    | branch => exact .none
    | list => exact .some (List.forall₂_same.2 fun part member =>
        parts part (Node.mem_of_mem_everyAfter member))

/-- Where a call is not due, it does not matter what it is answered. -/
theorem alike_answering {node : Node}
    (elsewhere : node.Reaches call.node → ¬ interpreter.Due call) :
    Alike interpreter (interpreter.answering call answer) node node := by
  induction node using Node.induction_parts with
  | step node ih =>
    have parts : ∀ part ∈ node.parts,
        Alike interpreter (interpreter.answering call answer) part part :=
      fun part member => ih part member fun reaches => elsewhere (.part member reaches)
    have reduction {tag : String} (tagged : node.tag? = some tag) :
        Alike interpreter (interpreter.answering call answer) node node := by
      refine Corresponding.alike ⟨sameParts_self tagged rfl parts, fun notSealed notBracket => ?_⟩
      exact answers_of_not_due tagged notSealed notBracket fun here =>
        elsewhere (here ▸ .root node)
    cases node with
    | leaf => exact ⟨rfl, rfl, rfl, rfl⟩
    | branch | list => exact reduction rfl
    | ambiguity id symbol span alternatives =>
      have kept := List.forall₂_same.2 fun part
          (member : part ∈ alternatives.filter interpreter.keeps) =>
        parts part (List.mem_of_mem_filter member)
      refine ⟨rfl, rfl, ?_, ?_⟩
      · rw [read, read, readKept_eq, readKept_eq,
          Attempt.mapM_congr (kept.imp fun _ _ alike => alike.read)]
        rfl
      · rw [readLists, readLists, readKeptLists_eq, readKeptLists_eq,
          Attempt.mapM_congr (kept.imp fun _ _ alike => alike.readLists)]
        rfl

/-- A call that is made is due, and of a reduction in the forest. -/
theorem Makes.due (makes : interpreter.Makes root call) :
    root.Reaches call.node ∧ interpreter.Due call := by
  obtain ⟨answer, differs⟩ := makes
  by_contra elsewhere
  exact differs (alike_answering fun reaches due => elsewhere ⟨reaches, due⟩).read.symm

/-- The reduction of a call that is due is read as what the call is answered. -/
theorem Due.read_answering (due : interpreter.Due call) (answer : Except String α) :
    ((interpreter.answering call answer).read call.node).run.value =
      match answer with
      | .ok a => .ok (.value a)
      | .error cause => .error (.handler call.tag call.node.span cause) := by
  obtain ⟨handler, registered⟩ := due.registered
  have same : SameParts interpreter (interpreter.answering call answer) call.tag call.node
      call.node := by
    refine sameParts_self due.tagged rfl fun part member => alike_answering fun reaches => ?_
    exact absurd reaches (Node.not_reaches_of_part member)
  obtain ⟨second, registeredToo, answered⟩ : ∃ second,
      (interpreter.answering call answer).handlers[call.tag]? = some second ∧
        second call.node call.arguments = answer := by
    unfold answering
    rw [Std.TreeMap.getElem?_modify, if_pos Std.ReflCmp.compare_self, registered]
    exact ⟨_, rfl, if_pos ⟨rfl, rfl⟩⟩
  rw [read_of_tagged _ due.tagged, readTagged, ← same.attributes, due.notSealed, due.notBracket,
    registeredToo, ← same.handed]
  dsimp only
  refine (Attempt.value_bind due.handed).trans ?_
  unfold called
  rw [answered]
  cases answer <;> rfl

end Answering

/-- A reduction that has a reading, and is no bracket, leads to a call. -/
theorem exists_due {tag : String} {node : Node} (tagged : node.tag? = some tag)
    (notBracket : (interpreter.attributes tag).bracket = false) {reading : Reading α}
    (reads : interpreter.ReadsAs node reading) :
    ∃ arguments, interpreter.Due ⟨tag, node, arguments⟩ := by
  obtain ⟨notSealed, read⟩ := (readsAs_of_tagged tagged).1 reads
  rw [notBracket, if_neg Bool.false_ne_true] at read
  obtain ⟨handler, arguments, -, registered, handed, -, -⟩ := read
  exact ⟨arguments, ⟨tagged, notSealed, notBracket, ⟨handler, registered⟩, handed⟩⟩

/-! ## All calls are seen -/

/-- What is looked at does not depend on the handlers. -/
theorem LooksAt.answering {answer : Except String α} {here next : Taking × Node}
    (looks : interpreter.LooksAt here next) :
    (interpreter.answering call answer).LooksAt here next := by
  cases looks with
  | derivation ambiguous counts => exact .derivation ambiguous counts
  | expanded listParts member => exact .expanded listParts member
  | itself plain noList => exact .itself plain noList
  | bracketed tagged bracket inner => exact .bracketed tagged bracket inner
  | element tagged notBracket notLexical listParts member =>
    exact .element tagged notBracket notLexical listParts member
  | child tagged notBracket notLexical noList inner =>
    exact .child tagged notBracket notLexical noList inner

/-- Of a forest that has a reading, all calls are made that are due where reading comes to. -/
theorem Due.makes_of_visits (due : interpreter.Due call) (readable : interpreter.Readable root)
    (visits : interpreter.Visits (.read, root) (.read, call.node)) :
    interpreter.Makes root call := by
  refine ⟨.error "", fun same => ?_⟩
  have failing : ¬ (interpreter.answering call (.error "")).Readable call.node := by
    rintro ⟨reading, reads⟩
    have given := (due.read_answering (.error "")).symm.trans reads
    cases given
  have readableToo : (interpreter.answering call (.error "")).Readable root := by
    unfold Readable
    rw [same]
    exact readable
  have visitsToo : (interpreter.answering call (.error "")).Visits (.read, root)
      (.read, call.node) := Relation.ReflTransGen.mono (fun _ _ looks => looks.answering) _ _ visits
  have provides : (interpreter.answering call (.error "")).Provides (.read, root) := readableToo
  exact failing (provides.of_visits visitsToo)

/-! ## One handler for all reductions -/

/-- The interpreter that leaves every reduction of a grammar to the same handler. -/
def ofHandler (g : Grammar) (handler : Handler α) : Interpreter α where
  grammar := g
  handlers := (g.prodIds.filterMap g.prod?).foldl
    (fun handlers entry => handlers.insert entry.production.label handler) ∅

theorem getElem?_handlers_ofHandler (g : Grammar) (handler : Handler α) (tag : String) :
    (ofHandler g handler).handlers[tag]? =
      if ∃ entry ∈ g.prodIds.filterMap g.prod?, entry.production.label = tag then some handler
      else none := by
  have general : ∀ (entries : List WiredProduction) (handlers : Std.TreeMap String (Handler α)),
      (entries.foldl (fun handlers entry => handlers.insert entry.production.label handler)
        handlers)[tag]? =
          if ∃ entry ∈ entries, entry.production.label = tag then some handler
          else handlers[tag]? := by
    intro entries
    induction entries with
    | nil => simp
    | cons entry rest ih =>
      intro handlers
      rw [List.foldl_cons, ih, Std.TreeMap.getElem?_insert]
      simp only [List.exists_mem_cons_iff, Std.compare_eq_iff_eq]
      split <;> split <;> simp_all
  exact (general _ ∅).trans (by simp)

theorem eq_of_registered {g : Grammar} {handler registered : Handler α} {tag : String}
    (found : (ofHandler g handler).handlers[tag]? = some registered) : registered = handler := by
  rw [getElem?_handlers_ofHandler] at found
  split at found
  · exact (Option.some.inj found).symm
  · cases found

theorem registered_of_prod {g : Grammar} {handler : Handler α} {p : ProdId}
    {entry : WiredProduction} (found : g.prod? p = some entry) :
    (ofHandler g handler).handlers[entry.production.label]? = some handler := by
  have inGrammar : p ∈ g.prodIds := List.mem_range.2 (Array.getElem?_eq_some_iff.1 found).1
  rw [getElem?_handlers_ofHandler]
  exact if_pos ⟨entry, List.mem_filterMap.2 ⟨p, inGrammar, found⟩, rfl⟩

/-- Reads every reduction of a grammar as its text. -/
def textReader (g : Grammar) : Interpreter String :=
  ofHandler g fun node _ => .ok node.yieldText

end Interpreter

end Scannerless
