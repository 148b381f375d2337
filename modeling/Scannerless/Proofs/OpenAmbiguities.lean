import Scannerless.Proofs.DistinctTrees
import Scannerless.Proofs.HandlerArguments

/-!
# Ambiguities that are left open

What a reading leaves open is what the forest leaves open: several readings stand for an ambiguity
with as many alternatives that are kept (`Interpreter.LeavesOpen`). That is so of whatever a node of
the forest is read as, and of whatever a handler is called with. Several lists among the arguments
of a call stand for the child in their place. An interpreter that refuses ambiguities leaves nothing
open.

It takes forests in which each ambiguity has alternatives of its own that are no ambiguities
(`Node.Forked`), as all forests are that the constructors make.
-/

namespace Scannerless

/-! ## The forests that there are -/

namespace Node

variable {nodes : List Node} {node root : Node}

theorem forked_of_plain (plain : node.isAmbiguous = false) : node.Forked := by
  intro ambiguous
  rw [plain] at ambiguous
  cases ambiguous

/-- A node among such nodes brings no ambiguity to an ambiguity. -/
theorem plain_of_mem_distinct (forked : ∀ other ∈ nodes, other.Forked)
    (member : node ∈ distinct nodes) : node.isAmbiguous = false := by
  obtain ⟨other, inNodes, isPart⟩ := List.mem_flatMap.1 (mem_sorted member)
  cases other with
  | ambiguity id symbol span alternatives =>
    obtain ⟨several, plain⟩ := forked _ inNodes rfl
    cases alternatives with
    | nil => exact absurd several (Nat.not_succ_le_zero 1)
    | cons => exact plain node isPart
  | _ => exact List.mem_singleton.1 isPart ▸ rfl

theorem forked_of_merge? {id : Nat} {symbol : Symbol} {span : Span}
    (forked : ∀ other ∈ nodes, other.Forked) (merged : merge? id symbol span nodes = some node) :
    node.Forked := by
  rcases merge?_eq_some_iff.1 merged with single | ⟨several, rfl⟩
  · exact forked_of_plain (plain_of_mem_distinct forked (single ▸ List.mem_singleton_self _))
  · exact fun _ => ⟨several, fun part isPart => plain_of_mem_distinct forked isPart⟩

theorem Constructed.forked {next : Nat} {made : List Node} (constructed : Constructed next made) :
    ∀ node ∈ made, node.Forked := by
  induction constructed with
  | nil => exact fun _ member => absurd member List.not_mem_nil
  | leaf _ _ _ _ ih => exact List.forall_mem_cons.2 ⟨forked_of_plain rfl, ih⟩
  | branch _ _ _ _ _ ih => exact List.forall_mem_cons.2 ⟨forked_of_plain rfl, ih⟩
  | list _ _ turns ih =>
    obtain ⟨-, rfl⟩ := list?_eq_some_iff.1 turns
    exact List.forall_mem_cons.2 ⟨forked_of_plain rfl, ih⟩
  | ambiguity _ known merged ih =>
    have forked := forked_of_merge? (fun other member => ih other (known other member)) merged
    exact List.forall_mem_cons.2 ⟨forked, ih⟩

/-- The forests that there are: those of parsed texts, and whatever else the constructors make. -/
inductive IsForest (root : Node) : Prop
  | made {next : Nat} {made : List Node} (constructed : Constructed next made)
    (member : root ∈ made) : IsForest root
  | parsed {start : Symbol} {script : List Declaration} {g : Grammar}
    (built : (Grammar.ofScript start script).value = .ok g) {policy : OnAmbiguity}
    {symbol : Symbol} {text : String}
    (parsed : (g.parseSymbol policy symbol text).value = .ok root) : IsForest root

theorem IsForest.forked (forest : root.IsForest) (reaches : root.Reaches node) : node.Forked := by
  cases forest with
  | made constructed member =>
    exact constructed.forked node (constructed.apart.mem_of_reaches reaches member)
  | parsed built parsed =>
    exact (((Grammar.Wired.of_script built).faithful_of_parsed parsed).sound reaches).forked

end Node

/-! ## Readings within readings -/

namespace Reading

variable {α : Type}

/-- Whether a reading is within a reading: the reading itself, or within one that it leaves open. -/
inductive Contains : Reading α → Reading α → Prop
  | self (reading : Reading α) : Contains reading reading
  | within {readings : List (Reading α)} {reading other : Reading α} (member : reading ∈ readings)
    (contains : Contains reading other) : Contains (.several readings) other

end Reading

namespace Argument

/-- The readings that an argument consists of. -/
def readings {α : Type} : Argument α → List (Reading α)
  | single reading => [reading]
  | elements readings => readings
  | severalLists lists => lists.flatten

end Argument

namespace Interpreter

variable {α : Type} {interpreter : Interpreter α} {root node : Node}

/-- Whether the results are what an ambiguity gives if it is left open: something for each
alternative that is kept, in order, of which there are several. -/
structure LeavesOpen {β : Type} (interpreter : Interpreter α) (ambiguity : Node)
    (gives : Node → β → Prop) (results : List β) : Prop where
  tolerated : interpreter.refusesAmbiguity = false
  several : 2 ≤ results.length
  ambiguous : ambiguity.isAmbiguous = true
  each : List.Forall₂ gives (interpreter.kept ambiguity) results

/-- Whether all that the reading leaves open is left open by the forest. -/
def BearsOut (interpreter : Interpreter α) (root : Node) (reading : Reading α) : Prop :=
  ∀ readings, reading.Contains (.several readings) → ∃ ambiguity, root.Reaches ambiguity ∧
    interpreter.LeavesOpen ambiguity interpreter.ReadsAs readings

/-- Whether all that is open in the argument that a child gives is left open by the forest, several
lists by the child itself. -/
structure BearsOutArgument (interpreter : Interpreter α) (root child : Node)
    (argument : Argument α) : Prop where
  readings : ∀ reading ∈ argument.readings, interpreter.BearsOut root reading
  lists : ∀ lists, argument = .severalLists lists →
    interpreter.LeavesOpen child interpreter.ExpandsTo lists

/-- Whether all that is open in the arguments of a call is left open by the forest, several lists by
the child in their place. -/
structure BearsOutCall (interpreter : Interpreter α) (root : Node) (call : HandlerCall α) :
    Prop where
  readings : ∀ argument ∈ call.arguments, ∀ reading ∈ argument.readings,
    interpreter.BearsOut root reading
  lists : ∀ (index : Nat) (lists : List (List (Reading α))),
    call.arguments[index]? = some (.severalLists lists) →
      ∃ child, (Node.inner call.node.children)[index]? = some child ∧ root.Reaches child ∧
        interpreter.LeavesOpen child interpreter.ExpandsTo lists

theorem LeavesOpen.not_refuses {β : Type} {gives : Node → β → Prop} {results : List β}
    (leavesOpen : interpreter.LeavesOpen node gives results) :
    ¬ interpreter.refusesAmbiguity = true := by
  rw [leavesOpen.tolerated]
  exact Bool.false_ne_true

theorem bearsOut_value (a : α) : interpreter.BearsOut root (.value a) := by
  rintro readings ⟨⟩

/-- A forest in which nothing may be left open bears out values only. -/
theorem BearsOut.exists_value (refuses : interpreter.refusesAmbiguity = true) {reading : Reading α}
    (bornOut : interpreter.BearsOut root reading) : ∃ a, reading = .value a := by
  cases reading with
  | value a => exact ⟨a, rfl⟩
  | several readings =>
    obtain ⟨_, -, leavesOpen⟩ := bornOut readings (.self _)
    exact absurd refuses leavesOpen.not_refuses

/-- The readings of the derivations of an ambiguity, if all that they leave open is. -/
theorem bearsOut_ofAlternatives (reaches : root.Reaches node) (ambiguous : node.isAmbiguous = true)
    (admits : interpreter.Admits (interpreter.kept node).length) {readings : List (Reading α)}
    (each : List.Forall₂ interpreter.ReadsAs (interpreter.kept node) readings)
    (bornOut : ∀ reading ∈ readings, interpreter.BearsOut root reading) :
    interpreter.BearsOut root (.ofAlternatives readings) := by
  rw [each.length_eq] at admits
  match readings, admits with
  | [], ⟨some_, _⟩ => exact absurd rfl some_
  | [reading], _ => exact bornOut reading List.mem_cons_self
  | first :: second :: rest, ⟨_, tolerated⟩ =>
    have several : 2 ≤ (first :: second :: rest).length := Nat.le_add_left 2 rest.length
    intro open_ contains
    cases contains with
    | self => exact ⟨node, reaches, tolerated several, several, ambiguous, each⟩
    | within member contains => exact bornOut _ member open_ contains

section Forked

variable (forked : ∀ {node : Node}, root.Reaches node → node.Forked)

/-- Whatever a node of a forest is read as, the forest bears it out. -/
theorem bearsOut_of_readsAs (reaches : root.Reaches node) {reading : Reading α}
    (reads : interpreter.ReadsAs node reading) : interpreter.BearsOut root reading := by
  induction node using Node.induction_parts generalizing reading with
  | step node ih =>
    have below {part : Node} (member : part ∈ node.parts) {reading : Reading α}
        (reads : interpreter.ReadsAs part reading) : interpreter.BearsOut root reading :=
      ih part member (reaches.trans (.part member (.root part))) reads
    have reduction {tag : String} (tagged : node.tag? = some tag) :
        interpreter.BearsOut root reading := by
      obtain ⟨-, read⟩ := (readsAs_of_tagged tagged).1 reads
      split at read
      · obtain ⟨child, inner_eq, reads⟩ := read
        have inner : child ∈ Node.inner node.children := inner_eq ▸ List.mem_singleton_self child
        exact below (Node.mem_parts_of_mem_children (Node.mem_inner_iff.1 inner).1) reads
      · obtain ⟨_, _, a, _, _, _, rfl⟩ := read
        exact bearsOut_value a
    cases ambiguous : node.isAmbiguous with
    | true =>
      obtain ⟨admits, readings, each, rfl⟩ := (readsAs_of_ambiguous ambiguous).1 reads
      refine bearsOut_ofAlternatives reaches ambiguous admits each fun reading member => ?_
      obtain ⟨derivation, counts, reads⟩ := exists_of_mem_right each member
      exact below (mem_parts_of_kept ambiguous counts) reads
    | false =>
      cases node with
      | leaf => exact absurd reads (not_readsAs_leaf rfl)
      | branch | list => exact reduction rfl
      | ambiguity => cases ambiguous

theorem bearsOut_of_elements (reaches : root.Reaches node) {parts : Node.ListParts}
    (listParts : node.listParts? = some parts) {readings : List (Reading α)}
    (each : List.Forall₂ interpreter.ReadsAs parts.elements readings) :
    ∀ reading ∈ readings, interpreter.BearsOut root reading := by
  intro reading member
  obtain ⟨element, isElement, reads⟩ := exists_of_mem_right each member
  have isPart := Node.mem_parts_of_mem_elements listParts isElement
  exact bearsOut_of_readsAs (reaches.trans (.part isPart (.root element))) reads

theorem bearsOut_of_expandsTo (reaches : root.Reaches node) {readings : List (Reading α)}
    (expands : interpreter.ExpandsTo node readings) :
    ∀ reading ∈ readings, interpreter.BearsOut root reading := by
  rw [expandsTo_iff] at expands
  split at expands
  · next listParts => exact bearsOut_of_elements reaches listParts expands
  · obtain ⟨reading, reads, rfl⟩ := expands
    exact List.forall_mem_singleton.2 (bearsOut_of_readsAs reaches reads)

include forked

/-- Whatever argument a child gives, the forest bears it out. -/
theorem bearsOutArgument_of_gives (reaches : root.Reaches node) {argument : Argument α}
    (given : Attempt.Gives (interpreter.argument node) argument) :
    interpreter.BearsOutArgument root node argument := by
  have reaches_kept {derivation : Node} (counts : derivation ∈ interpreter.kept node) :
      root.Reaches derivation := by
    cases ambiguous : node.isAmbiguous with
    | true => exact reaches.trans (.part (mem_parts_of_kept ambiguous counts) (.root derivation))
    | false =>
      rw [kept_of_plain ambiguous, List.mem_singleton] at counts
      exact counts ▸ reaches
  have argumentFor := argumentFor_of_gives (forked reaches) given
  cases argumentFor with
  | single _ reads =>
    have bornOut := bearsOut_of_readsAs reaches reads
    exact ⟨List.forall_mem_singleton.2 bornOut, fun _ => nofun⟩
  | elements _ sole expands =>
    have counts := sole ▸ List.mem_singleton_self _
    exact ⟨bearsOut_of_expandsTo (reaches_kept counts) expands, fun _ => nofun⟩
  | @severalLists lists _ several tolerated each =>
    constructor
    · intro reading member
      obtain ⟨readings, isList, inList⟩ := List.mem_flatten.1 member
      obtain ⟨derivation, counts, expands⟩ := exists_of_mem_right each isList
      exact bearsOut_of_expandsTo (reaches_kept counts) expands reading inList
    · rintro _ ⟨⟩
      have ambiguous : node.isAmbiguous = true := by
        by_contra plain
        rw [kept_of_plain (Bool.eq_false_iff.2 plain)] at each
        rw [← each.length_eq] at several
        exact absurd several (Nat.lt_irrefl 1)
      exact ⟨tolerated, several, ambiguous, each⟩

/-- Whatever a handler is called with, the forest bears it out. -/
theorem Makes.bearsOut {call : HandlerCall α} (makes : interpreter.Makes root call) :
    interpreter.BearsOutCall root call := by
  obtain ⟨reaches, due⟩ := makes.due
  have given := gives_handed_iff.1 due.handed
  split at given
  · constructor
    · rw [given]
      exact fun _ => nofun
    · rw [given]
      exact fun _ _ => nofun
  split at given
  · next listParts =>
    obtain ⟨readings, each, eq⟩ := given
    constructor
    · intro argument member
      rw [eq, List.mem_singleton] at member
      subst member
      exact bearsOut_of_elements reaches listParts each
    · intro index lists at_
      rw [eq] at at_
      cases List.mem_singleton.1 (List.mem_of_getElem? at_)
  · have reaches_child {child : Node} (inner : child ∈ Node.inner call.node.children) :
        root.Reaches child :=
      reaches.trans
        (.part (Node.mem_parts_of_mem_children (Node.mem_inner_iff.1 inner).1) (.root child))
    constructor
    · intro argument member
      obtain ⟨child, inner, givenBy⟩ := exists_of_mem_right given member
      exact (bearsOutArgument_of_gives forked (reaches_child inner) givenBy).readings
    · intro index lists at_
      obtain ⟨child, childAt, givenBy⟩ := exists_of_getElem?_right given at_
      have reachesChild := reaches_child (List.mem_of_getElem? childAt)
      have bornOut := bearsOutArgument_of_gives forked reachesChild givenBy
      exact ⟨child, childAt, reachesChild, bornOut.lists lists rfl⟩

end Forked

/-- An interpreter that refuses ambiguities reads a forest as a value if it reads it at all, and
calls no handler with anything open. Otherwise several readings are those of the alternatives that
are kept of an ambiguity, wherever they are met, several lists are those of the child that gives
them, and an ambiguity of which several alternatives are kept is read as nothing else. -/
theorem openness_of_forest (interpreter : Interpreter α) (forest : root.IsForest) :
    (interpreter.refusesAmbiguity = true →
      (∀ reading, interpreter.ReadsAs root reading → ∃ a, reading = .value a) ∧
      ∀ call, interpreter.Makes root call → ∀ argument ∈ call.arguments,
        (∀ lists, argument ≠ .severalLists lists) ∧
        ∀ reading ∈ argument.readings, ∃ a, reading = .value a) ∧
    (∀ node, root.Reaches node →
      (∀ reading, interpreter.ReadsAs node reading → interpreter.BearsOut root reading) ∧
      (∀ argument, Attempt.Gives (interpreter.argument node) argument →
        interpreter.BearsOutArgument root node argument) ∧
      (node.isAmbiguous = true → 2 ≤ (interpreter.kept node).length →
        ∀ reading, interpreter.ReadsAs node reading → ∃ readings, reading = .several readings ∧
          List.Forall₂ interpreter.ReadsAs (interpreter.kept node) readings)) ∧
    ∀ call, interpreter.Makes root call → interpreter.BearsOutCall root call := by
  have called (call : HandlerCall α) (makes : interpreter.Makes root call) :=
    makes.bearsOut forest.forked
  refine ⟨fun refuses => ⟨fun reading reads => ?_, fun call makes argument member => ?_⟩,
    fun node reaches => ⟨fun reading => bearsOut_of_readsAs reaches,
      fun argument => bearsOutArgument_of_gives forest.forked reaches,
      fun ambiguous several reading reads => ?_⟩, called⟩
  · exact (bearsOut_of_readsAs (.root root) reads).exists_value refuses
  · refine ⟨?_, fun reading isReading =>
      ((called call makes).readings argument member reading isReading).exists_value refuses⟩
    rintro lists rfl
    obtain ⟨index, at_⟩ := List.getElem?_of_mem member
    obtain ⟨_, -, -, leavesOpen⟩ := (called call makes).lists index lists at_
    exact absurd refuses leavesOpen.not_refuses
  · obtain ⟨-, readings, each, rfl⟩ := (readsAs_of_ambiguous ambiguous).1 reads
    rw [each.length_eq] at several
    match readings, several with
    | first :: second :: rest, _ => exact ⟨_, rfl, each⟩

/-- In the text `(aab)` the list of two `a` has two derivations. What the handler of `S` is called
with has the elements of both, and its child leaves them open because both are kept. The text `(ab)`
is read as a value also if ambiguities are refused. -/
theorem openness_of_forest_enclosed : ∃ (g : Grammar) (root sole : Node)
    (arguments : List (Argument String)) (lists : List (List (Reading String))) (child : Node),
    let reader := textReader g
    let refusing := { textReader g with refusesAmbiguity := true }
    root.IsForest ∧ reader.Makes root ⟨"S", root, arguments⟩ ∧ .severalLists lists ∈ arguments ∧
    child ∈ Node.inner root.children ∧ reader.LeavesOpen child reader.ExpandsTo lists ∧
    sole.IsForest ∧ ∃ a, refusing.ReadsAs sole (.value a) := by
  obtain ⟨g, built, tested⟩ := Grammar.exists_of_script (.nonTerminal "S") Grammar.enclosed
    (fun g =>
      (g.parseSymbol .keep (.nonTerminal "S") "(aab)").value.toOption.any (fun root : Node =>
        decide (root.tag? = some "S") && !((textReader g).attributes "S").bracket &&
        ((textReader g).read root).run.value.toOption.any (fun _ => true) &&
        ((textReader g).handed "S" root).run.value.toOption.any fun arguments =>
          arguments.any fun
            | .severalLists _ => true
            | _ => false) &&
      (g.parseSymbol .keep (.nonTerminal "S") "(ab)").value.toOption.any fun root : Node =>
        ({ textReader g with refusesAmbiguity := true }.read root).run.value.toOption.any
          fun _ => true)
    (by decide +kernel)
  rw [Bool.and_eq_true] at tested
  obtain ⟨root, parsed, passes⟩ := Grammar.exists_ok_of_any tested.1
  obtain ⟨sole, parsedSole, isReadSole⟩ := Grammar.exists_ok_of_any tested.2
  simp only [Bool.and_eq_true, decide_eq_true_eq, Bool.not_eq_true'] at passes
  obtain ⟨⟨⟨tagged, notBracket⟩, isRead⟩, isHanded⟩ := passes
  obtain ⟨reading, reads, -⟩ := Grammar.exists_ok_of_any isRead
  obtain ⟨reading', readsSole, -⟩ := Grammar.exists_ok_of_any isReadSole
  obtain ⟨handed, given, hasLists⟩ := Grammar.exists_ok_of_any isHanded
  obtain ⟨arguments, due⟩ := exists_due tagged notBracket reads
  obtain rfl : arguments = handed := due.handed.unique given
  obtain ⟨argument, member, isLists⟩ := List.any_eq_true.1 hasLists
  have forest : root.IsForest := .parsed built parsed
  have forestSole : sole.IsForest := .parsed built parsedSole
  have makes := due.makes_of_visits ⟨reading, reads⟩ .refl
  split at isLists
  · next lists =>
    obtain ⟨index, at_⟩ := List.getElem?_of_mem member
    obtain ⟨child, childAt, -, leavesOpen⟩ :=
      ((openness_of_forest _ forest).2.2 _ makes).lists index lists at_
    obtain ⟨a, rfl⟩ := ((openness_of_forest _ forestSole).1 rfl).1 reading' readsSole
    exact ⟨g, root, sole, arguments, lists, child, forest, makes, member,
      List.mem_of_getElem? childAt, leavesOpen, forestSole, a, readsSole⟩
  · cases isLists

end Interpreter

end Scannerless
