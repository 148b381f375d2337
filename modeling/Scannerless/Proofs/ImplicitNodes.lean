import Scannerless.Proofs.Acceptance

/-!
# Implicit nodes

A node that is made for a symbol takes an id above all that have been seen, and so does every part
of a list. As long as the ids last, nothing can go wrong with this: `GrammarDraft.Supplied` says
what the draft looks like after nodes have been made for symbols, and the mutual induction over
symbols that ends in `GrammarDraft.supplied_nodesFor` shows that making them gets it there.

It rests on one invariant of all scripts, however their own ids are chosen: the ids of all nodes
stay below the next one to be given (`GrammarDraft.Bounded`).
-/

namespace Scannerless

/-! ## Counting nodes -/

namespace Symbol

mutual

/-- The number of nodes that a symbol is given: one of its own, and those of the parts of a list. -/
def nodeCount : Symbol → Nat
  | list element separators _ => element.nodeCount + nodeCountAll separators + 1
  | literal _ => 1
  | charClass _ => 1
  | nonTerminal _ => 1

/-- The number of nodes that symbols are given. -/
def nodeCountAll : List Symbol → Nat
  | [] => 0
  | symbol :: rest => symbol.nodeCount + nodeCountAll rest

end

end Symbol

/-- The id that a call gives as not used before. -/
def ScriptCall.given? (call : ScriptCall) : Option NodeId :=
  match call.declaration, call.objection? with
  | .fresh, none => some call.draft.freshId.1
  | _, _ => none

namespace GrammarDraft

/-- An id that has been seen by the end of a script: a node stands under it, or a call of the script
has given it as not used before. -/
def Sees (draft : GrammarDraft) (script : List Declaration) (id : NodeId) : Prop :=
  id ∈ (draft.run script).nodes ∨ ∃ call ∈ draft.calls script, call.given? = some id

/-- All nodes stand under ids below the next one. -/
def Bounded (draft : GrammarDraft) : Prop :=
  ∀ id ∈ draft.nodes, id < draft.nextId

theorem Bounded.start (start : Symbol) : Bounded { start } := by
  intro id member
  exact absurd member Std.TreeMap.not_mem_emptyc

/-! ## The next id -/

variable {draft : GrammarDraft}

theorem nextId_addNode (id : NodeId) (symbol : Symbol) (parts : List NodeId) :
    (draft.addNode id symbol parts).nextId = max draft.nextId (id + 1) := by
  unfold addNode
  dsimp only
  split
  · rfl
  · rfl

/-- The next id never falls, and it stays above the ids of all nodes. -/
structure Raises (draft after : GrammarDraft) : Prop where
  nextId_le : draft.nextId ≤ after.nextId
  bounded : draft.Bounded → after.Bounded

theorem Raises.refl : draft.Raises draft :=
  ⟨Nat.le_refl _, id⟩

theorem Raises.trans {between after : GrammarDraft} (first : draft.Raises between)
    (second : between.Raises after) : draft.Raises after :=
  ⟨Nat.le_trans first.nextId_le second.nextId_le,
    fun bounded => second.bounded (first.bounded bounded)⟩

theorem raises_addNode (id : NodeId) (symbol : Symbol) (parts : List NodeId) :
    draft.Raises (draft.addNode id symbol parts) := by
  constructor
  · rw [nextId_addNode]
    exact Nat.le_max_left _ _
  · intro bounded other member
    rw [nextId_addNode]
    rcases mem_addNode.1 member with old | rfl
    · exact Nat.lt_of_lt_of_le (bounded other old) (Nat.le_max_left _ _)
    · exact Nat.le_max_right _ _

theorem raises_addList (id element : NodeId) (separators : List NodeId)
    (repetition : Repetition) :
    draft.Raises (draft.addList id element separators repetition) := by
  unfold addList
  split
  · exact ⟨Nat.le_refl _, fun bounded => bounded⟩
  · exact .refl
  · exact raises_addNode _ _ _

theorem raises_freshId : draft.Raises draft.freshId.2 := by
  unfold freshId
  split
  · exact ⟨Nat.le_succ _, fun bounded id member => Nat.lt_succ_of_lt (bounded id member)⟩
  · exact ⟨Nat.le_refl _, fun bounded => bounded⟩

theorem raises_wire (production : Production) (nodes : List NodeId) :
    draft.Raises (draft.wire production nodes) := by
  unfold wire
  split
  · exact ⟨Nat.le_refl _, fun bounded => bounded⟩
  · exact ⟨Nat.le_refl _, fun bounded => bounded⟩

theorem raises_declare {declaration : Declaration}
    (elementary : declaration.isElementary = true) :
    draft.Raises (draft.declare declaration).2 := by
  cases declaration with
  | literal id text => exact raises_addNode _ _ _
  | charClass id ranges => exact raises_addNode _ _ _
  | nonTerminal id name => exact raises_addNode _ _ _
  | separatedList id element separators repetition => exact raises_addList _ _ _ _
  | fresh => exact raises_freshId
  | wired production nodes => exact raises_wire _ _
  | node symbol => cases elementary
  | production production => cases elementary
  | rule head bodies => cases elementary

theorem raises_steps {steps : List Declaration}
    (elementary : ∀ step ∈ steps, step.isElementary = true) :
    draft.Raises (draft.run steps) := by
  induction steps generalizing draft with
  | nil => exact .refl
  | cons step rest ih =>
    have first := draft.raises_declare (elementary step List.mem_cons_self)
    exact first.trans (ih fun other member => elementary other (List.mem_cons_of_mem step member))

/-- Whatever ids a script chooses for its nodes, they stay below the next id. -/
theorem raises_run (script : List Declaration) : draft.Raises (draft.run script) := by
  rw [← run_spelledOut]
  exact raises_steps (draft.elementary_spelledOut script)

theorem bounded_run (start : Symbol) (script : List Declaration) :
    (GrammarDraft.run { start } script).Bounded :=
  (raises_run script).bounded (.start start)

end GrammarDraft

theorem ScriptCall.lt_of_given {call : ScriptCall} {id : NodeId}
    (given : call.given? = some id) : id < (call.draft.declare call.declaration).2.nextId := by
  unfold ScriptCall.given? at given
  split at given
  · next fresh accepted =>
    have room := (ScriptCall.objection_eq_none_iff.1 accepted).2.2.2 fresh
    obtain rfl := Option.some.inj given
    rw [fresh]
    unfold GrammarDraft.declare GrammarDraft.freshId
    rw [if_pos room]
    exact Nat.lt_succ_self _
  · cases given

namespace GrammarDraft

variable {draft : GrammarDraft}

theorem lt_of_given_history {steps : List Declaration}
    (elementary : ∀ step ∈ steps, step.isElementary = true) {call : ScriptCall}
    (member : call ∈ draft.history steps) {id : NodeId} (given : call.given? = some id) :
    id < (draft.run steps).nextId := by
  induction steps generalizing draft with
  | nil => cases member
  | cons step rest ih =>
    have inRest : ∀ other ∈ rest, other.isElementary = true := fun other member =>
      elementary other (List.mem_cons_of_mem step member)
    rcases List.mem_cons.1 member with rfl | later
    · exact Nat.lt_of_lt_of_le (ScriptCall.lt_of_given given) (raises_steps inRest).nextId_le
    · exact ih inRest later

/-- The next id is above all ids seen. -/
theorem lt_of_sees {start : Symbol} {script : List Declaration} {id : NodeId}
    (seen : Sees { start } script id) : id < (GrammarDraft.run { start } script).nextId := by
  rcases seen with registered | ⟨call, member, given⟩
  · exact bounded_run start script id registered
  · rw [← run_spelledOut]
    exact lt_of_given_history (elementary_spelledOut _ script) member given

/-! ## Making nodes -/

/-- The draft after nodes have been added under the next ids, and nothing else has happened. -/
structure Grown (draft after : GrammarDraft) (count : Nat) : Prop where
  nextId_eq : after.nextId = draft.nextId + count
  made : ∀ id ∈ List.range' draft.nextId count, id ∈ after.nodes
  kept : ∀ id ∉ List.range' draft.nextId count, after.nodes[id]? = draft.nodes[id]?
  prods_eq : after.prods = draft.prods
  defect_eq : after.defect? = draft.defect?

theorem Grown.refl : draft.Grown draft 0 where
  nextId_eq := rfl
  made id member := by cases member
  kept id outside := rfl
  prods_eq := rfl
  defect_eq := rfl

theorem Grown.trans {between after : GrammarDraft} {count more : Nat}
    (first : draft.Grown between count) (second : between.Grown after more) :
    draft.Grown after (count + more) where
  nextId_eq := by rw [second.nextId_eq, first.nextId_eq, Nat.add_assoc]
  made id member := by
    rw [← List.range'_append_1, ← first.nextId_eq, List.mem_append] at member
    by_cases inSecond : id ∈ List.range' between.nextId more
    · exact second.made id inSecond
    · have inBetween := first.made id (member.resolve_right inSecond)
      rw [Std.TreeMap.mem_iff_isSome_getElem?] at inBetween ⊢
      rwa [second.kept id inSecond]
  kept id outside := by
    rw [← List.range'_append_1, ← first.nextId_eq, List.mem_append, not_or] at outside
    rw [second.kept id outside.2, first.kept id outside.1]
  prods_eq := second.prods_eq.trans first.prods_eq
  defect_eq := second.defect_eq.trans first.defect_eq

theorem Grown.bounded {after : GrammarDraft} {count : Nat} (grown : draft.Grown after count)
    (bounded : draft.Bounded) : after.Bounded := by
  intro id member
  rw [grown.nextId_eq]
  by_cases isNew : id ∈ List.range' draft.nextId count
  · exact (List.mem_range'_1.1 isNew).2
  · rw [Std.TreeMap.mem_iff_isSome_getElem?, grown.kept id isNew,
      ← Std.TreeMap.mem_iff_isSome_getElem?] at member
    exact Nat.lt_add_right count (bounded id member)

/-- Nodes have been made for symbols. Those that stand for the symbols themselves are among them,
in order. -/
structure Supplied (draft after : GrammarDraft) (ids : List NodeId) (symbols : List Symbol)
    (count : Nat) : Prop extends Grown draft after count where
  stand : ids.map after.symbolAt? = symbols.map some
  among : ids.Sublist (List.range' draft.nextId count)

theorem Supplied.nil : draft.Supplied draft [] [] 0 :=
  { Grown.refl with
    stand := rfl
    among := List.nil_sublist _ }

theorem Supplied.append {between after : GrammarDraft} {ids others : List NodeId}
    {symbols rest : List Symbol} {count more : Nat}
    (first : draft.Supplied between ids symbols count)
    (second : between.Supplied after others rest more) :
    draft.Supplied after (ids ++ others) (symbols ++ rest) (count + more) where
  toGrown := first.toGrown.trans second.toGrown
  stand := by
    have still : ids.map after.symbolAt? = ids.map between.symbolAt? := by
      apply List.map_congr_left
      intro id member
      have isOld : id ∉ List.range' between.nextId more := by
        have earlier := List.mem_range'_1.1 (first.among.subset member)
        rw [← first.nextId_eq] at earlier
        exact fun later => Nat.not_le_of_lt earlier.2 (List.mem_range'_1.1 later).1
      unfold symbolAt?
      rw [second.kept id isOld]
    rw [List.map_append, List.map_append, still, first.stand, second.stand]
  among := by
    rw [← List.range'_append_1, ← first.nextId_eq]
    exact first.among.append second.among

/-- Nodes that were made before make no difference to those made for the symbols. -/
theorem Supplied.after_grown {between after : GrammarDraft} {ids : List NodeId}
    {symbols : List Symbol} {count more : Nat} (grown : draft.Grown between count)
    (supplied : between.Supplied after ids symbols more) :
    draft.Supplied after ids symbols (count + more) where
  toGrown := grown.trans supplied.toGrown
  stand := supplied.stand
  among := by
    rw [← List.range'_append_1, ← grown.nextId_eq]
    exact supplied.among.trans (List.sublist_append_right _ _)

/-- A node made under a given id while ids are left. -/
theorem supplied_freshId (bounded : draft.Bounded) (room : draft.nextId < idLimit)
    (symbol : Symbol) (parts : List NodeId) :
    draft.Supplied (draft.freshId.2.addNode draft.freshId.1 symbol parts) [draft.freshId.1]
      [symbol] 1 := by
  have unused : draft.nodes.contains draft.nextId = false := by
    rw [← Bool.not_eq_true, ← Std.TreeMap.mem_iff_contains]
    exact fun member => Nat.lt_irrefl _ (bounded _ member)
  unfold freshId
  rw [if_pos room]
  unfold addNode
  dsimp only
  rw [if_neg (Bool.not_eq_true _ ▸ unused), Nat.max_self]
  constructor
  case toGrown =>
    constructor
    case nextId_eq => rfl
    case made =>
      intro id member
      exact Std.TreeMap.mem_insert.2 (.inl (by
        rw [Std.LawfulEqOrd.compare_eq_iff_eq, List.mem_singleton.1 member]))
    case kept =>
      intro id outside
      dsimp only
      rw [Std.TreeMap.getElem?_insert, if_neg]
      intro same
      exact outside (List.mem_singleton.2 (Std.LawfulEqOrd.eq_of_compare same).symm)
    case prods_eq => rfl
    case defect_eq => rfl
  case stand =>
    unfold symbolAt?
    rw [List.map_singleton, Std.TreeMap.getElem?_insert_self]
    rfl
  case among => exact List.Sublist.refl _

theorem symbolAt_freshId : draft.freshId.2.symbolAt? = draft.symbolAt? := by
  unfold freshId
  split
  · rfl
  · rfl

/-- A list node made over nodes that stand for its parts. -/
theorem supplied_addList (bounded : draft.Bounded) (room : draft.nextId < idLimit)
    {element : NodeId} {separators : List NodeId} {symbol : Symbol} {symbols : List Symbol}
    (stand : (element :: separators).map draft.symbolAt? = (symbol :: symbols).map some)
    (repetition : Repetition) :
    draft.Supplied (draft.freshId.2.addList draft.freshId.1 element separators repetition)
      [draft.freshId.1] [.list symbol symbols repetition] 1 := by
  have found : draft.freshId.2.symbolsOf (element :: separators) = .ok (symbol :: symbols) := by
    rw [symbolsOf_eq_ok_iff, symbolAt_freshId]
    exact stand
  unfold addList
  rw [found]
  exact supplied_freshId bounded room _ _

mutual

/-- Making a node for a symbol succeeds as long as the ids last. -/
theorem supplied_nodeFor {draft : GrammarDraft} (bounded : draft.Bounded) :
    ∀ symbol : Symbol, draft.nextId + symbol.nodeCount ≤ idLimit →
      draft.Supplied (draft.nodeFor symbol).2 [(draft.nodeFor symbol).1] [symbol]
        symbol.nodeCount
  | .list element separators repetition, room => by
    rw [Symbol.nodeCount] at room ⊢
    rw [nodeFor]
    dsimp only
    have forElement := supplied_nodeFor bounded element (by omega)
    have forSeparators := supplied_nodesFor (forElement.bounded bounded) separators
      (by rw [forElement.nextId_eq]; omega)
    have forParts := forElement.append forSeparators
    have left : ((draft.nodeFor element).2.nodesFor separators).2.nextId < idLimit := by
      rw [forParts.nextId_eq]
      omega
    exact .after_grown forParts.toGrown
      (supplied_addList (forParts.bounded bounded) left forParts.stand repetition)
  | .literal text, room => by
    rw [nodeFor]
    exact supplied_freshId bounded room _ _
  | .charClass cls, room => by
    rw [nodeFor]
    exact supplied_freshId bounded room _ _
  | .nonTerminal name, room => by
    rw [nodeFor]
    exact supplied_freshId bounded room _ _

/-- Making nodes for symbols succeeds as long as the ids last. -/
theorem supplied_nodesFor {draft : GrammarDraft} (bounded : draft.Bounded) :
    ∀ symbols : List Symbol, draft.nextId + Symbol.nodeCountAll symbols ≤ idLimit →
      draft.Supplied (draft.nodesFor symbols).2 (draft.nodesFor symbols).1 symbols
        (Symbol.nodeCountAll symbols)
  | [], room => by
    rw [nodesFor]
    exact .nil
  | symbol :: rest, room => by
    rw [Symbol.nodeCountAll] at room ⊢
    rw [nodesFor]
    have forFirst := supplied_nodeFor bounded symbol (by omega)
    have forRest := supplied_nodesFor (forFirst.bounded bounded) rest
      (by rw [forFirst.nextId_eq]; omega)
    exact forFirst.append forRest

end

/-! ## Productions with nodes of their own -/

theorem wire_of_stand {production : Production} {nodes : List NodeId}
    (stand : nodes.map draft.symbolAt? = production.rhs.map some) :
    draft.wire production nodes =
      { draft with prods := draft.prods.push ⟨production, nodes⟩ } := by
  have arity : nodes.length = production.arity := by
    simpa [Production.arity] using congrArg List.length stand
  unfold wire
  rw [wiringDefect_eq_none_iff.2 ⟨arity, stand⟩]

/-- A production with nodes of its own is added to the draft in which they have been made. -/
theorem addProduction_eq (bounded : draft.Bounded) {production : Production}
    (room : draft.nextId + Symbol.nodeCountAll production.rhs ≤ idLimit) :
    ∃ between wiring,
      draft.Supplied between wiring production.rhs (Symbol.nodeCountAll production.rhs) ∧
        draft.addProduction production =
          { between with prods := between.prods.push ⟨production, wiring⟩ } := by
  have supplied := supplied_nodesFor bounded production.rhs room
  exact ⟨_, _, supplied, wire_of_stand supplied.stand⟩

/-- Implicit wiring always succeeds. After any script, the next id is above all ids seen. A
production that is given nodes of its own, with enough ids left for them, is not objected to,
whatever has been before: new nodes are made for its symbols and their parts, under ids not seen
before, the others stay as they are, and the production is wired to nodes for its right-hand
side. -/
theorem addProduction_of_script (start : Symbol) (script : List Declaration) :
    let draft := GrammarDraft.run { start } script
    (∀ id, Sees { start } script id → id < draft.nextId) ∧
      ∀ production : Production,
        draft.nextId + Symbol.nodeCountAll production.rhs ≤ idLimit →
        let after := draft.addProduction production
        (∀ earlier : Option Defect,
            ({ draft with defect? := earlier }.addProduction production).defect? = earlier) ∧
          ∃ made wiring : List NodeId,
            made.length = Symbol.nodeCountAll production.rhs ∧ made.Nodup ∧
            (∀ id ∈ made, ¬ Sees { start } script id ∧ id < idLimit ∧ id ∈ after.nodes) ∧
            (∀ id ∉ made, after.nodes[id]? = draft.nodes[id]?) ∧
            after.prods = draft.prods.push ⟨production, wiring⟩ ∧
            wiring.Sublist made ∧ wiring.map after.symbolAt? = production.rhs.map some := by
  intro draft
  have bounded : draft.Bounded := bounded_run start script
  refine ⟨fun id => lt_of_sees, fun production room => ⟨fun earlier => ?_, ?_⟩⟩
  · have stillBounded : Bounded { draft with defect? := earlier } := bounded
    obtain ⟨between, wiring, supplied, eq⟩ := addProduction_eq stillBounded room
    rw [eq]
    exact supplied.defect_eq
  · obtain ⟨between, wiring, supplied, eq⟩ := addProduction_eq bounded room
    rw [eq]
    refine ⟨List.range' draft.nextId (Symbol.nodeCountAll production.rhs), wiring,
      List.length_range', List.nodup_range', fun id member => ?_, supplied.kept, ?_,
      supplied.among, supplied.stand⟩
    · have range := List.mem_range'_1.1 member
      exact ⟨fun seen => Nat.not_le_of_lt (lt_of_sees seen) range.1,
        Nat.lt_of_lt_of_le range.2 room, supplied.made id member⟩
    · rw [← supplied.prods_eq]

/-- Nodes under ids of the script's choice, the higher first, and one id asked for. -/
def tenThenThree : List Declaration :=
  [.literal 10 "a", .literal 3 "b", .fresh]

/-- Letters with commas between them, up to a semicolon. -/
def lettersWithCommas : Production where
  label := "Letters"
  lhs := .nonTerminal "S"
  rhs :=
    [.list (.charClass (CharClass.ofRanges [⟨'a', 'z', by decide⟩])) [.literal ","] .plus,
      .literal ";"]

theorem addProduction_of_script_tenThenThree :
    let draft := GrammarDraft.run { start := .nonTerminal "S" } tenThenThree
    let after := draft.addProduction lettersWithCommas
    draft.nextId = 12 ∧ draft.nextId + Symbol.nodeCountAll lettersWithCommas.rhs ≤ idLimit ∧
      after.defect? = none ∧
      ∃ made wiring : List NodeId, made.length = 4 ∧ made.Nodup ∧
        (∀ id ∈ made, id ∈ after.nodes) ∧ after.prods = #[⟨lettersWithCommas, wiring⟩] ∧
        wiring.Sublist made ∧ wiring.map after.symbolAt? = lettersWithCommas.rhs.map some := by
  intro draft after
  have nextId : draft.nextId = 12 := by decide +kernel
  have room : draft.nextId + Symbol.nodeCountAll lettersWithCommas.rhs ≤ idLimit := by
    rw [nextId]
    decide +kernel
  obtain ⟨silent, made, wiring, length, nodup, new, -, prods, among, stand⟩ :=
    (addProduction_of_script (.nonTerminal "S") tenThenThree).2 lettersWithCommas room
  have defect : draft.defect? = none := by decide +kernel
  exact ⟨nextId, room, (silent draft.defect?).trans defect, made, wiring, length, nodup,
    fun id member => (new id member).2.2, prods, among, stand⟩

end GrammarDraft

end Scannerless
