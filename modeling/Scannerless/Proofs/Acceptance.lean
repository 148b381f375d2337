import Scannerless.Proofs.Assembly
import Scannerless.Proofs.Calls

/-!
# Acceptance

Which scripts describe a grammar. The checks are spread over three phases: each call is checked
against the nodes that are there when it is made, the productions are checked in order when they are
assembled, those that list symbols imply included, and at last every symbol in use is looked up.

`Grammar.Describable` collects what has to hold, in terms of the calls of the script and of the
productions it ends up with. `Grammar.ofScript_accepts_iff` says that the phases together check just
that. Assembly itself finds the flaws of productions in their order
(`Grammar.foldlM_register_outcome`) and never misses a node.
-/

namespace Scannerless

/-! ## Registered nodes -/

theorem isSome_of_stand {symbolAt? : NodeId → Option Symbol} {ids : List NodeId}
    {symbols : List Symbol} (stand : ids.map symbolAt? = symbols.map some) {id : NodeId}
    (member : id ∈ ids) : (symbolAt? id).isSome = true := by
  have found : symbolAt? id ∈ symbols.map some := stand ▸ List.mem_map_of_mem member
  obtain ⟨symbol, -, eq⟩ := List.mem_map.1 found
  exact Option.isSome_of_eq_some eq.symm

theorem mem_of_isSome_symbol {nodes : Std.TreeMap NodeId StackNode} {id : NodeId}
    (found : (nodes[id]?.map StackNode.symbol).isSome = true) : id ∈ nodes := by
  rwa [Std.TreeMap.mem_iff_isSome_getElem?, ← Option.isSome_map]

/-- The id that a declaration asks to put a node under. -/
def Declaration.registers? : Declaration → Option NodeId
  | .literal id _ => some id
  | .charClass id _ => some id
  | .nonTerminal id _ => some id
  | .separatedList id _ _ _ => some id
  | _ => none

/-- The ids by which a declaration refers to nodes. -/
def Declaration.mentions : Declaration → List NodeId
  | .separatedList _ element separators _ => element :: separators
  | .wired _ nodes => nodes
  | _ => []

namespace GrammarDraft

variable {draft : GrammarDraft}

theorem mem_addNode {id other : NodeId} {symbol : Symbol} {parts : List NodeId} :
    other ∈ (draft.addNode id symbol parts).nodes ↔ other ∈ draft.nodes ∨ id = other := by
  unfold addNode
  dsimp only
  split
  · next known =>
    refine ⟨.inl, fun given => given.elim (fun old => old) fun same => ?_⟩
    exact same ▸ Std.TreeMap.mem_iff_contains.2 known
  · dsimp only
    rw [Std.TreeMap.mem_insert, Std.LawfulEqOrd.compare_eq_iff_eq, or_comm]

theorem mem_freshId {other : NodeId} : other ∈ draft.freshId.2.nodes ↔ other ∈ draft.nodes := by
  unfold freshId
  split
  · rfl
  · rfl

theorem nodes_wire (production : Production) (nodes : List NodeId) :
    (draft.wire production nodes).nodes = draft.nodes := by
  unfold wire
  split
  · rfl
  · rfl

theorem mem_addList {id element other : NodeId} {separators : List NodeId}
    {repetition : Repetition} (known : ∀ part ∈ element :: separators, part ∈ draft.nodes) :
    other ∈ (draft.addList id element separators repetition).nodes ↔
      other ∈ draft.nodes ∨ id = other := by
  have symbols := draft.symbolsOf_eq (element :: separators)
  have allKnown : ((element :: separators).find? fun part => !draft.nodes.contains part) = none :=
    List.find?_eq_none.2 fun part member => by simpa using known part member
  rw [allKnown] at symbols
  obtain ⟨found, ok, length⟩ := symbols
  unfold addList
  rw [ok]
  cases found with
  | nil => cases length
  | cons elementSymbol separatorSymbols => exact mem_addNode

/-- A call that mentions known nodes only registers the node that it asks for, and no other. -/
theorem mem_declare {declaration : Declaration} {other : NodeId}
    (elementary : declaration.isElementary = true)
    (known : ∀ id ∈ declaration.mentions, id ∈ draft.nodes) :
    other ∈ (draft.declare declaration).2.nodes ↔
      other ∈ draft.nodes ∨ declaration.registers? = some other := by
  cases declaration with
  | literal id text =>
    rw [Declaration.registers?, Option.some.injEq]
    exact mem_addNode
  | charClass id ranges =>
    rw [Declaration.registers?, Option.some.injEq]
    exact mem_addNode
  | nonTerminal id name =>
    rw [Declaration.registers?, Option.some.injEq]
    exact mem_addNode
  | separatedList id element separators repetition =>
    rw [Declaration.registers?, Option.some.injEq]
    exact mem_addList known
  | fresh => simp [declare, mem_freshId, Declaration.registers?]
  | wired production nodes => simp [declare, nodes_wire, Declaration.registers?]
  | node symbol => cases elementary
  | production production => cases elementary
  | rule head bodies => cases elementary

/-- No call meets an id in use just if the ids that the calls register are new and differ. -/
theorem history_unused_iff {steps : List Declaration}
    (elementary : ∀ step ∈ steps, step.isElementary = true)
    (known : ∀ call ∈ draft.history steps, ∀ id ∈ call.declaration.mentions,
      id ∈ call.draft.nodes) :
    (∀ call ∈ draft.history steps, ∀ id, call.declaration.registers? = some id →
        id ∉ call.draft.nodes) ↔
      (steps.filterMap Declaration.registers?).Nodup ∧
        ∀ id ∈ steps.filterMap Declaration.registers?, id ∉ draft.nodes := by
  induction steps generalizing draft with
  | nil => simp [history]
  | cons step rest ih =>
    rw [history, List.forall_mem_cons] at known
    have later := ih (fun other member => elementary other (List.mem_cons_of_mem step member))
      known.2
    simp only [mem_declare (elementary step List.mem_cons_self) known.1, not_or] at later
    rw [history, List.forall_mem_cons, later]
    cases registers : step.registers? with
    | none =>
      rw [List.filterMap_cons_none registers]
      simp
    | some id =>
      rw [List.filterMap_cons_some registers, List.nodup_cons, List.forall_mem_cons]
      simp only [Option.some.injEq]
      constructor
      · rintro ⟨new, nodup, others⟩
        exact ⟨⟨fun again => (others id again).2 rfl, nodup⟩, new id rfl,
          fun other member => (others other member).1⟩
      · rintro ⟨⟨notAgain, nodup⟩, new, others⟩
        refine ⟨fun other same => same ▸ new, nodup, fun other member => ⟨others other member, ?_⟩⟩
        rintro rfl
        exact notAgain member

theorem taken_eq_none_iff {id : NodeId} : draft.taken? id = none ↔ id ∉ draft.nodes := by
  unfold taken?
  split
  · next known => simpa using known
  · next unknown => simpa using unknown

end GrammarDraft

/-- There is no objection to a call that registers a new id, mentions nodes that are there, wires
a production to nodes for its right-hand side, and asks for an id only if some are left. -/
theorem ScriptCall.objection_eq_none_iff {call : ScriptCall} :
    call.objection? = none ↔
      (∀ id, call.declaration.registers? = some id → id ∉ call.draft.nodes) ∧
      (∀ id ∈ call.declaration.mentions, id ∈ call.draft.nodes) ∧
      (∀ production nodes, call.declaration = .wired production nodes →
        nodes.length = production.arity ∧
          nodes.map call.draft.symbolAt? = production.rhs.map some) ∧
      (call.declaration = .fresh → call.draft.nextId < GrammarDraft.idLimit) := by
  obtain ⟨draft, declaration⟩ := call
  cases declaration with
  | literal id text =>
    simp [objection?, Declaration.registers?, Declaration.mentions,
      GrammarDraft.taken_eq_none_iff]
  | charClass id ranges =>
    simp [objection?, Declaration.registers?, Declaration.mentions,
      GrammarDraft.taken_eq_none_iff]
  | nonTerminal id name =>
    simp [objection?, Declaration.registers?, Declaration.mentions,
      GrammarDraft.taken_eq_none_iff]
  | separatedList id element separators repetition =>
    unfold objection?
    dsimp only [Declaration.registers?, Declaration.mentions]
    cases found : (element :: separators).find? fun part => !draft.nodes.contains part with
    | some missing =>
      have member := List.mem_of_find?_eq_some found
      have unknown : missing ∉ draft.nodes := by
        have outside := List.find?_some (p := fun part => !draft.nodes.contains part) found
        rw [Std.TreeMap.mem_iff_contains, Bool.not_eq_true, ← Bool.not_eq_true']
        exact outside
      constructor
      · intro none_
        cases none_
      · rintro ⟨-, known, -⟩
        exact absurd (known missing member) unknown
    | none =>
      have known : ∀ id ∈ element :: separators, id ∈ draft.nodes := by
        simpa using List.find?_eq_none.1 found
      simp only [GrammarDraft.taken_eq_none_iff, Option.some.injEq, forall_eq', reduceCtorEq,
        false_imp_iff, implies_true, and_true]
      exact (and_iff_left known).symm
  | fresh => simp [objection?, Declaration.registers?, Declaration.mentions]
  | wired production nodes =>
    unfold objection?
    dsimp only [Declaration.registers?, Declaration.mentions]
    rw [GrammarDraft.wiringDefect_eq_none_iff]
    constructor
    · rintro ⟨arity, stands⟩
      refine ⟨by simp, fun id member => ?_, ?_, by simp⟩
      · exact mem_of_isSome_symbol (isSome_of_stand stands member)
      · rintro _ _ ⟨⟩
        exact ⟨arity, stands⟩
    · rintro ⟨-, -, wired, -⟩
      exact wired production nodes rfl
  | node symbol => simp [objection?, Declaration.registers?, Declaration.mentions]
  | production production => simp [objection?, Declaration.registers?, Declaration.mentions]
  | rule head bodies => simp [objection?, Declaration.registers?, Declaration.mentions]

/-! ## Flawless productions -/

/-- A production may define a nonterminal in any way, and a list symbol by its own list. -/
theorem Production.definesLhs_iff {production : Production} :
    production.definesLhs = true ↔ (∃ name, production.lhs = .nonTerminal name) ∨
      ∃ element separators repetition, production.lhs = .list element separators repetition ∧
        production.kind = .list repetition ∧ production.rhs = element :: separators := by
  unfold Production.definesLhs
  cases production.lhs with
  | nonTerminal name => simp
  | literal text => simp
  | charClass cls => simp
  | list element separators repetition =>
    cases production.kind with
    | sequence => simp
    | list r =>
      simp only [Bool.and_eq_true, decide_eq_true_eq, reduceCtorEq, exists_false, false_or,
        Symbol.list.injEq, ProductionKind.list.injEq]
      constructor
      · rintro ⟨rfl, rhs⟩
        exact ⟨element, separators, repetition, ⟨rfl, rfl, rfl⟩, rfl, rhs⟩
      · rintro ⟨_, _, _, ⟨rfl, rfl, rfl⟩, rfl, rhs⟩
        exact ⟨rfl, rhs⟩

theorem Production.definesLhs_of_forListSymbol {symbol : Symbol} {production : Production}
    (found : Production.forListSymbol? symbol = some production) :
    production.definesLhs = true := by
  unfold Production.forListSymbol? at found
  split at found
  · next element separators repetition =>
    cases found
    exact Production.definesLhs_iff.2 (.inr ⟨element, separators, repetition, rfl, rfl, rfl⟩)
  · cases found

theorem WiredProduction.flaw_eq_none_iff {earlier : List WiredProduction}
    {entry : WiredProduction} :
    entry.flaw? earlier = none ↔ entry.production.definesLhs = true ∧
      entry.production.label ∉ earlier.map (fun other => other.production.label) ∧
      entry.wiring.Nodup := by
  unfold WiredProduction.flaw?
  dsimp only
  split
  · next undefined => simp at undefined; simp [undefined]
  · next defines =>
    split
    · next known => simp [known]
    · next new =>
      rw [Option.map_eq_none_iff, Grammar.firstRepeat_eq_none_iff]
      have defines : entry.production.definesLhs = true := by simpa using defines
      simp [new, defines]

/-- Productions have no flaw just if each may define its left-hand side and is wired to different
nodes, and their labels differ from each other and from those before. -/
theorem firstFlaw_eq_none_iff {earlier entries : List WiredProduction} :
    firstFlaw? earlier entries = none ↔
      (∀ entry ∈ entries, entry.production.definesLhs = true) ∧
      (entries.map fun entry => entry.production.label).Nodup ∧
      (∀ entry ∈ entries,
        entry.production.label ∉ earlier.map fun other => other.production.label) ∧
      ∀ entry ∈ entries, entry.wiring.Nodup := by
  induction entries generalizing earlier with
  | nil => simp [firstFlaw?]
  | cons entry rest ih =>
    rw [firstFlaw?, Option.or_eq_none_iff, ih, WiredProduction.flaw_eq_none_iff, List.map_cons,
      List.nodup_cons]
    simp only [List.forall_mem_cons, List.map_append, List.map_cons, List.map_nil, List.mem_append,
      List.mem_singleton, not_or]
    have label_notMem : entry.production.label ∉ rest.map (fun other => other.production.label) ↔
        ∀ other ∈ rest, ¬ other.production.label = entry.production.label := by
      simp [eq_comm]
    rw [label_notMem]
    constructor
    · rintro ⟨⟨defines, new, nodup⟩, allDefine, labels, others, allNodup⟩
      exact ⟨⟨defines, allDefine⟩, ⟨fun other member => (others other member).2, labels⟩,
        ⟨new, fun other member => (others other member).1⟩, nodup, allNodup⟩
    · rintro ⟨⟨defines, allDefine⟩, ⟨notAgain, labels⟩, ⟨new, others⟩, nodup, allNodup⟩
      exact ⟨⟨defines, new, nodup⟩, allDefine, labels,
        fun other member => ⟨others other member, notAgain other member⟩, allNodup⟩

/-! ## Assembly -/

namespace Grammar

/-- The tables of a grammar in assembly, after these productions. -/
structure Tabulates (g : Grammar) (entries : List WiredProduction) : Prop where
  mem_labels : ∀ label : String, label ∈ g.labels ↔
    label ∈ entries.map fun entry => entry.production.label
  isDefined_iff : ∀ symbol : Symbol, g.isDefined symbol = true ↔
    symbol ∈ entries.map fun entry => entry.production.lhs

theorem exists_connect (prod : ProdId) (entry : WiredProduction) :
    ∀ (start : Nat) {ids : List NodeId} {nodes : Std.TreeMap NodeId StackNode},
      (∀ id ∈ ids, id ∈ nodes) → ∃ connected, connect prod entry start ids nodes = .ok connected
  | _, [], nodes, _ => ⟨nodes, rfl⟩
  | start, id :: rest, nodes, known => by
    obtain ⟨node, found⟩ := Option.isSome_iff_exists.1
      (Std.TreeMap.mem_iff_isSome_getElem?.1 (known id List.mem_cons_self))
    rw [connect, found]
    refine exists_connect prod entry (start + 1) fun other member => ?_
    exact Std.TreeMap.mem_insert.2 (.inr (known other (List.mem_cons_of_mem id member)))

theorem register_of_flaw {g : Grammar} {earlier : List WiredProduction} {entry : WiredProduction}
    (tabulates : g.Tabulates earlier) {defect : Defect}
    (flaw : entry.flaw? earlier = some defect) : g.register entry = .error defect := by
  have contains_iff : g.labels.contains entry.production.label = true ↔ _ :=
    Std.TreeMap.mem_iff_contains.symm.trans (tabulates.mem_labels entry.production.label)
  unfold WiredProduction.flaw? at flaw
  unfold register
  dsimp only at flaw ⊢
  split at flaw
  · next undefined =>
    cases flaw
    rw [if_pos undefined]
  · next defines =>
    rw [if_neg defines]
    split at flaw
    · next known =>
      cases flaw
      rw [if_pos (contains_iff.2 known)]
    · next new =>
      rw [if_neg (mt contains_iff.1 new)]
      cases repeated : firstRepeat? [] entry.wiring with
      | none =>
        rw [repeated] at flaw
        cases flaw
      | some node =>
        rw [repeated] at flaw
        cases flaw
        rfl

/-- A production without a flaw is registered, if the nodes that it is wired to are there. -/
theorem register_of_flawless {g : Grammar} {earlier : List WiredProduction}
    {entry : WiredProduction} (tabulates : g.Tabulates earlier)
    (known : ∀ id ∈ entry.wiring, id ∈ g.nodes) (flawless : entry.flaw? earlier = none) :
    ∃ extended, g.register entry = .ok extended ∧ extended.Tabulates (earlier ++ [entry]) ∧
      extended.symbolAt? = g.symbolAt? ∧ extended.start = g.start := by
  obtain ⟨defines, new, nodup⟩ := WiredProduction.flaw_eq_none_iff.1 flawless
  have newLabel : ¬ g.labels.contains entry.production.label = true := by
    rwa [← Std.TreeMap.mem_iff_contains, tabulates.mem_labels]
  have noRepeat : firstRepeat? [] entry.wiring = none :=
    firstRepeat_eq_none_iff.2 ⟨nodup, fun _ _ => List.not_mem_nil⟩
  obtain ⟨nodes, connected⟩ := exists_connect g.prods.size entry 0 known
  have registered : g.register entry = .ok { g with
      prods := g.prods.push entry
      rules := g.rules.insert entry.production.lhs
        (g.prodsFor entry.production.lhs ++ [g.prods.size])
      labels := g.labels.insert entry.production.label g.prods.size
      nodes := nodes } := by
    unfold register
    dsimp only
    rw [defines, if_neg (by simp), if_neg newLabel, noRepeat]
    dsimp only
    rw [connected]
  have tables := Registered.of_register registered
  refine ⟨_, registered, ⟨fun label => ?_, fun symbol => ?_⟩, tables.symbolAt_eq, rfl⟩
  · rw [Std.TreeMap.mem_insert, tabulates.mem_labels, Std.LawfulEqOrd.compare_eq_iff_eq,
      List.map_append, List.mem_append, List.map_singleton, List.mem_singleton, or_comm,
      eq_comm (a := label)]
  · rw [tables.isDefined_iff, tabulates.isDefined_iff, List.map_append, List.mem_append,
      List.map_singleton, List.mem_singleton, or_comm, eq_comm (a := symbol)]

/-- Assembly registers productions in order up to the first with a flaw. -/
theorem foldlM_register_outcome {entries : List WiredProduction} :
    ∀ {g : Grammar} {earlier : List WiredProduction}, g.Tabulates earlier →
      (∀ entry ∈ entries, entry.Fits g.symbolAt?) →
      match firstFlaw? earlier entries with
      | some defect => entries.foldlM register g = .error defect
      | none => ∃ assembled, entries.foldlM register g = .ok assembled ∧
          assembled.Tabulates (earlier ++ entries) ∧ assembled.symbolAt? = g.symbolAt? ∧
          assembled.start = g.start := by
  induction entries with
  | nil =>
    intro g earlier tabulates fits
    exact ⟨g, rfl, (List.append_nil earlier).symm ▸ tabulates, rfl, rfl⟩
  | cons entry rest ih =>
    intro g earlier tabulates fits
    rw [firstFlaw?, List.foldlM_cons]
    cases flaw : entry.flaw? earlier with
    | some defect =>
      rw [Option.some_or, register_of_flaw tabulates flaw]
      rfl
    | none =>
      have known : ∀ id ∈ entry.wiring, id ∈ g.nodes := fun id member =>
        mem_of_isSome_symbol (isSome_of_stand (fits entry List.mem_cons_self) member)
      obtain ⟨extended, registered, grown, symbols, start⟩ :=
        register_of_flawless tabulates known flaw
      have others := ih grown fun other inRest =>
        symbols.symm ▸ fits other (List.mem_cons_of_mem entry inRest)
      rw [Option.none_or, registered]
      rw [symbols, start, List.append_assoc, List.singleton_append] at others
      exact others

end Grammar

/-! ## Scripts -/

namespace GrammarDraft

variable {draft : GrammarDraft}

theorem build_of_defect {defect : Defect} (found : draft.defect? = some defect) :
    draft.build.value = .error defect := by
  unfold build
  rw [found]
  rfl

theorem build_of_sound (sound : draft.defect? = none) :
    draft.build.value = Grammar.assemble draft.start draft.entries draft.nodes := by
  unfold build
  rw [sound]

theorem tabulates_start :
    Grammar.Tabulates { start := draft.start, nodes := draft.nodes } [] := by
  constructor
  · intro label
    simp
  · intro symbol
    simp [Grammar.isDefined]

theorem Coherent.assemble_of_flaw (coherent : draft.Coherent) {defect : Defect}
    (flaw : firstFlaw? [] draft.entries = some defect) :
    Grammar.assemble draft.start draft.entries draft.nodes = .error defect := by
  have outcome := Grammar.foldlM_register_outcome draft.tabulates_start fun _ member =>
    coherent.entries member
  rw [flaw] at outcome
  unfold Grammar.assemble
  rw [outcome]

/-- All symbols of a draft that need productions have some. -/
structure Complete (draft : GrammarDraft) : Prop where
  start_defined : ∃ entry ∈ draft.entries, entry.production.lhs = draft.start
  node_defined : ∀ (id : NodeId) (node : StackNode), draft.nodes[id]? = some node →
    node.symbol.hasProductions = true →
      ∃ entry ∈ draft.entries, entry.production.lhs = node.symbol

/-- Without flaws, a complete draft is assembled, and any other is refused for a symbol that lacks
productions. -/
theorem Coherent.assemble_of_flawless (coherent : draft.Coherent)
    (flawless : firstFlaw? [] draft.entries = none) :
    (draft.Complete ∧ ∃ g, Grammar.assemble draft.start draft.entries draft.nodes = .ok g) ∨
      (¬ draft.Complete ∧ ∃ symbol, Grammar.assemble draft.start draft.entries draft.nodes =
        .error (.undefinedSymbol symbol)) := by
  have outcome := Grammar.foldlM_register_outcome draft.tabulates_start fun _ member =>
    coherent.entries member
  rw [flawless] at outcome
  obtain ⟨assembled, registered, tabulates, symbols, start⟩ := outcome
  have complete_iff : assembled.undefined? = none ↔ draft.Complete := by
    rw [Grammar.undefined_eq_none_iff, symbols, start]
    simp only [tabulates.isDefined_iff, List.nil_append, List.mem_map]
    unfold Grammar.symbolAt? Grammar.node?
    simp only [Option.map_eq_some_iff]
    constructor
    · rintro ⟨started, defined⟩
      exact ⟨started, fun id node found => defined id node.symbol ⟨node, found, rfl⟩⟩
    · rintro ⟨started, defined⟩
      refine ⟨started, ?_⟩
      rintro id symbol ⟨node, found, rfl⟩
      exact defined id node found
  unfold Grammar.assemble
  rw [registered]
  dsimp only
  cases missing : assembled.undefined? with
  | none => exact .inl ⟨complete_iff.1 missing, assembled, rfl⟩
  | some symbol =>
    refine .inr ⟨fun complete => ?_, symbol, rfl⟩
    rw [complete_iff.2 complete] at missing
    cases missing

theorem Coherent.assemble_accepts_iff (coherent : draft.Coherent) :
    (∃ g, Grammar.assemble draft.start draft.entries draft.nodes = .ok g) ↔
      firstFlaw? [] draft.entries = none ∧ draft.Complete := by
  cases flaw : firstFlaw? [] draft.entries with
  | some defect => simp [coherent.assemble_of_flaw flaw]
  | none =>
    rcases coherent.assemble_of_flawless flaw with ⟨complete, accepted⟩ | ⟨incomplete, _, refused⟩
    · simp [complete, accepted]
    · simp [incomplete, refused]

end GrammarDraft

theorem firstFlaw_ne_unknownNode {context : String} {id : NodeId} :
    ∀ {entries earlier : List WiredProduction},
      firstFlaw? earlier entries ≠ some (.unknownNode context id)
  | [], _ => by simp [firstFlaw?]
  | entry :: rest, earlier => by
    rw [firstFlaw?]
    cases flaw : entry.flaw? earlier with
    | none => exact firstFlaw_ne_unknownNode
    | some defect =>
      unfold WiredProduction.flaw? at flaw
      dsimp only at flaw
      rintro ⟨⟩
      split at flaw
      · cases flaw
      · split at flaw
        · cases flaw
        · obtain ⟨node, -, eq⟩ := Option.map_eq_some_iff.1 flaw
          cases eq

/-- What a script has to get right to describe a grammar. The calls are its elementary ones, each
with the draft that it is made on; the draft of the whole script has the productions that were
registered, and implies those of the list symbols that none of them defines. -/
structure Grammar.Describable (start : Symbol) (script : List Declaration) : Prop where
  /-- No id is registered twice. -/
  once : (((GrammarDraft.calls { start } script).map ScriptCall.declaration).filterMap
    Declaration.registers?).Nodup
  /-- The ids that a list or a wiring names are those of nodes registered before. -/
  known : ∀ call ∈ GrammarDraft.calls { start } script, ∀ id ∈ call.declaration.mentions,
    id ∈ call.draft.nodes
  arity : ∀ call ∈ GrammarDraft.calls { start } script, ∀ production nodes,
    call.declaration = .wired production nodes → nodes.length = production.arity
  stands : ∀ call ∈ GrammarDraft.calls { start } script, ∀ production nodes,
    call.declaration = .wired production nodes →
      nodes.map call.draft.symbolAt? = production.rhs.map some
  /-- An id is left whenever a new one is asked for. -/
  idsLeft : ∀ call ∈ GrammarDraft.calls { start } script, call.declaration = .fresh →
    call.draft.nextId < GrammarDraft.idLimit
  /-- A registered production defines a nonterminal, or a list symbol as its own list. -/
  lhs : ∀ entry ∈ (GrammarDraft.run { start } script).prods.toList,
    (∃ name, entry.production.lhs = .nonTerminal name) ∨
      ∃ element separators repetition,
        entry.production.lhs = .list element separators repetition ∧
          entry.production.kind = .list repetition ∧ entry.production.rhs = element :: separators
  labels : ((GrammarDraft.run { start } script).entries.map fun entry =>
    entry.production.label).Nodup
  wirings : ∀ entry ∈ (GrammarDraft.run { start } script).entries, entry.wiring.Nodup
  start_defined : ∃ entry ∈ (GrammarDraft.run { start } script).entries,
    entry.production.lhs = start
  node_defined : ∀ (id : NodeId) (node : StackNode),
    (GrammarDraft.run { start } script).nodes[id]? = some node →
      node.symbol.hasProductions = true →
        ∃ entry ∈ (GrammarDraft.run { start } script).entries,
          entry.production.lhs = node.symbol

namespace Grammar

theorem objections_iff {start : Symbol} {script : List Declaration} :
    (∀ call ∈ GrammarDraft.calls { start } script, call.objection? = none) ↔
      (((GrammarDraft.calls { start } script).map ScriptCall.declaration).filterMap
        Declaration.registers?).Nodup ∧
      (∀ call ∈ GrammarDraft.calls { start } script, ∀ id ∈ call.declaration.mentions,
        id ∈ call.draft.nodes) ∧
      (∀ call ∈ GrammarDraft.calls { start } script, ∀ production nodes,
        call.declaration = .wired production nodes → nodes.length = production.arity ∧
          nodes.map call.draft.symbolAt? = production.rhs.map some) ∧
      ∀ call ∈ GrammarDraft.calls { start } script, call.declaration = .fresh →
        call.draft.nextId < GrammarDraft.idLimit := by
  have elementary := GrammarDraft.elementary_spelledOut { start } script
  have declarations : (GrammarDraft.calls { start } script).map ScriptCall.declaration =
      GrammarDraft.spelledOut { start } script := GrammarDraft.map_declaration_history _ _
  have unused_iff := fun (known : ∀ call ∈ GrammarDraft.calls { start } script,
      ∀ id ∈ call.declaration.mentions, id ∈ call.draft.nodes) =>
    GrammarDraft.history_unused_iff elementary known
  simp only [ScriptCall.objection_eq_none_iff, declarations]
  constructor
  · intro sound
    have known := fun call member => (sound call member).2.1
    exact ⟨((unused_iff known).1 fun call member => (sound call member).1).1, known,
      fun call member => (sound call member).2.2.1, fun call member => (sound call member).2.2.2⟩
  · rintro ⟨once, known, wired, idsLeft⟩ call member
    have unused := (unused_iff known).2 ⟨once, fun id _ => Std.TreeMap.not_mem_emptyc⟩
    exact ⟨unused call member, known call member, wired call member, idsLeft call member⟩

/-- All productions of a draft may define their left-hand sides if the registered ones may. -/
theorem definesLhs_entries_iff {draft : GrammarDraft} :
    (∀ entry ∈ draft.entries, entry.production.definesLhs = true) ↔
      ∀ entry ∈ draft.prods.toList, entry.production.definesLhs = true := by
  refine ⟨fun all entry member => all entry (List.mem_append_left _ member), ?_⟩
  intro said entry member
  rcases List.mem_append.1 member with inScript | unsaid
  · exact said entry inScript
  · obtain ⟨node, -, found, -⟩ := GrammarDraft.exists_node_of_mem_impliedBy unsaid
    exact Production.definesLhs_of_forListSymbol found

/-- A script describes a grammar just if it has none of the defects, and assembly never finds a node
missing. -/
theorem ofScript_accepts_iff (start : Symbol) (script : List Declaration) :
    ((∃ g, (Grammar.ofScript start script).value = .ok g) ↔ Describable start script) ∧
      ∀ context id, Grammar.assemble start (GrammarDraft.run { start } script).entries
        (GrammarDraft.run { start } script).nodes ≠ .error (.unknownNode context id) := by
  have coherent := (GrammarDraft.Coherent.start start).run script
  have started : (GrammarDraft.run { start } script).start = start := GrammarDraft.start_run script
  have started_iff : (∃ entry ∈ (GrammarDraft.run { start } script).entries,
        entry.production.lhs = (GrammarDraft.run { start } script).start) ↔
      ∃ entry ∈ (GrammarDraft.run { start } script).entries, entry.production.lhs = start := by
    rw [started]
  have defects : (GrammarDraft.run { start } script).defect? = none ↔
      ∀ call ∈ GrammarDraft.calls { start } script, call.objection? = none := by
    rw [GrammarDraft.defect_run, Option.none_or, List.findSome?_eq_none_iff]
  constructor
  · have accepts_iff : (∃ g, (Grammar.ofScript start script).value = .ok g) ↔
        (GrammarDraft.run { start } script).defect? = none ∧
          firstFlaw? [] (GrammarDraft.run { start } script).entries = none ∧
          (GrammarDraft.run { start } script).Complete := by
      unfold Grammar.ofScript
      rw [← coherent.assemble_accepts_iff]
      cases found : (GrammarDraft.run { start } script).defect? with
      | some defect => simp [GrammarDraft.build_of_defect found]
      | none => simp [GrammarDraft.build_of_sound found]
    rw [accepts_iff, defects, objections_iff, firstFlaw_eq_none_iff, definesLhs_entries_iff]
    simp only [Production.definesLhs_iff]
    constructor
    · rintro ⟨⟨once, known, wired, idsLeft⟩, ⟨lhs, labels, -, wirings⟩, complete⟩
      exact {
        once, known, idsLeft, lhs, labels, wirings
        arity := fun call member production nodes eq => (wired call member production nodes eq).1
        stands := fun call member production nodes eq => (wired call member production nodes eq).2
        start_defined := started_iff.1 complete.start_defined
        node_defined := complete.node_defined }
    · intro describable
      refine ⟨⟨describable.once, describable.known, ?_, describable.idsLeft⟩,
        ⟨describable.lhs, describable.labels, fun _ _ => List.not_mem_nil, describable.wirings⟩,
        started_iff.2 describable.start_defined, describable.node_defined⟩
      exact fun call member production nodes eq =>
        ⟨describable.arity call member production nodes eq,
          describable.stands call member production nodes eq⟩
  · intro context id
    cases flaw : firstFlaw? [] (GrammarDraft.run { start } script).entries with
    | some defect =>
      have refused := coherent.assemble_of_flaw flaw
      rw [started] at refused
      rw [refused]
      rintro ⟨⟩
      exact firstFlaw_ne_unknownNode flaw
    | none =>
      have outcome := coherent.assemble_of_flawless flaw
      rw [started] at outcome
      rcases outcome with ⟨-, g, accepted⟩ | ⟨-, symbol, refused⟩
      · rw [accepted]
        rintro ⟨⟩
      · rw [refused]
        rintro ⟨⟩

end Grammar

end Scannerless
