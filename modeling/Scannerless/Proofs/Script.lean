import Scannerless.Grammar.Script

/-!
# Coherent drafts

What every script keeps true of its draft, whether or not it has a defect. A node stands under its
own id and knows of no production yet; the parts of a list node stand for the parts of its symbol;
and the nodes wired to a production stand for its right-hand side.

`GrammarDraft.Coherent.run` carries the invariant through a script, and
`GrammarDraft.Coherent.entries` hands it on to all productions that are assembled, the implied list
productions included.
-/

namespace Scannerless

/-- The nodes wired to the production stand for its right-hand side. -/
def WiredProduction.Fits (symbolAt? : NodeId → Option Symbol) (entry : WiredProduction) : Prop :=
  entry.wiring.map symbolAt? = entry.production.rhs.map some

theorem map_eq_of_kept {before after : NodeId → Option Symbol} {ids : List NodeId}
    {symbols : List Symbol} (stand : ids.map before = symbols.map some)
    (kept : ∀ id symbol, before id = some symbol → after id = some symbol) :
    ids.map after = symbols.map some := by
  rw [← stand]
  apply List.map_congr_left
  intro id member
  have stands : before id ∈ symbols.map some := stand ▸ List.mem_map_of_mem member
  obtain ⟨symbol, -, eq⟩ := List.mem_map.1 stands
  rw [← eq]
  exact kept id symbol eq.symm

namespace GrammarDraft

/-- The symbol that the node under an id stands for. -/
def symbolAt? (draft : GrammarDraft) (id : NodeId) : Option Symbol :=
  draft.nodes[id]?.map StackNode.symbol

/-- What holds of a draft after any script. -/
structure Coherent (draft : GrammarDraft) : Prop where
  id_eq : ∀ (id : NodeId) (node : StackNode), draft.nodes[id]? = some node → node.id = id
  bare : ∀ (id : NodeId) (node : StackNode), draft.nodes[id]? = some node → node.successors = ∅
  parts : ∀ (id : NodeId) (node : StackNode), draft.nodes[id]? = some node →
    node.parts.map draft.symbolAt? = node.symbol.parts.map some
  prods : ∀ entry ∈ draft.prods.toList, entry.Fits draft.symbolAt?

theorem Coherent.start (start : Symbol) : Coherent { start } where
  id_eq id node found := by simp at found
  bare id node found := by simp at found
  parts id node found := by simp at found
  prods entry member := by simp at member

/-! ## Nodes -/

variable {draft : GrammarDraft}

theorem Coherent.report (coherent : draft.Coherent) (defect : Defect) :
    (draft.report defect).Coherent :=
  ⟨coherent.id_eq, coherent.bare, coherent.parts, coherent.prods⟩

theorem Coherent.freshId (coherent : draft.Coherent) : draft.freshId.2.Coherent := by
  unfold GrammarDraft.freshId
  split
  · exact ⟨coherent.id_eq, coherent.bare, coherent.parts, coherent.prods⟩
  · exact coherent.report _

/-- The draft with a node put under an id that is not in use. -/
theorem Coherent.insert (coherent : draft.Coherent) {id : NodeId} {symbol : Symbol}
    {parts : List NodeId} (unused : draft.nodes[id]? = none)
    (standing : parts.map draft.symbolAt? = symbol.parts.map some) (nextId : Nat) :
    Coherent { draft with
      nextId
      nodes := draft.nodes.insert id { id, symbol, parts } } := by
  have kept : ∀ other found, draft.symbolAt? other = some found →
      ((draft.nodes.insert id { id, symbol, parts })[other]?.map StackNode.symbol) =
        some found := by
    intro other found stands
    unfold symbolAt? at stands
    rw [Std.TreeMap.getElem?_insert]
    split
    · next same =>
      rw [← Std.LawfulEqOrd.eq_of_compare same, unused] at stands
      cases stands
    · exact stands
  have cases_of_found : ∀ other node,
      (draft.nodes.insert id { id, symbol, parts })[other]? = some node →
        (other = id ∧ node = { id, symbol, parts }) ∨ draft.nodes[other]? = some node := by
    intro other node found
    rw [Std.TreeMap.getElem?_insert] at found
    split at found
    · next same =>
      exact .inl ⟨(Std.LawfulEqOrd.eq_of_compare same).symm, (Option.some.inj found).symm⟩
    · exact .inr found
  constructor
  · intro other node found
    rcases cases_of_found other node found with ⟨rfl, rfl⟩ | old
    · rfl
    · exact coherent.id_eq other node old
  · intro other node found
    rcases cases_of_found other node found with ⟨rfl, rfl⟩ | old
    · rfl
    · exact coherent.bare other node old
  · intro other node found
    rcases cases_of_found other node found with ⟨rfl, rfl⟩ | old
    · exact map_eq_of_kept standing kept
    · exact map_eq_of_kept (coherent.parts other node old) kept
  · intro entry member
    exact map_eq_of_kept (coherent.prods entry member) kept

theorem Coherent.addNode (coherent : draft.Coherent) (id : NodeId) {symbol : Symbol}
    {parts : List NodeId} (standing : parts.map draft.symbolAt? = symbol.parts.map some) :
    (draft.addNode id symbol parts).Coherent := by
  unfold GrammarDraft.addNode
  dsimp only
  split
  · have raised : Coherent { draft with nextId := max draft.nextId (id + 1) } :=
      ⟨coherent.id_eq, coherent.bare, coherent.parts, coherent.prods⟩
    exact raised.report _
  · next unused =>
    have unused : draft.nodes[id]? = none := by
      rw [Std.TreeMap.contains_eq_isSome_getElem?] at unused
      simpa using unused
    exact coherent.insert unused standing _

/-- The symbols found for ids are those that their nodes stand for. -/
theorem symbolsOf_eq_ok_iff : ∀ {ids : List NodeId} {symbols : List Symbol},
    draft.symbolsOf ids = .ok symbols ↔ ids.map draft.symbolAt? = symbols.map some
  | [], symbols => by
    rw [symbolsOf, Except.ok.injEq, List.map_nil, eq_comm, @eq_comm _ [], List.map_eq_nil_iff]
  | id :: rest, symbols => by
    rw [symbolsOf, List.map_cons, symbolAt?]
    cases draft.nodes[id]? with
    | none =>
      cases symbols with
      | nil => simp
      | cons symbol others => simp
    | some node =>
      have inRest : ∀ {others : List Symbol}, draft.symbolsOf rest = .ok others ↔
          rest.map draft.symbolAt? = others.map some := symbolsOf_eq_ok_iff
      cases symbols with
      | nil => cases draft.symbolsOf rest <;> simp
      | cons symbol others =>
        rw [Option.map_some, List.map_cons, List.cons.injEq, Option.some.injEq, ← inRest]
        cases draft.symbolsOf rest with
        | error missing => simp
        | ok found => simp

theorem Coherent.addList (coherent : draft.Coherent) (id element : NodeId)
    (separators : List NodeId) (repetition : Repetition) :
    (draft.addList id element separators repetition).Coherent := by
  unfold GrammarDraft.addList
  split
  · exact coherent.report _
  · exact coherent
  · next elementSymbol separatorSymbols found =>
    exact coherent.addNode id (symbolsOf_eq_ok_iff.1 found)

mutual

theorem Coherent.nodeFor {draft : GrammarDraft} (coherent : draft.Coherent) :
    ∀ symbol : Symbol, (draft.nodeFor symbol).2.Coherent
  | .list element separators repetition => by
    rw [GrammarDraft.nodeFor]
    exact ((coherent.nodeFor element).nodesFor separators).freshId.addList _ _ _ _
  | .literal text => by
    rw [GrammarDraft.nodeFor]
    exact coherent.freshId.addNode _ rfl
  | .charClass cls => by
    rw [GrammarDraft.nodeFor]
    exact coherent.freshId.addNode _ rfl
  | .nonTerminal name => by
    rw [GrammarDraft.nodeFor]
    exact coherent.freshId.addNode _ rfl

theorem Coherent.nodesFor {draft : GrammarDraft} (coherent : draft.Coherent) :
    ∀ symbols : List Symbol, (draft.nodesFor symbols).2.Coherent
  | [] => by
    rw [GrammarDraft.nodesFor]
    exact coherent
  | symbol :: rest => by
    rw [GrammarDraft.nodesFor]
    exact (coherent.nodeFor symbol).nodesFor rest

end

/-! ## Productions -/

/-- Nodes pass the check just if they stand for the symbols that they are checked against. -/
theorem misfit_eq_none_iff {draft : GrammarDraft} {label : String} :
    ∀ {index : Nat} {ids : List NodeId} {symbols : List Symbol}, symbols.length = ids.length →
      (draft.misfit? label index ids symbols = none ↔
        ids.map draft.symbolAt? = symbols.map some)
  | _, [], [], _ => by simp [misfit?]
  | _, [], _ :: _, length => by simp at length
  | _, _ :: _, [], length => by simp at length
  | index, id :: ids, expected :: rest, length => by
    have others : draft.misfit? label (index + 1) ids rest = none ↔
        ids.map draft.symbolAt? = rest.map some := misfit_eq_none_iff (by simpa using length)
    rw [misfit?, List.map_cons, List.map_cons, List.cons.injEq]
    unfold symbolAt? at *
    cases draft.nodes[id]? with
    | none => simp
    | some node =>
      dsimp only [Option.map_some]
      split
      · next stands => simpa [stands] using others
      · next other => simp [other]

theorem wiringDefect_eq_none_iff {production : Production} {nodes : List NodeId} :
    draft.wiringDefect? production nodes = none ↔
      nodes.length = production.arity ∧
        nodes.map draft.symbolAt? = production.rhs.map some := by
  unfold wiringDefect?
  split
  · next arity => rw [misfit_eq_none_iff arity, arity, eq_self_iff_true, true_and]
  · next arity =>
    constructor
    · intro none_
      cases none_
    · rintro ⟨length, -⟩
      exact absurd length.symm arity

theorem Coherent.wire (coherent : draft.Coherent) (production : Production)
    (nodes : List NodeId) : (draft.wire production nodes).Coherent := by
  unfold GrammarDraft.wire
  split
  · exact coherent.report _
  · next passed =>
    refine ⟨coherent.id_eq, coherent.bare, coherent.parts, fun entry member => ?_⟩
    rw [Array.toList_push, List.mem_append, List.mem_singleton] at member
    rcases member with old | rfl
    · exact coherent.prods entry old
    · exact (wiringDefect_eq_none_iff.1 passed).2

theorem Coherent.addProduction (coherent : draft.Coherent) (production : Production) :
    (draft.addProduction production).Coherent :=
  (coherent.nodesFor production.rhs).wire production _

theorem Coherent.addRule (coherent : draft.Coherent) (head : Symbol) (bodies : List RuleBody) :
    (draft.addRule head bodies).Coherent := by
  unfold GrammarDraft.addRule
  induction bodies generalizing draft with
  | nil => exact coherent
  | cons body rest ih => exact ih (coherent.addProduction _)

/-! ## Scripts -/

theorem Coherent.declare (coherent : draft.Coherent) (declaration : Declaration) :
    (draft.declare declaration).2.Coherent := by
  cases declaration with
  | literal id text => exact coherent.addNode id rfl
  | charClass id ranges => exact coherent.addNode id rfl
  | nonTerminal id name => exact coherent.addNode id rfl
  | separatedList id element separators repetition =>
    exact coherent.addList id element separators repetition
  | node symbol => exact coherent.nodeFor symbol
  | fresh => exact coherent.freshId
  | wired production nodes => exact coherent.wire production nodes
  | production production => exact coherent.addProduction production
  | rule head bodies => exact coherent.addRule head bodies

/-- Every script keeps its draft coherent. -/
theorem Coherent.run (coherent : draft.Coherent) (script : List Declaration) :
    (draft.run script).Coherent := by
  unfold GrammarDraft.run
  induction script generalizing draft with
  | nil => exact coherent
  | cons declaration rest ih => exact ih (coherent.declare declaration)

/-! ## Implied productions -/

/-- An implied production is wired to the parts of a list node. -/
theorem exists_node_of_mem_impliedBy {entry : WiredProduction} :
    ∀ {nodes : List StackNode} {defined : Std.TreeSet Symbol},
      entry ∈ impliedBy defined nodes → ∃ node ∈ nodes,
        Production.forListSymbol? node.symbol = some entry.production ∧ entry.wiring = node.parts
  | [], defined, member => by
    rw [impliedBy] at member
    cases member
  | node :: rest, defined, member => by
    have inRest : ∀ {defined : Std.TreeSet Symbol}, entry ∈ impliedBy defined rest →
        ∃ node' ∈ node :: rest, Production.forListSymbol? node'.symbol = some entry.production ∧
          entry.wiring = node'.parts := by
      intro defined member
      obtain ⟨found, inRest, implied⟩ := exists_node_of_mem_impliedBy member
      exact ⟨found, List.mem_cons_of_mem node inRest, implied⟩
    rw [impliedBy] at member
    split at member
    · exact inRest member
    · next production found =>
      split at member
      · exact inRest member
      · rcases List.mem_cons.1 member with rfl | later
        · exact ⟨node, List.mem_cons_self, found, rfl⟩
        · exact inRest later

/-- The list production of a symbol has the parts of the symbol on its right-hand side. -/
theorem Production.rhs_of_forListSymbol {symbol : Symbol} {production : Production}
    (found : Production.forListSymbol? symbol = some production) :
    production.rhs = symbol.parts := by
  unfold Production.forListSymbol? at found
  split at found
  · cases found
    rfl
  · cases found

theorem values_eq (nodes : Std.TreeMap NodeId StackNode) :
    nodes.values = nodes.toList.map Prod.snd := by
  rw [List.map_eq_foldr]
  exact Std.TreeMap.foldr_eq_foldr_toList

theorem mem_values_iff {nodes : Std.TreeMap NodeId StackNode} {node : StackNode} :
    node ∈ nodes.values ↔ ∃ id : NodeId, nodes[id]? = some node := by
  rw [values_eq, List.mem_map]
  constructor
  · rintro ⟨⟨id, _⟩, inList, rfl⟩
    exact ⟨id, Std.TreeMap.mem_toList_iff_getElem?_eq_some.1 inList⟩
  · rintro ⟨id, found⟩
    exact ⟨⟨id, node⟩, Std.TreeMap.mem_toList_iff_getElem?_eq_some.2 found, rfl⟩

/-- The nodes wired to any production that is assembled stand for its right-hand side. -/
theorem Coherent.entries (coherent : draft.Coherent) {entry : WiredProduction}
    (member : entry ∈ draft.entries) : entry.Fits draft.symbolAt? := by
  rcases List.mem_append.1 member with said | unsaid
  · exact coherent.prods entry said
  · obtain ⟨node, inNodes, found, wiring⟩ := exists_node_of_mem_impliedBy unsaid
    obtain ⟨id, atId⟩ := mem_values_iff.1 inNodes
    unfold WiredProduction.Fits
    rw [wiring, Production.rhs_of_forListSymbol found]
    exact coherent.parts id node atId

end GrammarDraft

end Scannerless
