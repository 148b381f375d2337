import Scannerless.Proofs.Derivation
import Scannerless.Proofs.ListLabels
import Scannerless.Proofs.WellFormed

/-!
# Implied list productions

The productions of a grammar are those that its script registers, in order, and one for each list
symbol that is left open: one that some node stands for and that none of the registered productions
defines (`Grammar.LeftOpen`). However often a list symbol is used, and whatever it is nested in, it
is given one production, wired to the parts of the first of its nodes.

Assembly adds nothing to the nodes but their successors (`Grammar.plain_nodes_of_script`), so what
the draft says of its nodes can be said of those of the grammar.
-/

namespace Scannerless

/-- A node that knows of no production yet. -/
def StackNode.plain (node : StackNode) : StackNode :=
  { node with successors := ∅ }

/-- The production that a call wires to nodes. -/
def Declaration.wires? : Declaration → Option WiredProduction
  | .wired added nodes => some ⟨added, nodes⟩
  | _ => none

/-- The productions that a declaration registers. -/
def Declaration.productions : Declaration → List Production
  | .wired added _ => [added]
  | .production added => [added]
  | .rule head bodies => bodies.map (RuleBody.production head)
  | _ => []

/-! ## Registered productions -/

namespace GrammarDraft

mutual

/-- No production is wired on the way to a node. -/
theorem filterMap_nodeSteps (draft : GrammarDraft) : ∀ symbol : Symbol,
    (draft.nodeSteps symbol).filterMap Declaration.wires? = []
  | .list element separators repetition => by
    rw [nodeSteps]
    dsimp only
    rw [List.filterMap_append, List.filterMap_append, filterMap_nodeSteps draft element,
      filterMap_nodesSteps _ separators]
    rfl
  | .literal text => by
    rw [nodeSteps]
    rfl
  | .charClass cls => by
    rw [nodeSteps]
    rfl
  | .nonTerminal name => by
    rw [nodeSteps]
    rfl

theorem filterMap_nodesSteps (draft : GrammarDraft) : ∀ symbols : List Symbol,
    (draft.nodesSteps symbols).filterMap Declaration.wires? = []
  | [] => by
    rw [nodesSteps]
    rfl
  | symbol :: rest => by
    rw [nodesSteps, List.filterMap_append, filterMap_nodeSteps draft symbol,
      filterMap_nodesSteps _ rest]
    rfl

end

theorem filterMap_productionSteps (draft : GrammarDraft) (production : Production) :
    (draft.productionSteps production).filterMap Declaration.wires? =
      [⟨production, (draft.nodesFor production.rhs).1⟩] := by
  rw [productionSteps, List.filterMap_append, filterMap_nodesSteps]
  rfl

theorem map_production_productionsSteps (draft : GrammarDraft) (productions : List Production) :
    ((draft.productionsSteps productions).filterMap Declaration.wires?).map
      WiredProduction.production = productions := by
  induction productions generalizing draft with
  | nil => rfl
  | cons production rest ih =>
    rw [productionsSteps, List.filterMap_append, filterMap_productionSteps, List.map_append, ih]
    rfl

theorem map_production_steps (draft : GrammarDraft) (declaration : Declaration) :
    ((draft.steps declaration).filterMap Declaration.wires?).map WiredProduction.production =
      declaration.productions := by
  cases declaration with
  | node symbol =>
    rw [steps, filterMap_nodeSteps]
    rfl
  | production production =>
    rw [steps, filterMap_productionSteps]
    rfl
  | rule head bodies => exact draft.map_production_productionsSteps _
  | _ => rfl

/-- The calls of a script wire the productions that its declarations register, in order. -/
theorem map_production_spelledOut (draft : GrammarDraft) (script : List Declaration) :
    ((draft.spelledOut script).filterMap Declaration.wires?).map WiredProduction.production =
      script.flatMap Declaration.productions := by
  induction script generalizing draft with
  | nil => rfl
  | cons declaration rest ih =>
    rw [spelledOut, List.filterMap_append, List.map_append, map_production_steps, ih,
      List.flatMap_cons]

theorem added_of_accepted {call : ScriptCall} (accepted : call.objection? = none) :
    call.added = call.declaration.wires?.toList := by
  unfold ScriptCall.added Declaration.wires?
  rw [accepted]
  cases call.declaration <;> rfl

/-- If no call is objected to, the draft has the productions that the calls wire. -/
theorem prods_of_sound {start : Symbol} {script : List Declaration}
    (sound : (GrammarDraft.run { start } script).defect? = none) :
    (GrammarDraft.run { start } script).prods.toList =
      (GrammarDraft.spelledOut { start } script).filterMap Declaration.wires? := by
  rw [defect_run, Option.none_or, List.findSome?_eq_none_iff] at sound
  have declarations : (GrammarDraft.calls { start } script).map ScriptCall.declaration =
      GrammarDraft.spelledOut { start } script := map_declaration_history _ _
  calc (GrammarDraft.run { start } script).prods.toList
      = (GrammarDraft.calls { start } script).flatMap ScriptCall.added :=
        (effect_run script).prods_eq
    _ = (GrammarDraft.calls { start } script).flatMap fun call => call.declaration.wires?.toList :=
        List.flatMap_congr fun call member => added_of_accepted (sound call member)
    _ = (GrammarDraft.spelledOut { start } script).filterMap Declaration.wires? := by
        rw [← declarations, List.filterMap_map, List.filterMap_eq_flatMap_toList]
        rfl

/-! ## Implied productions -/

/-- An implied production is wired to the parts of the first node that stands for its symbol. -/
theorem exists_first_of_mem_impliedBy {entry : WiredProduction} {nodes : List StackNode} :
    ∀ {defined : Std.TreeSet Symbol}, entry ∈ impliedBy defined nodes →
      ∃ before node after, nodes = before ++ node :: after ∧
        Production.forListSymbol? node.symbol = some entry.production ∧
        entry.wiring = node.parts ∧ ∀ earlier ∈ before, earlier.symbol ≠ node.symbol := by
  induction nodes with
  | nil =>
    intro defined member
    cases member
  | cons first rest ih =>
    -- A production that is implied by a later node is not that of the first one.
    have later {defined : Std.TreeSet Symbol} (inRest : entry ∈ impliedBy defined rest)
        (differs : entry.production.lhs ≠ first.symbol) :
        ∃ before node after, first :: rest = before ++ node :: after ∧
          Production.forListSymbol? node.symbol = some entry.production ∧
          entry.wiring = node.parts ∧ ∀ earlier ∈ before, earlier.symbol ≠ node.symbol := by
      obtain ⟨before, node, after, rfl, found, wiring, others⟩ := ih inRest
      refine ⟨first :: before, node, after, rfl, found, wiring, ?_⟩
      rw [(Production.of_forListSymbol found).2.1] at differs
      exact List.forall_mem_cons.2 ⟨differs.symm, others⟩
    have open_ {defined : Std.TreeSet Symbol} (inRest : entry ∈ impliedBy defined rest) :
        entry.production.lhs.isList = true ∧ entry.production.lhs ∉ defined := by
      have listed := mem_lhs_impliedBy_iff.1 (List.mem_map_of_mem inRest)
      exact ⟨listed.1, listed.2.1⟩
    intro defined member
    rw [impliedBy] at member
    split at member
    · next notList =>
      refine later member fun same => ?_
      have list := (open_ member).1
      rw [same, Production.forListSymbol_eq_none_iff.1 notList] at list
      cases list
    · next production found =>
      split at member
      · next known =>
        refine later member fun same => (open_ member).2 ?_
        rw [same]
        exact Std.TreeSet.mem_iff_contains.2 known
      · rcases List.mem_cons.1 member with rfl | inRest
        · exact ⟨[], first, rest, rfl, found, rfl, fun _ none_ => absurd none_ List.not_mem_nil⟩
        · refine later inRest fun same => (open_ inRest).2 ?_
          rw [same]
          exact Std.TreeSet.mem_insert_self

/-- The nodes of a draft are listed by increasing ids. -/
theorem Coherent.increasing_values {draft : GrammarDraft} (coherent : draft.Coherent) :
    draft.nodes.values.Pairwise fun first second => first.id < second.id := by
  rw [values_eq, List.pairwise_map]
  refine Std.TreeMap.ordered_keys_toList.imp_of_mem fun {first second} member memberToo less => ?_
  rw [coherent.id_eq _ _ (Std.TreeMap.mem_toList_iff_getElem?_eq_some.1 member),
    coherent.id_eq _ _ (Std.TreeMap.mem_toList_iff_getElem?_eq_some.1 memberToo)]
  exact Nat.compare_eq_lt.1 less

/-- An implied production is wired to the parts of the node with the lowest id that stands for its
symbol. -/
theorem Coherent.exists_lowest {draft : GrammarDraft} (coherent : draft.Coherent)
    {entry : WiredProduction} (member : entry ∈ draft.implied) :
    ∃ node : StackNode, draft.nodes[node.id]? = some node ∧
      Production.forListSymbol? node.symbol = some entry.production ∧
      entry.wiring = node.parts ∧
      ∀ id, draft.symbolAt? id = some node.symbol → node.id ≤ id := by
  obtain ⟨before, node, after, values, found, wiring, first⟩ := exists_first_of_mem_impliedBy member
  have inValues : node ∈ draft.nodes.values :=
    values ▸ List.mem_append_right _ List.mem_cons_self
  obtain ⟨id, atId⟩ := mem_values_iff.1 inValues
  obtain rfl := coherent.id_eq id node atId
  refine ⟨node, atId, found, wiring, fun other stands => ?_⟩
  obtain ⟨otherNode, atOther, same⟩ := Option.map_eq_some_iff.1 stands
  obtain rfl := coherent.id_eq other otherNode atOther
  have increasing := coherent.increasing_values
  have otherInValues := mem_values_iff.2 ⟨_, atOther⟩
  rw [values] at increasing otherInValues
  rcases List.mem_append.1 otherInValues with earlier | later
  · exact absurd same (first otherNode earlier)
  · rcases List.mem_cons.1 later with rfl | after_
    · exact Nat.le_refl _
    · have below := (List.pairwise_cons.1 (List.pairwise_append.1 increasing).2.1).1
      exact Nat.le_of_lt (below otherNode after_)

end GrammarDraft

/-! ## Assembly -/

namespace Grammar

theorem plain_connect {prod : ProdId} {entry : WiredProduction} :
    ∀ {ids : List NodeId} {start : Nat} {nodes connected : Std.TreeMap NodeId StackNode},
      connect prod entry start ids nodes = .ok connected →
      ∀ id : NodeId, connected[id]?.map StackNode.plain = nodes[id]?.map StackNode.plain
  | [], start, nodes, connected, done, id => by
    cases done
    rfl
  | head :: tail, start, nodes, connected, done, id => by
    rw [connect] at done
    split at done
    · cases done
    · next first atHead =>
      rw [plain_connect done id, Std.TreeMap.getElem?_insert]
      split
      · next same =>
        rw [← Std.LawfulEqOrd.eq_of_compare same, atHead]
        rfl
      · rfl

/-- Registering a production appends it to the others, and changes nodes in their successors
only. -/
theorem register_keeps {g extended : Grammar} {entry : WiredProduction}
    (registered : g.register entry = .ok extended) :
    extended.prods = g.prods.push entry ∧
      ∀ id, (extended.node? id).map StackNode.plain = (g.node? id).map StackNode.plain := by
  unfold Grammar.register at registered
  dsimp only at registered
  split at registered
  · cases registered
  split at registered
  · cases registered
  split at registered
  · cases registered
  split at registered
  · cases registered
  next nodes connected =>
  cases registered
  exact ⟨rfl, plain_connect connected⟩

theorem prods_foldlM_register {entries : List WiredProduction} :
    ∀ {g assembled : Grammar}, entries.foldlM Grammar.register g = .ok assembled →
      assembled.prods.toList = g.prods.toList ++ entries := by
  induction entries with
  | nil =>
    intro g assembled done
    cases done
    exact (List.append_nil _).symm
  | cons entry rest ih =>
    intro g assembled done
    rw [List.foldlM_cons] at done
    cases registered : g.register entry with
    | error defect =>
      rw [registered] at done
      cases done
    | ok extended =>
      rw [registered] at done
      rw [ih done, (register_keeps registered).1, Array.toList_push, List.append_assoc]
      rfl

variable {start : Symbol} {script : List Declaration} {g : Grammar}

theorem defect_of_script (built : (Grammar.ofScript start script).value = .ok g) :
    (GrammarDraft.run { start } script).defect? = none := by
  cases found : (GrammarDraft.run { start } script).defect? with
  | none => rfl
  | some defect =>
    have refused : (Grammar.ofScript start script).value = .error defect :=
      GrammarDraft.build_of_defect found
    cases built.symm.trans refused

/-- The productions of a grammar are those of its draft. -/
theorem toList_prods_of_script (built : (Grammar.ofScript start script).value = .ok g) :
    g.prods.toList = (GrammarDraft.run { start } script).entries :=
  prods_foldlM_register (registered_of_script built).1

/-- The nodes of a grammar are those of its draft, but for their successors. -/
theorem plain_nodes_of_script (built : (Grammar.ofScript start script).value = .ok g)
    (id : NodeId) : (g.node? id).map StackNode.plain =
      (GrammarDraft.run { start } script).nodes[id]? := by
  have coherent := (GrammarDraft.Coherent.start start).run script
  have kept : ∀ id, (g.node? id).map StackNode.plain =
      (GrammarDraft.run { start } script).nodes[id]?.map StackNode.plain := by
    refine foldlM_register_keeps (fun now => ∀ id, (now.node? id).map StackNode.plain =
      (GrammarDraft.run { start } script).nodes[id]?.map StackNode.plain) ?_ (fun id => rfl)
      (registered_of_script built).1
    exact fun entry _ now extended before registered id =>
      ((register_keeps registered).2 id).trans (before id)
  rw [kept id]
  cases found : (GrammarDraft.run { start } script).nodes[id]? with
  | none => rfl
  | some node =>
    have bare := coherent.bare id node found
    rw [Option.map_some, StackNode.plain, ← bare]

theorem symbolAt_of_script (built : (Grammar.ofScript start script).value = .ok g) :
    g.symbolAt? = (GrammarDraft.run { start } script).symbolAt? := by
  funext id
  unfold GrammarDraft.symbolAt?
  rw [← plain_nodes_of_script built id, Option.map_map]
  rfl

/-! ## List symbols left open -/

/-- A list symbol that some node stands for and none of the productions defines. -/
structure LeftOpen (g : Grammar) (registered : List WiredProduction) (symbol : Symbol) : Prop where
  list : symbol.isList = true
  stands : ∃ id, g.symbolAt? id = some symbol
  undefined : ∀ entry ∈ registered, entry.production.lhs ≠ symbol

theorem implies_iff (built : (Grammar.ofScript start script).value = .ok g) {symbol : Symbol} :
    (GrammarDraft.run { start } script).Implies symbol ↔
      g.LeftOpen (GrammarDraft.run { start } script).prods.toList symbol := by
  have stands : (∃ node ∈ (GrammarDraft.run { start } script).nodes.values,
      node.symbol = symbol) ↔ ∃ id, g.symbolAt? id = some symbol := by
    rw [symbolAt_of_script built]
    unfold GrammarDraft.symbolAt?
    simp only [GrammarDraft.mem_values_iff, Option.map_eq_some_iff]
    exact ⟨fun ⟨node, ⟨id, found⟩, same⟩ => ⟨id, node, found, same⟩,
      fun ⟨id, node, found, same⟩ => ⟨node, ⟨id, found⟩, same⟩⟩
  exact ⟨fun implies => ⟨implies.list, stands.1 implies.node, implies.undefined⟩,
    fun leftOpen => ⟨leftOpen.list, stands.2 leftOpen.stands, leftOpen.undefined⟩⟩

/-- The one production of a list symbol that is left open: its list production, wired to the parts
of its node with the lowest id. -/
structure DefinedOnce (g : Grammar) (symbol : Symbol) (p : ProdId) (node : StackNode) : Prop where
  isNode : g.node? node.id = some node
  symbol_eq : node.symbol = symbol
  lowest : ∀ id, g.symbolAt? id = some symbol → node.id ≤ id
  parts : node.parts.map g.symbolAt? = symbol.parts.map some
  listed : ∃ production, Production.forListSymbol? symbol = some production ∧
    g.prod? p = some ⟨production, node.parts⟩
  only : ∀ {q : ProdId} {entry : WiredProduction}, g.prod? q = some entry →
    entry.production.lhs = symbol → q = p
  prodsFor_eq : g.prodsFor symbol = [p]

/-- A symbol that is left open is defined at one place only: none of the registered productions
defines it, and the implied ones define different symbols. -/
theorem LeftOpen.place_unique (built : (Grammar.ofScript start script).value = .ok g)
    {symbol : Symbol}
    (leftOpen : g.LeftOpen (GrammarDraft.run { start } script).prods.toList symbol)
    {p q : ProdId} {entry other : WiredProduction} (found : g.prod? p = some entry)
    (lhs : entry.production.lhs = symbol) (foundToo : g.prod? q = some other)
    (lhsToo : other.production.lhs = symbol) : q = p := by
  let registered := (GrammarDraft.run { start } script).prods.toList
  let implied := (GrammarDraft.run { start } script).implied
  have entries : g.prods.toList = registered ++ implied := toList_prods_of_script built
  have place {r : ProdId} {entry : WiredProduction} (found : g.prod? r = some entry)
      (lhs : entry.production.lhs = symbol) : registered.length ≤ r ∧
        (implied.map fun entry => entry.production.lhs)[r - registered.length]? = some symbol := by
    unfold prod? at found
    rw [← Array.getElem?_toList, entries] at found
    have late : registered.length ≤ r := by
      by_contra early
      rw [List.getElem?_append_left (Nat.lt_of_not_le early)] at found
      exact leftOpen.undefined entry (List.mem_of_getElem? found) lhs
    rw [List.getElem?_append_right late] at found
    rw [List.getElem?_map, found, Option.map_some, lhs]
    exact ⟨late, rfl⟩
  obtain ⟨late, at_⟩ := place found lhs
  obtain ⟨lateToo, atToo⟩ := place foundToo lhsToo
  have bound := (List.getElem?_eq_some_iff.1 atToo).1
  have nodup : (implied.map fun entry => entry.production.lhs).Nodup :=
    GrammarDraft.nodup_lhs_impliedBy
  have same := (List.getElem?_inj bound nodup).1 (atToo.trans at_.symm)
  rw [← Nat.sub_add_cancel late, ← same, Nat.sub_add_cancel lateToo]

theorem LeftOpen.exists_definedOnce (built : (Grammar.ofScript start script).value = .ok g)
    {symbol : Symbol}
    (leftOpen : g.LeftOpen (GrammarDraft.run { start } script).prods.toList symbol) :
    ∃ p node, g.DefinedOnce symbol p node := by
  have wired := Wired.of_script built
  have coherent := (GrammarDraft.Coherent.start start).run script
  obtain ⟨entry, member, lhs⟩ := List.mem_map.1
    (GrammarDraft.mem_lhs_implied_iff.2 ((implies_iff built).2 leftOpen))
  obtain ⟨bare, inDraft, found, wiring, lowest⟩ := coherent.exists_lowest member
  obtain rfl : bare.symbol = symbol := (Production.of_forListSymbol found).2.1.symm.trans lhs
  rw [← plain_nodes_of_script built] at inDraft
  obtain ⟨node, isNode, rfl⟩ := Option.map_eq_some_iff.1 inDraft
  have wiring : entry.wiring = node.parts := wiring
  obtain ⟨p, atPlace⟩ : ∃ p, g.prod? p = some entry := by
    unfold prod?
    simp only [← Array.getElem?_toList, toList_prods_of_script built]
    exact List.mem_iff_getElem?.1 (List.mem_append_right _ member)
  have only {q : ProdId} {other : WiredProduction} (foundToo : g.prod? q = some other)
      (lhsToo : other.production.lhs = node.plain.symbol) : q = p :=
    leftOpen.place_unique built atPlace lhs foundToo lhsToo
  refine ⟨p, node, {
    isNode, only
    symbol_eq := rfl
    lowest := by rwa [symbolAt_of_script built]
    parts := ?_
    listed := ⟨entry.production, found, wiring ▸ atPlace⟩
    prodsFor_eq := ?_ }⟩
  · rw [← GrammarDraft.Production.rhs_of_forListSymbol found, ← wiring]
    exact wired.fits atPlace
  · refine ((Numbered.of_script built).ascending _).eq_of_mem_iff (List.pairwise_singleton _ _) ?_
    intro q
    rw [wired.mem_prodsFor, List.mem_singleton]
    constructor
    · rintro ⟨other, foundToo, lhsToo⟩
      exact only foundToo lhsToo
    · rintro rfl
      exact ⟨entry, atPlace, lhs⟩

/-- A symbol that is defined once derives what its list production stands for. -/
theorem DefinedOnce.derives_iff {symbol : Symbol} {p : ProdId} {node : StackNode}
    (defined : g.DefinedOnce symbol p node) {production : Production}
    (found : Production.forListSymbol? symbol = some production) {text : List Char} :
    g.Derives [symbol] text ↔ ∃ body, production.Expands body ∧ g.Derives body text := by
  obtain ⟨sole, foundToo, atPlace⟩ := defined.listed
  obtain rfl := Option.some.inj (foundToo.symm.trans found)
  obtain ⟨list, lhs, -⟩ := Production.of_forListSymbol found
  constructor
  · intro derives
    generalize symbols_eq : [symbol] = symbols at derives
    cases derives with
    | nil => cases symbols_eq
    | literal =>
      cases symbols_eq
      cases list
    | charClass =>
      cases symbols_eq
      cases list
    | @production q entry body rest _ more foundHere expands derivesBody derivesRest =>
      obtain ⟨symbol_eq, rfl⟩ := List.cons.inj symbols_eq
      cases derivesRest
      obtain rfl := defined.only foundHere symbol_eq.symm
      cases atPlace.symm.trans foundHere
      rw [List.append_nil]
      exact ⟨body, expands, derivesBody⟩
  · rintro ⟨body, expands, derivesBody⟩
    have derives := Derives.production atPlace expands derivesBody .nil
    rwa [lhs, List.append_nil] at derives

/-- The productions of a grammar are those that the calls of its script wire, which are those that
its declarations register, in order, and then one for each list symbol that is left open, wired to
the parts of the node with the lowest id that stands for it. So such a symbol derives just what its
list production stands for, however often it is used. -/
theorem lists_defined_once (built : (Grammar.ofScript start script).value = .ok g) :
    ∃ registered implied : List WiredProduction,
      g.prods.toList = registered ++ implied ∧
      registered = (GrammarDraft.spelledOut { start } script).filterMap Declaration.wires? ∧
      registered.map WiredProduction.production = script.flatMap Declaration.productions ∧
      (∀ symbol, g.LeftOpen registered symbol → ∃ p node, g.DefinedOnce symbol p node) ∧
      (∀ entry ∈ implied, g.LeftOpen registered entry.production.lhs) ∧
      ∀ symbol production text, g.LeftOpen registered symbol →
        Production.forListSymbol? symbol = some production →
        (g.Derives [symbol] text ↔ ∃ body, production.Expands body ∧ g.Derives body text) := by
  have registered := GrammarDraft.prods_of_sound (defect_of_script built)
  refine ⟨(GrammarDraft.run { start } script).prods.toList,
    (GrammarDraft.run { start } script).implied, toList_prods_of_script built, registered, ?_,
    fun symbol leftOpen => leftOpen.exists_definedOnce built, fun entry member => ?_,
    fun symbol production text leftOpen found => ?_⟩
  · rw [registered]
    exact GrammarDraft.map_production_spelledOut _ script
  · exact (implies_iff built).1
      (GrammarDraft.mem_lhs_implied_iff.1 (List.mem_map_of_mem member))
  · obtain ⟨p, node, defined⟩ := leftOpen.exists_definedOnce built
    exact defined.derives_iff found

/-- Any number of letters `x` with commas between them. -/
def separatedLetters : Symbol :=
  .list (.literal "x") [.literal ","] .star

/-- A rule that uses one list symbol three times, and once more within another list. -/
def repeatedLists : List Declaration :=
  [.rule (.nonTerminal "S")
    [.sequence "One" [separatedLetters] [],
      .sequence "Two" [separatedLetters, .literal ";", separatedLetters] [],
      .sequence "Nested" [.list separatedLetters [] .plus] []]]

/-- The list symbol is defined once. -/
theorem lists_defined_once_repeated : ∃ g : Grammar,
    (Grammar.ofScript (.nonTerminal "S") repeatedLists).value = .ok g ∧
      ∃ p, g.prodsFor separatedLetters = [p] := by
  obtain ⟨g, built, tested⟩ := exists_of_script (.nonTerminal "S") repeatedLists
    (fun g => decide ((g.node? 2).map StackNode.symbol = some separatedLetters)) (by decide +kernel)
  obtain ⟨registered, implied, -, -, productions, once, -⟩ := lists_defined_once built
  have said : ∀ production ∈ repeatedLists.flatMap Declaration.productions,
      production.lhs = .nonTerminal "S" := by decide
  have leftOpen : g.LeftOpen registered separatedLetters := by
    refine ⟨rfl, ⟨2, of_decide_eq_true tested⟩, fun entry member lhs => ?_⟩
    have listed : entry.production ∈ repeatedLists.flatMap Declaration.productions :=
      productions ▸ List.mem_map_of_mem member
    cases (said _ listed).symm.trans lhs
  obtain ⟨p, node, defined⟩ := once separatedLetters leftOpen
  exact ⟨g, built, p, defined.prodsFor_eq⟩

end Grammar

end Scannerless
