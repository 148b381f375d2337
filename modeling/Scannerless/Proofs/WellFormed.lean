import Scannerless.Grammar.Example
import Scannerless.Proofs.ChartOrder
import Scannerless.Proofs.Slots

/-!
# Well-formed grammars

What recognition may rely on in every grammar that a script describes, whatever the order of its
declarations, whichever nodes its productions share, and whether its ids are given or made up.
`Grammar.WellFormed` says it of the grammar alone.

Three phases see to it: the checks of each declaration (`GrammarDraft.Coherent`), the productions
that are implied by list symbols, and assembly (`Grammar.Wired`). What is left for here is the order
in which things are listed, and the last check, that no symbol lacks productions.
-/

namespace Scannerless

/-- A list symbol is defined only by the list production with its own parts. -/
theorem Production.list_of_definesLhs {production : Production}
    (defines : production.definesLhs = true) {element : Symbol} {separators : List Symbol}
    {repetition : Repetition} (lhs : production.lhs = .list element separators repetition) :
    production.kind = .list repetition ∧ production.rhs = element :: separators := by
  unfold Production.definesLhs at defines
  rw [lhs] at defines
  cases kind : production.kind with
  | sequence =>
    rw [kind] at defines
    cases defines
  | list r =>
    rw [kind] at defines
    dsimp only at defines
    rw [Bool.and_eq_true, decide_eq_true_eq, decide_eq_true_eq] at defines
    rw [defines.1]
    exact ⟨rfl, defines.2⟩

/-! ## The order of successors -/

theorem StackNode.ascending_successorsIn (node : StackNode) (p : ProdId) :
    Ascending (node.successorsIn p) := by
  unfold StackNode.successorsIn
  split
  · exact ascending_toList _
  · exact List.Pairwise.nil

/-- Where a list may end or go on, that it ends comes first. -/
theorem WiredProduction.ascending_continuations {entry : WiredProduction} {index : Nat}
    {id : NodeId} (at_ : entry.wiring[index]? = some id) :
    Ascending (entry.continuations index) := by
  unfold WiredProduction.continuations
  cases entry.production.kind with
  | sequence => exact List.pairwise_singleton _ _
  | list repetition =>
    dsimp only
    split
    · cases wiring : entry.wiring with
      | nil =>
        rw [wiring] at at_
        cases at_
      | cons first rest =>
        refine List.pairwise_pair.2 ?_
        cases again : (first :: rest).drop (index + 1) with
        | nil => rfl
        | cons next others => rfl
    · exact List.pairwise_singleton _ _

namespace Grammar

/-- What a node knows may follow it in a production that it is wired to. -/
theorem Wired.successorsIn_eq {g : Grammar} (wired : g.Wired) {p : ProdId}
    {entry : WiredProduction} (found : g.prod? p = some entry) {index : Nat} {id : NodeId}
    {node : StackNode} (at_ : entry.wiring[index]? = some id) (isNode : g.node? id = some node) :
    node.successorsIn p = entry.continuations index := by
  have due : Dotted.next? g ⟨p, index⟩ = some node := by
    unfold Dotted.next? Grammar.nodeAt?
    rw [wiring_of_prod found, at_]
    exact isNode
  apply (node.ascending_successorsIn p).eq_of_mem_iff
    (WiredProduction.ascending_continuations at_)
  exact fun rest => wired.mem_successorsIn_of_next found due

/-! ## The order of productions -/

/-- The productions that define a symbol are listed in increasing order, and the next production
comes after all of them. -/
structure Numbered (g : Grammar) : Prop where
  ascending : ∀ symbol : Symbol, Ascending (g.prodsFor symbol)
  below : ∀ {symbol : Symbol} {p : ProdId}, p ∈ g.prodsFor symbol → p < g.prods.size

theorem register_eq {g extended : Grammar} {entry : WiredProduction}
    (registered : g.register entry = .ok extended) :
    extended.prods.size = g.prods.size + 1 ∧ ∀ symbol : Symbol, extended.prodsFor symbol =
      g.prodsFor symbol ++ if entry.production.lhs = symbol then [g.prods.size] else [] := by
  unfold Grammar.register at registered
  dsimp only at registered
  split at registered
  · cases registered
  split at registered
  · cases registered
  split at registered
  · cases registered
  split at registered
  · cases registered
  cases registered
  refine ⟨Array.size_push _, fun symbol => ?_⟩
  unfold Grammar.prodsFor
  rw [Std.TreeMap.getD_insert]
  simp only [Std.LawfulEqOrd.compare_eq_iff_eq]
  split
  · next same => rw [same]
  · exact (List.append_nil _).symm

theorem Numbered.register {g extended : Grammar} {entry : WiredProduction} (numbered : g.Numbered)
    (registered : g.register entry = .ok extended) : extended.Numbered := by
  obtain ⟨size, prodsFor⟩ := register_eq registered
  constructor
  · intro symbol
    rw [prodsFor symbol]
    refine List.pairwise_append.2 ⟨numbered.ascending symbol, ?_, ?_⟩
    · split
      · exact List.pairwise_singleton _ _
      · exact List.Pairwise.nil
    · intro p known q added
      have last : q = g.prods.size := by
        split at added
        · exact List.mem_singleton.1 added
        · cases added
      rw [Nat.compare_eq_lt, last]
      exact numbered.below known
  · intro symbol p member
    rw [prodsFor symbol, List.mem_append] at member
    rw [size]
    rcases member with known | added
    · exact Nat.lt_succ_of_lt (numbered.below known)
    · split at added
      · rw [List.mem_singleton.1 added]
        exact Nat.lt_succ_self _
      · cases added

theorem Numbered.of_script {start : Symbol} {script : List Declaration} {g : Grammar}
    (built : (Grammar.ofScript start script).value = .ok g) : g.Numbered := by
  refine foldlM_register_keeps Numbered (fun _ _ _ _ before => before.register) ?_
    (registered_of_script built).1
  constructor
  · intro symbol
    exact List.Pairwise.nil
  · intro symbol p member
    cases member

/-! ## Defined symbols -/

theorem Wired.prodsFor_ne_nil {g : Grammar} (wired : g.Wired) {symbol : Symbol}
    (defined : g.isDefined symbol = true) : g.prodsFor symbol ≠ [] := by
  obtain ⟨p, entry, found, lhs⟩ := wired.isDefined_iff.1 defined
  exact List.ne_nil_of_mem (wired.mem_prodsFor.2 ⟨entry, found, lhs⟩)

/-- In a grammar that passes the last check no symbol lacks productions. -/
theorem isDefined_of_undefined {g : Grammar} (complete : g.undefined? = none) :
    g.isDefined g.start = true ∧ ∀ {id : NodeId} {node : StackNode}, g.node? id = some node →
      node.symbol.hasProductions = true → g.isDefined node.symbol = true := by
  obtain ⟨started, defined⟩ := undefined_eq_none_iff.1 complete
  refine ⟨started, fun {id node} isNode needs => defined id node.symbol ?_ needs⟩
  exact Option.map_eq_some_iff.2 ⟨node, isNode, rfl⟩

/-! ## Well-formed grammars -/

/-- The tables of a grammar say what its productions say, and no symbol in use lacks productions. -/
structure WellFormed (g : Grammar) : Prop where
  length_wiring : ∀ {p : ProdId} {entry : WiredProduction}, g.prod? p = some entry →
    entry.wiring.length = entry.production.rhs.length
  nodup_wiring : ∀ {p : ProdId} {entry : WiredProduction}, g.prod? p = some entry →
    entry.wiring.Nodup
  exists_node : ∀ {p : ProdId} {entry : WiredProduction} {index : Nat} {id : NodeId},
    g.prod? p = some entry → entry.wiring[index]? = some id →
      ∃ node : StackNode, g.node? id = some node ∧ node.id = id ∧
        entry.production.rhs[index]? = some node.symbol
  label_injective : ∀ {p q : ProdId} {entry other : WiredProduction}, g.prod? p = some entry →
    g.prod? q = some other → entry.production.label = other.production.label → p = q
  withLabel_iff : ∀ {label : String} {p : ProdId}, g.withLabel? label = some p ↔
    ∃ entry, g.prod? p = some entry ∧ entry.production.label = label
  mem_prodsFor : ∀ {p : ProdId} {symbol : Symbol}, p ∈ g.prodsFor symbol ↔
    ∃ entry, g.prod? p = some entry ∧ entry.production.lhs = symbol
  increasing_prodsFor : ∀ symbol : Symbol, (g.prodsFor symbol).Pairwise (· < ·)
  isTerminal_lhs : ∀ {p : ProdId} {entry : WiredProduction}, g.prod? p = some entry →
    entry.production.lhs.isTerminal = false
  list_lhs : ∀ {p : ProdId} {entry : WiredProduction}, g.prod? p = some entry →
    ∀ {element : Symbol} {separators : List Symbol} {repetition : Repetition},
      entry.production.lhs = .list element separators repetition →
        entry.production.kind = .list repetition ∧ entry.production.rhs = element :: separators
  start_defined : g.prodsFor g.start ≠ []
  node_defined : ∀ {id : NodeId} {node : StackNode}, g.node? id = some node →
    node.symbol.hasProductions = true → g.prodsFor node.symbol ≠ []
  successors_sequence : ∀ {p : ProdId} {entry : WiredProduction} {index : Nat} {id : NodeId}
    {node : StackNode}, g.prod? p = some entry → entry.wiring[index]? = some id →
      g.node? id = some node → entry.production.kind = .sequence →
        node.successorsIn p = [entry.wiring.drop (index + 1)]
  successors_list : ∀ {p : ProdId} {entry : WiredProduction} {index : Nat} {id : NodeId}
    {node : StackNode} {repetition : Repetition}, g.prod? p = some entry →
      entry.wiring[index]? = some id → g.node? id = some node →
        entry.production.kind = .list repetition → node.successorsIn p =
          (if index = 0 then [[]] else []) ++
            [entry.wiring.drop (index + 1) ++ entry.wiring.take 1]
  successors_elsewhere : ∀ {p : ProdId} {id : NodeId} {node : StackNode}, g.node? id = some node →
    id ∉ g.wiring p → node.successorsIn p = []

/-- Every grammar that a script describes is well-formed. -/
theorem wellFormed_of_script {start : Symbol} {script : List Declaration} {g : Grammar}
    (built : (Grammar.ofScript start script).value = .ok g) : g.WellFormed := by
  have wired := Wired.of_script built
  have numbered := Numbered.of_script built
  obtain ⟨started, defined⟩ := isDefined_of_undefined (registered_of_script built).2
  constructor
  case length_wiring => exact wired.length_wiring
  case nodup_wiring => exact wired.nodup
  case exists_node =>
    intro p entry index id found at_
    have bound := (List.getElem?_eq_some_iff.1 at_).1
    rw [wired.length_wiring found] at bound
    obtain ⟨node, due, -⟩ := wired.exists_next found (List.getElem?_eq_getElem bound)
    obtain ⟨stands, atToo, isNode⟩ := wired.rhs_of_next found due
    obtain rfl : node.id = id := Option.some.inj (atToo.symm.trans at_)
    exact ⟨node, isNode, rfl, stands⟩
  case label_injective =>
    intro p q entry other found foundOther same
    have label := wired.withLabel_iff.2 ⟨entry, found, same⟩
    exact Option.some.inj (label.symm.trans (wired.withLabel_iff.2 ⟨other, foundOther, rfl⟩))
  case withLabel_iff => exact wired.withLabel_iff
  case mem_prodsFor => exact wired.mem_prodsFor
  case increasing_prodsFor =>
    intro symbol
    exact (numbered.ascending symbol).imp Nat.compare_eq_lt.1
  case isTerminal_lhs => exact wired.isTerminal_of_lhs
  case list_lhs => exact fun found => Production.list_of_definesLhs (wired.definesLhs found)
  case start_defined => exact wired.prodsFor_ne_nil started
  case node_defined => exact fun isNode needs => wired.prodsFor_ne_nil (defined isNode needs)
  case successors_sequence =>
    intro p entry index id node found at_ isNode kind
    rw [wired.successorsIn_eq found at_ isNode]
    unfold WiredProduction.continuations
    rw [kind]
  case successors_list =>
    intro p entry index id node repetition found at_ isNode kind
    rw [wired.successorsIn_eq found at_ isNode]
    unfold WiredProduction.continuations
    rw [kind]
    dsimp only
    split
    · rfl
    · rfl
  case successors_elsewhere =>
    intro p id node isNode elsewhere
    refine List.eq_nil_iff_forall_not_mem.2 fun rest member => elsewhere ?_
    obtain ⟨entry, index, found, at_, -⟩ := (wired.mem_successorsIn isNode).1 member
    rw [wiring_of_prod found]
    exact List.mem_of_getElem? at_

/-- `S ::= {A "b"}+` and `A ::= "a"`: after the node of the element the list may end, or go on with
the separator; after that of the separator the element is due again. -/
theorem wellFormed_of_script_separatedPlus : ∃ g,
    (Grammar.ofScript (.nonTerminal "S") Example.separatedPlus).value = .ok g ∧ g.WellFormed ∧
    (g.node? 1).map (·.successorsIn 0) = some [[], [2, 1]] ∧
    (g.node? 2).map (·.successorsIn 0) = some [[1]] ∧
    (g.node? 1).map (·.successorsIn 1) = some [] := by
  obtain ⟨g, built, tested⟩ := exists_of_script (.nonTerminal "S") Example.separatedPlus
    (fun g => (g.prod? 0).any (fun entry : WiredProduction =>
        decide (entry.wiring = [1, 2] ∧ entry.production.kind = .list .plus)) &&
      (g.node? 1).isSome && (g.node? 2).isSome && decide (1 ∉ g.wiring 1))
    (by decide +kernel)
  simp only [Bool.and_eq_true, decide_eq_true_eq, Option.any_eq_true, Option.isSome_iff_exists]
    at tested
  obtain ⟨⟨⟨⟨entry, found, wiring, kind⟩, element, isElement⟩, separator, isSeparator⟩,
    elsewhere⟩ := tested
  have wellFormed := wellFormed_of_script built
  have first : entry.wiring[0]? = some 1 := by
    rw [wiring]
    rfl
  have second : entry.wiring[1]? = some 2 := by
    rw [wiring]
    rfl
  refine ⟨g, built, wellFormed, ?_, ?_, ?_⟩
  · rw [isElement, Option.map_some, wellFormed.successors_list found first isElement kind, wiring]
    rfl
  · rw [isSeparator, Option.map_some, wellFormed.successors_list found second isSeparator kind,
      wiring]
    rfl
  · rw [isElement, Option.map_some, wellFormed.successors_elsewhere isElement elsewhere]

end Grammar

end Scannerless
