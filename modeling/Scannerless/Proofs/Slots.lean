import Mathlib.Data.List.Basic
import Scannerless.Grammar.Dotted
import Scannerless.Proofs.Assembly

/-!
# Slots

The places of a production. `Production.next` says which places may follow a place, and
`Grammar.Wired.mem_advance` that the successors known to the nodes of a grammar amount to just that,
whatever the ids of the nodes and whichever productions share them.
-/

namespace Scannerless

/-! ## Places -/

/-- The places that may follow a place. A list goes round: after an element it may be complete. -/
def Production.next (production : Production) (index : Nat) : List Nat :=
  match production.kind with
  | .sequence => [index + 1]
  | .list _ =>
    if index = 0 then [production.arity, 1 % production.arity]
    else [(index + 1) % production.arity]

theorem Production.le_arity_of_mem_next {production : Production} {index after : Nat}
    (bound : index < production.arity) (next : after ∈ production.next index) :
    after ≤ production.arity := by
  have positive : 0 < production.arity := by omega
  have again := Nat.mod_lt (index + 1) positive
  have second := Nat.mod_lt 1 positive
  unfold Production.next at next
  cases kind : production.kind with
  | sequence =>
    rw [kind, List.mem_singleton] at next
    omega
  | list repetition =>
    rw [kind] at next
    dsimp only at next
    split at next
    · simp only [List.mem_cons, List.not_mem_nil, or_false] at next
      omega
    · rw [List.mem_singleton] at next
      omega

theorem Dotted.prod_of_mem_advance {g : Grammar} {d state : Dotted}
    (advances : state ∈ d.advance g) : state.prod = d.prod := by
  unfold Dotted.advance at advances
  split at advances
  · cases advances
  · obtain ⟨rest, -, rfl⟩ := List.mem_map.1 advances
    unfold Dotted.before
    dsimp only
    split
    · rfl
    · split <;> rfl

namespace Grammar

variable {g : Grammar} {p : ProdId} {entry : WiredProduction} {index : Nat}

theorem wiring_of_prod (found : g.prod? p = some entry) : g.wiring p = entry.wiring := by
  unfold Grammar.wiring
  rw [found]

theorem kind_of_prod (found : g.prod? p = some entry) :
    Dotted.kind g ⟨p, index⟩ = entry.production.kind := by
  unfold Dotted.kind
  rw [found]

theorem allowsEmpty_iff (found : g.prod? p = some entry) : Dotted.allowsEmpty g ⟨p, index⟩ = true ↔
      index = 0 ∧ entry.production.kind = .list .star := by
  unfold Dotted.allowsEmpty
  rw [kind_of_prod found]
  cases entry.production.kind with
  | sequence => simp
  | list repetition => cases repetition <;> simp [Repetition.allowsEmpty]

namespace Wired

theorem length_wiring (wired : g.Wired) (found : g.prod? p = some entry) :
    entry.wiring.length = entry.production.arity := by
  have lengths := congrArg List.length (wired.fits found)
  rwa [List.length_map, List.length_map] at lengths

theorem slots_eq (wired : g.Wired) (found : g.prod? p = some entry) :
    g.slots p = entry.production.arity := by
  unfold Grammar.slots
  rw [wiring_of_prod found, wired.length_wiring found]

theorem isComplete_iff (wired : g.Wired) (found : g.prod? p = some entry) :
    Dotted.isComplete g ⟨p, index⟩ = true ↔ index = entry.production.arity := by
  unfold Dotted.isComplete
  rw [wired.slots_eq found, beq_iff_eq, eq_comm]

/-- The node that is due at a place stands for the symbol there. -/
theorem rhs_of_next (wired : g.Wired) (found : g.prod? p = some entry) {node : StackNode}
    (due : Dotted.next? g ⟨p, index⟩ = some node) :
    entry.production.rhs[index]? = some node.symbol ∧ entry.wiring[index]? = some node.id ∧
      g.node? node.id = some node := by
  unfold Dotted.next? Grammar.nodeAt? at due
  rw [wiring_of_prod found, Option.bind_eq_some_iff] at due
  obtain ⟨id, at_, atId⟩ := due
  have idEq := wired.id_eq atId
  have stands := congrArg (·[index]?) (wired.fits found)
  simp only [List.getElem?_map, at_, Option.map_some, Grammar.symbolAt?, atId] at stands
  rw [idEq]
  refine ⟨?_, at_, atId⟩
  cases symbolAt : entry.production.rhs[index]? with
  | none =>
    rw [symbolAt] at stands
    cases stands
  | some symbol =>
    rw [symbolAt, Option.map_some] at stands
    rw [Option.some.inj stands]

/-- At every place before the completed one a node is due. -/
theorem exists_next (wired : g.Wired) (found : g.prod? p = some entry) {symbol : Symbol}
    (at_ : entry.production.rhs[index]? = some symbol) :
    ∃ node, Dotted.next? g ⟨p, index⟩ = some node ∧ node.symbol = symbol := by
  have stands := congrArg (·[index]?) (wired.fits found)
  simp only [List.getElem?_map, at_, Option.map_some] at stands
  rw [Option.map_eq_some_iff] at stands
  obtain ⟨id, wiredAt, standsFor⟩ := stands
  obtain ⟨node, atId, symbolEq⟩ := Option.map_eq_some_iff.1 standsFor
  refine ⟨node, ?_, symbolEq⟩
  unfold Dotted.next? Grammar.nodeAt?
  rw [wiring_of_prod found, wiredAt]
  exact atId

theorem next_eq_none (wired : g.Wired) (found : g.prod? p = some entry) :
    Dotted.next? g ⟨p, entry.production.arity⟩ = none := by
  unfold Dotted.next? Grammar.nodeAt?
  rw [wiring_of_prod found, ← wired.length_wiring found, List.getElem?_length]
  rfl

/-- Of the node at a place, the grammar knows just what the production says of that place. -/
theorem mem_successorsIn_of_next (wired : g.Wired) (found : g.prod? p = some entry)
    {node : StackNode} (due : Dotted.next? g ⟨p, index⟩ = some node) {rest : List NodeId} :
    rest ∈ node.successorsIn p ↔ rest ∈ entry.continuations index := by
  obtain ⟨-, here, atId⟩ := wired.rhs_of_next found due
  rw [wired.mem_successorsIn atId]
  constructor
  · rintro ⟨other, place, foundOther, there, member⟩
    rw [found] at foundOther
    cases foundOther
    have bound : index < entry.wiring.length := (List.getElem?_eq_some_iff.1 here).1
    have same : place = index :=
      ((List.getElem?_inj bound (wired.nodup found)).1 (here.trans there.symm)).symm
    rwa [same] at member
  · exact fun member => ⟨entry, index, found, here, member⟩

theorem before_of_sequence (wired : g.Wired) (found : g.prod? p = some entry)
    (kind : entry.production.kind = .sequence) (rest : List NodeId) :
    Dotted.before g ⟨p, index⟩ rest = ⟨p, entry.production.arity - rest.length⟩ := by
  unfold Dotted.before
  rw [kind_of_prod found, wired.slots_eq found, kind]

theorem before_of_list (wired : g.Wired) (found : g.prod? p = some entry)
    {repetition : Repetition} (kind : entry.production.kind = .list repetition)
    (rest : List NodeId) :
    Dotted.before g ⟨p, index⟩ rest = ⟨p, if rest = [] then entry.production.arity
      else (entry.production.arity + 1 - rest.length) % entry.production.arity⟩ := by
  unfold Dotted.before
  rw [kind_of_prod found, wired.slots_eq found, kind]
  cases rest with
  | nil => rfl
  | cons id rest => rfl

/-- Each continuation tells the place after which it completes the production. -/
theorem map_before_continuations (wired : g.Wired) (found : g.prod? p = some entry)
    (bound : index < entry.production.arity) :
    (entry.continuations index).map (Dotted.before g ⟨p, index⟩) =
      (entry.production.next index).map (Dotted.mk p) := by
  have length := wired.length_wiring found
  unfold WiredProduction.continuations Production.next
  cases kind : entry.production.kind with
  | sequence =>
    have after : entry.production.arity - (entry.wiring.drop (index + 1)).length = index + 1 := by
      rw [List.length_drop]
      omega
    rw [List.map_singleton, List.map_singleton, wired.before_of_sequence found kind, after]
  | list repetition =>
    have rounds : (entry.wiring.drop (index + 1) ++ entry.wiring.take 1).length =
        entry.production.arity - index := by
      rw [List.length_append, List.length_drop, List.length_take]
      omega
    have nonempty : entry.wiring.drop (index + 1) ++ entry.wiring.take 1 ≠ [] := by
      intro empty
      rw [empty, List.length_nil] at rounds
      omega
    have again : entry.production.arity + 1 -
        (entry.wiring.drop (index + 1) ++ entry.wiring.take 1).length = index + 1 := by
      omega
    have goesOn : Dotted.before g ⟨p, index⟩
        (entry.wiring.drop (index + 1) ++ entry.wiring.take 1) =
          ⟨p, (index + 1) % entry.production.arity⟩ := by
      rw [wired.before_of_list found kind, if_neg nonempty, again]
    have ends : Dotted.before g ⟨p, index⟩ [] = ⟨p, entry.production.arity⟩ := by
      rw [wired.before_of_list found kind, if_pos rfl]
    by_cases first : index = 0
    · subst first
      simp only [if_true, List.map_cons, List.map_nil, goesOn, ends, Nat.zero_add]
    · simp only [if_neg first, List.map_cons, List.map_nil, goesOn]

/-- The places reached from a place are those that follow it. -/
theorem mem_advance (wired : g.Wired) (found : g.prod? p = some entry)
    (bound : index < entry.production.arity) {state : Dotted} :
    state ∈ Dotted.advance g ⟨p, index⟩ ↔
      state.prod = p ∧ state.index ∈ entry.production.next index := by
  obtain ⟨node, due, -⟩ :=
    wired.exists_next found (List.getElem?_eq_getElem bound)
  have places : state ∈ Dotted.advance g ⟨p, index⟩ ↔
      state ∈ (entry.production.next index).map (Dotted.mk p) := by
    unfold Dotted.advance
    rw [due, ← wired.map_before_continuations found bound]
    dsimp only
    simp only [List.mem_map, wired.mem_successorsIn_of_next found due]
  rw [places, List.mem_map]
  constructor
  · rintro ⟨place, next, rfl⟩
    exact ⟨rfl, next⟩
  · rintro ⟨rfl, next⟩
    exact ⟨state.index, next, rfl⟩

theorem bound_of_next (wired : g.Wired) (found : g.prod? p = some entry) {node : StackNode}
    (due : Dotted.next? g ⟨p, index⟩ = some node) : index < entry.production.arity :=
  (List.getElem?_eq_some_iff.1 (wired.rhs_of_next found due).1).1

theorem label_of_withLabel (wired : g.Wired) {label : String}
    (labels : g.withLabel? label = some p) (found : g.prod? p = some entry) :
    entry.production.label = label := by
  obtain ⟨other, foundOther, label_eq⟩ := wired.withLabel_iff.1 labels
  rw [found] at foundOther
  rwa [Option.some.inj foundOther]

theorem isTerminal_of_lhs (wired : g.Wired) (found : g.prod? p = some entry) :
    entry.production.lhs.isTerminal = false := by
  have defines := wired.definesLhs found
  unfold Production.definesLhs at defines
  cases lhs : entry.production.lhs with
  | nonTerminal name => rfl
  | list element separators repetition => rfl
  | literal text => simp [lhs] at defines
  | charClass cls => simp [lhs] at defines

theorem isTerminal_of_isDefined (wired : g.Wired) {symbol : Symbol}
    (defined : g.isDefined symbol = true) : symbol.isTerminal = false := by
  obtain ⟨p, entry, found, rfl⟩ := wired.isDefined_iff.1 defined
  exact wired.isTerminal_of_lhs found

end Wired

end Grammar

end Scannerless
