import Mathlib.Tactic.Tauto
import Scannerless.Proofs.Script

/-!
# Wired grammars

What assembly establishes: the tables of a grammar say the same as its productions. `Grammar.Wired`
collects it. The nodes wired to a production stand for its right-hand side, one node for each
position; what a node knows may follow it in a production is what the production says of the
positions that the node fills there; and the rules and labels list exactly the productions.

`Grammar.Wired.of_script` gives this for every grammar that a script describes.
-/

namespace Scannerless

/-! ## Successors -/

theorem StackNode.mem_successorsIn_addSuccessors {node : StackNode} {prod q : ProdId}
    {sequences : List (List NodeId)} {rest : List NodeId} :
    rest ∈ (node.addSuccessors prod sequences).successorsIn q ↔
      rest ∈ node.successorsIn q ∨ (q = prod ∧ rest ∈ sequences) := by
  unfold StackNode.addSuccessors StackNode.successorsIn
  dsimp only
  rw [Std.TreeMap.getElem?_alter]
  by_cases same : prod = q
  · subst same
    rw [if_pos Std.ReflOrd.compare_self]
    cases node.successors[prod]? with
    | none => simp
    | some known => simp
  · rw [if_neg fun eq => same (Std.LawfulEqOrd.eq_of_compare eq)]
    simp [Ne.symm same]

namespace Grammar

/-- The symbol that the node under an id stands for. -/
def symbolAt? (g : Grammar) (id : NodeId) : Option Symbol :=
  (g.node? id).map StackNode.symbol

/-- The tables of the grammar say what its productions say. -/
structure Wired (g : Grammar) : Prop where
  id_eq : ∀ {id : NodeId} {node : StackNode}, g.node? id = some node → node.id = id
  fits : ∀ {p : ProdId} {entry : WiredProduction}, g.prod? p = some entry →
    entry.Fits g.symbolAt?
  nodup : ∀ {p : ProdId} {entry : WiredProduction}, g.prod? p = some entry →
    entry.wiring.Nodup
  mem_successorsIn : ∀ {id : NodeId} {node : StackNode}, g.node? id = some node →
    ∀ {p : ProdId} {rest : List NodeId}, rest ∈ node.successorsIn p ↔
      ∃ (entry : WiredProduction) (index : Nat), g.prod? p = some entry ∧
        entry.wiring[index]? = some id ∧ rest ∈ entry.continuations index
  definesLhs : ∀ {p : ProdId} {entry : WiredProduction}, g.prod? p = some entry →
    entry.production.definesLhs = true
  mem_prodsFor : ∀ {p : ProdId} {symbol : Symbol}, p ∈ g.prodsFor symbol ↔
    ∃ entry, g.prod? p = some entry ∧ entry.production.lhs = symbol
  isDefined_iff : ∀ {symbol : Symbol}, g.isDefined symbol = true ↔
    ∃ p entry, g.prod? p = some entry ∧ entry.production.lhs = symbol
  withLabel_iff : ∀ {label : String} {p : ProdId}, g.withLabel? label = some p ↔
    ∃ entry, g.prod? p = some entry ∧ entry.production.label = label

/-! ## Assembly -/

theorem exists_getElem?_cons_iff {head id : NodeId} {tail : List NodeId} {holds : Nat → Prop} :
    (∃ index, (head :: tail)[index]? = some id ∧ holds index) ↔
      (head = id ∧ holds 0) ∨ ∃ index, tail[index]? = some id ∧ holds (index + 1) := by
  constructor
  · intro given
    rcases given with ⟨index, at_, has⟩
    cases index with
    | zero => exact .inl ⟨by simpa using at_, has⟩
    | succ index => exact .inr ⟨index, by simpa using at_, has⟩
  · intro given
    rcases given with ⟨same, has⟩ | ⟨index, at_, has⟩
    · exact ⟨0, by simpa using same, has⟩
    · exact ⟨index + 1, by simpa using at_, has⟩

/-- Connecting keeps the nodes, and adds to each what may follow it at the positions it fills. -/
theorem connect_spec {prod : ProdId} {entry : WiredProduction} :
    ∀ {ids : List NodeId} {start : Nat} {nodes connected : Std.TreeMap NodeId StackNode},
      connect prod entry start ids nodes = .ok connected →
      (∀ id : NodeId, connected[id]?.map StackNode.symbol = nodes[id]?.map StackNode.symbol) ∧
      ∀ (id : NodeId) (node : StackNode), connected[id]? = some node →
        ∃ known : StackNode, nodes[id]? = some known ∧ node.id = known.id ∧
          ∀ (q : ProdId) (rest : List NodeId), rest ∈ node.successorsIn q ↔
            rest ∈ known.successorsIn q ∨
              (q = prod ∧ ∃ index, ids[index]? = some id ∧
                rest ∈ entry.continuations (start + index))
  | [], start, nodes, connected, done => by
    cases done
    exact ⟨fun id => rfl, fun id node found => ⟨node, found, rfl, by simp⟩⟩
  | head :: tail, start, nodes, connected, done => by
    rw [connect] at done
    split at done
    · cases done
    · next first atHead =>
      have inserted : ∀ id : NodeId,
          (nodes.insert head (first.addSuccessors prod (entry.continuations start)))[id]? =
            if head = id then some (first.addSuccessors prod (entry.continuations start))
            else nodes[id]? := by
        intro id
        rw [Std.TreeMap.getElem?_insert]
        simp only [Std.LawfulEqOrd.compare_eq_iff_eq]
      obtain ⟨symbols, successors⟩ := connect_spec done
      constructor
      · intro id
        rw [symbols id, inserted id]
        split
        · next same =>
          rw [← same, atHead]
          rfl
        · rfl
      · intro id node found
        obtain ⟨known, atId, idEq, mem_iff⟩ := successors id node found
        have later : ∀ index : Nat, start + 1 + index = start + (index + 1) := by
          intro index
          omega
        simp only [later] at mem_iff
        rw [inserted id] at atId
        split at atId
        · next same =>
          cases atId
          refine ⟨first, same ▸ atHead, idEq, fun q rest => ?_⟩
          rw [mem_iff, StackNode.mem_successorsIn_addSuccessors, exists_getElem?_cons_iff,
            Nat.add_zero]
          tauto
        · next other =>
          refine ⟨known, atId, idEq, fun q rest => ?_⟩
          rw [mem_iff, exists_getElem?_cons_iff]
          tauto

/-- No id stands twice just if all differ from one another and from those before. -/
theorem firstRepeat_eq_none_iff {ids : List NodeId} :
    ∀ {seen : List NodeId}, firstRepeat? seen ids = none ↔ ids.Nodup ∧ ∀ id ∈ ids, id ∉ seen := by
  induction ids with
  | nil => simp [firstRepeat?]
  | cons head tail ih =>
    intro seen
    rw [firstRepeat?]
    split
    · next repeated => simp [repeated]
    · next new =>
      rw [ih, List.nodup_cons, List.forall_mem_cons]
      simp only [List.mem_cons, not_or, new, not_false_eq_true, true_and]
      constructor
      · rintro ⟨nodup, others⟩
        exact ⟨⟨fun again => (others head again).1 rfl, nodup⟩,
          fun id member => (others id member).2⟩
      · rintro ⟨⟨notAgain, nodup⟩, others⟩
        refine ⟨nodup, fun id member => ⟨?_, others id member⟩⟩
        rintro rfl
        exact notAgain member

/-- What registering a production does to the tables of a grammar. -/
structure Registered (g : Grammar) (entry : WiredProduction) (extended : Grammar) : Prop where
  definesLhs : entry.production.definesLhs = true
  nodup : entry.wiring.Nodup
  prod_iff : ∀ {p : ProdId} {other : WiredProduction}, extended.prod? p = some other ↔
    (p = g.prods.size ∧ other = entry) ∨ g.prod? p = some other
  mem_prodsFor : ∀ {p : ProdId} {symbol : Symbol}, p ∈ extended.prodsFor symbol ↔
    (p = g.prods.size ∧ entry.production.lhs = symbol) ∨ p ∈ g.prodsFor symbol
  isDefined_iff : ∀ {symbol : Symbol}, extended.isDefined symbol = true ↔
    entry.production.lhs = symbol ∨ g.isDefined symbol = true
  withLabel_iff : ∀ {label : String} {p : ProdId}, extended.withLabel? label = some p ↔
    (p = g.prods.size ∧ entry.production.label = label) ∨ g.withLabel? label = some p
  symbolAt_eq : extended.symbolAt? = g.symbolAt?
  exists_known : ∀ {id : NodeId} {node : StackNode}, extended.node? id = some node →
    ∃ known : StackNode, g.node? id = some known ∧ node.id = known.id ∧
      ∀ (p : ProdId) (rest : List NodeId), rest ∈ node.successorsIn p ↔
        rest ∈ known.successorsIn p ∨
          (p = g.prods.size ∧ ∃ index, entry.wiring[index]? = some id ∧
            rest ∈ entry.continuations index)

theorem getElem?_insert_iff {table : Std.TreeMap String ProdId} {key other : String}
    {value p : ProdId} (new : table.contains key = false) :
    (table.insert key value)[other]? = some p ↔
      (p = value ∧ key = other) ∨ table[other]? = some p := by
  rw [Std.TreeMap.getElem?_insert]
  simp only [Std.LawfulEqOrd.compare_eq_iff_eq]
  split
  · next same =>
    subst same
    have none_ : table[key]? = none := by
      rwa [Std.TreeMap.contains_eq_isSome_getElem?, Option.isSome_eq_false_iff,
        Option.isNone_iff_eq_none] at new
    simp [none_, eq_comm]
  · next other_ => simp [other_]

theorem mem_getD_insert_iff {rules : Std.TreeMap Symbol (List ProdId)} {lhs symbol : Symbol}
    {value p : ProdId} : p ∈ (rules.insert lhs (rules.getD lhs [] ++ [value])).getD symbol [] ↔
      (p = value ∧ lhs = symbol) ∨ p ∈ rules.getD symbol [] := by
  rw [Std.TreeMap.getD_insert]
  simp only [Std.LawfulEqOrd.compare_eq_iff_eq]
  split
  · next same =>
    subst same
    simp [or_comm]
  · next other => simp [other]

theorem Registered.of_register {g extended : Grammar} {entry : WiredProduction}
    (done : g.register entry = .ok extended) : Registered g entry extended := by
  unfold Grammar.register at done
  dsimp only at done
  split at done
  · cases done
  next defines =>
  split at done
  · cases done
  next newLabel =>
  split at done
  · cases done
  next noRepeat =>
  split at done
  · cases done
  next nodes connected =>
  cases done
  obtain ⟨symbols, successors⟩ := connect_spec connected
  refine ⟨by simpa using defines, (firstRepeat_eq_none_iff.1 noRepeat).1, ?_, mem_getD_insert_iff,
    ?_, ?_,
    funext symbols, ?_⟩
  · intro p other
    unfold Grammar.prod?
    rw [Array.getElem?_push]
    split
    · next last =>
      subst last
      simp [eq_comm]
    · next other_ => simp [other_]
  · intro symbol
    unfold Grammar.isDefined
    rw [Std.TreeMap.contains_insert]
    simp
  · intro label p
    exact getElem?_insert_iff (Bool.eq_false_iff.2 newLabel)
  · intro id node found
    obtain ⟨known, atId, idEq, mem_iff⟩ := successors id node found
    simp only [Nat.zero_add] at mem_iff
    exact ⟨known, atId, idEq, mem_iff⟩

section Registered

variable {g extended : Grammar} {entry : WiredProduction}

/-- What holds of a production of the extended grammar holds of the new one, or of one that was
there. -/
theorem Registered.exists_prod_iff (registered : Registered g entry extended)
    {holds : WiredProduction → Prop} {p : ProdId} :
    (∃ other, extended.prod? p = some other ∧ holds other) ↔
      (p = g.prods.size ∧ holds entry) ∨ ∃ other, g.prod? p = some other ∧ holds other := by
  constructor
  · intro given
    rcases given with ⟨other, here, has⟩
    rcases registered.prod_iff.1 here with ⟨last, rfl⟩ | old
    · exact .inl ⟨last, has⟩
    · exact .inr ⟨other, old, has⟩
  · intro given
    rcases given with ⟨last, has⟩ | ⟨other, old, has⟩
    · exact ⟨entry, registered.prod_iff.2 (.inl ⟨last, rfl⟩), has⟩
    · exact ⟨other, registered.prod_iff.2 (.inr old), has⟩

theorem Registered.wired (registered : Registered g entry extended) (wired : g.Wired)
    (fits : entry.Fits g.symbolAt?) : extended.Wired where
  id_eq found := by
    obtain ⟨known, atId, idEq, -⟩ := registered.exists_known found
    rw [idEq]
    exact wired.id_eq atId
  fits found := by
    rw [registered.symbolAt_eq]
    rcases registered.prod_iff.1 found with ⟨-, rfl⟩ | old
    · exact fits
    · exact wired.fits old
  nodup found := by
    rcases registered.prod_iff.1 found with ⟨-, rfl⟩ | old
    · exact registered.nodup
    · exact wired.nodup old
  mem_successorsIn {id node} found p rest := by
    obtain ⟨known, atId, -, mem_iff⟩ := registered.exists_known found
    have either : (∃ other, extended.prod? p = some other ∧ ∃ index,
          other.wiring[index]? = some id ∧ rest ∈ other.continuations index) ↔
        (p = g.prods.size ∧ ∃ index, entry.wiring[index]? = some id ∧
          rest ∈ entry.continuations index) ∨
        ∃ other, g.prod? p = some other ∧ ∃ index,
          other.wiring[index]? = some id ∧ rest ∈ other.continuations index :=
      registered.exists_prod_iff
    simp only [← exists_and_left] at either
    rw [mem_iff, wired.mem_successorsIn atId, or_comm, either]
    simp only [exists_and_left]
  definesLhs found := by
    rcases registered.prod_iff.1 found with ⟨-, rfl⟩ | old
    · exact registered.definesLhs
    · exact wired.definesLhs old
  mem_prodsFor {p symbol} := by
    rw [registered.mem_prodsFor, wired.mem_prodsFor, registered.exists_prod_iff]
  isDefined_iff {symbol} := by
    simp only [registered.isDefined_iff, wired.isDefined_iff, registered.exists_prod_iff,
      exists_or, exists_eq_left]
  withLabel_iff {label p} := by
    rw [registered.withLabel_iff, wired.withLabel_iff, registered.exists_prod_iff]

end Registered

/-- What each registration keeps, registering all productions keeps. -/
theorem foldlM_register_keeps (holds : Grammar → Prop) {entries : List WiredProduction}
    (keeps : ∀ entry ∈ entries, ∀ {g extended : Grammar}, holds g →
      g.register entry = .ok extended → holds extended) :
    ∀ {g assembled : Grammar}, holds g → entries.foldlM Grammar.register g = .ok assembled →
      holds assembled := by
  induction entries with
  | nil =>
    intro g assembled before done
    cases done
    exact before
  | cons entry rest ih =>
    intro g assembled before done
    rw [List.foldlM_cons] at done
    cases registered : g.register entry with
    | error defect =>
      rw [registered] at done
      cases done
    | ok extended =>
      rw [registered] at done
      have after := keeps entry List.mem_cons_self before registered
      exact ih (fun other inRest => keeps other (List.mem_cons_of_mem entry inRest)) after done

/-- Registering productions that fit keeps the tables right. -/
theorem Wired.foldlM_register {entries : List WiredProduction} {g assembled : Grammar}
    (wired : g.Wired) (fits : ∀ entry ∈ entries, entry.Fits g.symbolAt?)
    (done : entries.foldlM Grammar.register g = .ok assembled) : assembled.Wired := by
  have both : assembled.Wired ∧ assembled.symbolAt? = g.symbolAt? := by
    refine foldlM_register_keeps (fun now => now.Wired ∧ now.symbolAt? = g.symbolAt?) ?_
      ⟨wired, rfl⟩ done
    rintro entry member now extended ⟨wiredNow, symbols⟩ registered
    have tables := Registered.of_register registered
    exact ⟨tables.wired wiredNow (symbols ▸ fits entry member), tables.symbolAt_eq.trans symbols⟩
  exact both.1

theorem Wired.of_coherent {draft : GrammarDraft} (coherent : draft.Coherent) :
    Wired { start := draft.start, nodes := draft.nodes } where
  id_eq found := coherent.id_eq _ _ found
  fits found := by simp [Grammar.prod?] at found
  nodup found := by simp [Grammar.prod?] at found
  mem_successorsIn {id node} found p rest := by
    have bare := coherent.bare id node found
    simp [StackNode.successorsIn, bare, Grammar.prod?]
  definesLhs found := by simp [Grammar.prod?] at found
  mem_prodsFor := by simp [Grammar.prod?, Grammar.prodsFor]
  isDefined_iff := by simp [Grammar.prod?, Grammar.isDefined]
  withLabel_iff := by simp [Grammar.prod?, Grammar.withLabel?]

/-- A grammar that a script describes has all productions of the draft registered, and no symbol
that needs productions is left without. -/
theorem registered_of_script {start : Symbol} {script : List Declaration} {g : Grammar}
    (built : (Grammar.ofScript start script).value = .ok g) :
    let draft := GrammarDraft.run { start } script
    draft.entries.foldlM Grammar.register { start := draft.start, nodes := draft.nodes } = .ok g ∧
      g.undefined? = none := by
  unfold Grammar.ofScript GrammarDraft.build at built
  split at built
  · cases built
  · dsimp only at built
    unfold Grammar.assemble at built
    split at built
    · cases built
    · next assembled registered =>
      split at built
      · cases built
      · next complete =>
        cases built
        exact ⟨registered, complete⟩

/-- Every grammar that a script describes has its tables right. -/
theorem Wired.of_script {start : Symbol} {script : List Declaration} {g : Grammar}
    (built : (Grammar.ofScript start script).value = .ok g) : g.Wired := by
  have coherent := (GrammarDraft.Coherent.start start).run script
  exact Wired.foldlM_register (Wired.of_coherent coherent)
    (fun entry member => coherent.entries member) (registered_of_script built).1

/-- The last check passes just if all symbols that need productions have some. -/
theorem undefined_eq_none_iff {g : Grammar} :
    g.undefined? = none ↔ g.isDefined g.start = true ∧
      ∀ id symbol, g.symbolAt? id = some symbol → symbol.hasProductions = true →
        g.isDefined symbol = true := by
  unfold undefined?
  split
  · next started =>
    rw [List.find?_eq_none, List.forall_mem_map]
    simp only [Bool.and_eq_true, Bool.not_eq_true', not_and, Bool.not_eq_false, started,
      true_and]
    unfold nodeList symbolAt? node?
    simp only [GrammarDraft.mem_values_iff, Option.map_eq_some_iff]
    constructor
    · rintro complete id symbol ⟨node, found, rfl⟩ needs
      exact complete node ⟨id, found⟩ needs
    · rintro complete node ⟨id, found⟩ needs
      exact complete id node.symbol ⟨node, found, rfl⟩ needs
  · next unstarted => simp [unstarted]

/-- An outcome that passes a test is a success. -/
theorem exists_ok_of_any {ε α : Type} {outcome : Except ε α} {test : α → Bool}
    (passes : outcome.toOption.any test = true) :
    ∃ value, outcome = .ok value ∧ test value = true := by
  cases outcome with
  | error defect => cases passes
  | ok value => exact ⟨value, rfl, passes⟩

/-- A script whose grammar passes a test describes a grammar. -/
theorem exists_of_script (start : Symbol) (script : List Declaration) (test : Grammar → Bool)
    (passes : ((Grammar.ofScript start script).value.toOption.any test) = true) :
    ∃ g, (Grammar.ofScript start script).value = .ok g ∧ test g = true :=
  exists_ok_of_any passes

end Grammar

end Scannerless
