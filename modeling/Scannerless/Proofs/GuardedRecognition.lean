import Scannerless.Guarded
import Scannerless.Proofs.Saturation

/-!
# Recognition without faults

Guarded recognition of any symbol in any text ends with what recognition finds. Each guard is a case
of an invariant that is known of the chart: whatever an item says, `Grammar.Reached.inBounds` keeps
it within its production and the text, a completed symbol was called where it began, and what waits
on a symbol has it due at the offset where the symbol begins. The run does not end early either,
since `Grammar.itemBound` leaves it room for all items.
-/

namespace Scannerless

namespace Guarded

/-! ## Sequencing -/

section Sequencing

variable {α β : Type}

theorem ok_bind (x : α) (f : α → Except Fault β) : (Except.ok x >>= f) = f x := rfl

theorem demand_some {fault : Fault} {o : Option α} {x : α} (found : o = some x) :
    demand fault o = .ok x := by
  rw [found]
  rfl

theorem require_of {fault : Fault} {condition : Prop} [Decidable condition] (holds : condition) :
    require fault condition = .ok () :=
  if_pos holds

theorem mapM_ok {f : α → Except Fault β} {h : α → β} :
    ∀ {xs : List α}, (∀ x ∈ xs, f x = .ok (h x)) → xs.mapM f = .ok (xs.map h)
  | [], _ => rfl
  | x :: rest, each => by
    have restOk := mapM_ok fun y member => each y (List.mem_cons_of_mem x member)
    rw [List.mapM_cons, each x List.mem_cons_self, ok_bind, restOk]
    rfl

theorem foldlM_ok {f : β → α → Except Fault β} {h : β → α → β} :
    ∀ {xs : List α}, (∀ y, ∀ x ∈ xs, f y x = .ok (h y x)) →
      ∀ y, xs.foldlM f y = .ok (xs.foldl h y)
  | [], _, _ => rfl
  | x :: rest, each, y => by
    rw [List.foldlM_cons, each y x List.mem_cons_self, ok_bind]
    exact foldlM_ok (fun z x member => each z x (List.mem_cons_of_mem _ member)) _

end Sequencing

/-! ## Lookups -/

variable {g : Grammar}

theorem span_ok {start stop : Nat} (ordered : start ≤ stop) : span start stop = .ok ⟨start, stop⟩ :=
  demand_some (if_pos ordered)

example : span 3 1 = .error (.disorderedSpan 3 1) := rfl

theorem production_ok {p : ProdId} {entry : WiredProduction} (found : g.prod? p = some entry) :
    production g p = .ok entry :=
  demand_some found

theorem node_ok {id : NodeId} {stackNode : StackNode} (found : g.node? id = some stackNode) :
    node g id = .ok stackNode :=
  demand_some found

/-! ## Dotted productions -/

section Places

variable {d : Dotted} {entry : WiredProduction}

/-- Every node that a production is wired to is a node of the grammar. -/
theorem next_ok (wired : g.Wired) (found : g.prod? d.prod = some entry) :
    next g d = .ok (d.next? g) := by
  obtain ⟨p, index⟩ := d
  unfold next
  rw [production_ok found, ok_bind]
  cases at_ : entry.wiring[index]? with
  | none =>
    unfold Dotted.next? Grammar.nodeAt?
    rw [Grammar.wiring_of_prod found, at_]
    rfl
  | some id =>
    have bound := (List.getElem?_eq_some_iff.1 at_).1
    rw [wired.length_wiring found] at bound
    obtain ⟨stackNode, due, -⟩ := wired.exists_next found (List.getElem?_eq_getElem bound)
    obtain ⟨-, atNode, known⟩ := wired.rhs_of_next found due
    obtain rfl : stackNode.id = id := Option.some.inj (atNode.symm.trans at_)
    dsimp only
    rw [node_ok known, due]
    rfl

theorem due_ok (wired : g.Wired) (found : g.prod? d.prod = some entry) {stackNode : StackNode}
    (isDue : d.next? g = some stackNode) : due g d = .ok stackNode := by
  unfold due
  rw [next_ok wired found, ok_bind]
  exact demand_some isDue

theorem withIndex_ok (found : g.prod? d.prod = some entry) {index : Nat}
    (bound : index ≤ entry.wiring.length) : withIndex g d index = .ok { d with index } := by
  unfold withIndex
  rw [production_ok found, ok_bind]
  have fits : index ≤ g.slots d.prod := by
    unfold Grammar.slots
    rwa [Grammar.wiring_of_prod found]
  exact demand_some (if_pos fits)

/-- What may follow a node leaves it and the nodes before it out, so that the place after it can be
told from the number of nodes to come. -/
theorem before_ok (wired : g.Wired) (found : g.prod? d.prod = some entry)
    (bound : d.index < entry.production.arity) {rest : List NodeId}
    (follows : rest ∈ entry.continuations d.index) : before g d rest = .ok (d.before g rest) := by
  obtain ⟨p, index⟩ := d
  dsimp only at found bound follows
  have slots := wired.length_wiring found
  unfold before
  rw [production_ok found, ok_bind]
  dsimp only
  unfold WiredProduction.continuations at follows
  cases kind : entry.production.kind with
  | sequence =>
    rw [wired.before_of_sequence found kind]
    dsimp only
    rw [kind, List.mem_singleton] at follows
    have fits : rest.length ≤ entry.wiring.length := by
      rw [follows, List.length_drop]
      omega
    rw [require_of fits, ok_bind, withIndex_ok found (Nat.sub_le _ _), slots]
  | list repetition =>
    rw [wired.before_of_list found kind]
    dsimp only
    cases rest with
    | nil =>
      rw [if_pos List.isEmpty_nil, withIndex_ok found (Nat.le_refl _), slots, if_pos rfl]
    | cons id rest =>
      have length : (id :: rest).length ≤ entry.wiring.length + 1 := by
        rw [kind] at follows
        dsimp only at follows
        have rounds : id :: rest = entry.wiring.drop (index + 1) ++ entry.wiring.take 1 := by
          split at follows <;> simpa using follows
        rw [rounds, List.length_append, List.length_drop, List.length_take]
        omega
      have positive : entry.wiring.length ≠ 0 := by omega
      have within := Nat.mod_lt (entry.wiring.length + 1 - (id :: rest).length)
        (Nat.pos_of_ne_zero positive)
      rw [if_neg (by simp), require_of length, ok_bind, require_of positive, ok_bind,
        withIndex_ok found (Nat.le_of_lt within), if_neg (List.cons_ne_nil id rest), slots]

theorem advance_ok (wired : g.Wired) (found : g.prod? d.prod = some entry) :
    advance g d = .ok (d.advance g) := by
  unfold advance Dotted.advance
  rw [next_ok wired found, ok_bind]
  cases due : d.next? g with
  | none => rfl
  | some stackNode =>
    have bound : d.index < entry.production.arity := wired.bound_of_next found due
    refine mapM_ok fun rest follows => before_ok wired found bound ?_
    exact (wired.mem_successorsIn_of_next found due).1 follows

end Places

/-! ## Operations of recognition -/

variable {input : Input} {root : Symbol} {r : Recognition} {item : Item}

theorem resume_ok (wired : g.Wired) (reached : g.Reached input root item) {stackNode : StackNode}
    (isDue : item.state.next? g = some stackNode) {stop : Nat} (ordered : item.pos ≤ stop)
    (r : Recognition) : resume g r item stop = .ok (r.resume g item stop) := by
  obtain ⟨entry, found, -⟩ := (reached.inBounds wired).place
  unfold resume Recognition.resume
  rw [due_ok wired found isDue, ok_bind, span_ok ordered, ok_bind, advance_ok wired found, isDue]
  rfl

theorem start_ok (wired : g.Wired) (r : Recognition) (site : CallSite) :
    start g r site = .ok (r.start g site) := by
  unfold start Recognition.start
  split
  · rfl
  · refine foldlM_ok (fun s p defines => ?_) _
    obtain ⟨entry, found, -⟩ := wired.mem_prodsFor.1 defines
    rw [production_ok found]
    rfl

/-- The results of a symbol end no earlier than the symbol begins, which is where the waiting item
has it due. -/
theorem call_ok (wired : g.Wired) (regular : r.Regular g input root) {stackNode : StackNode}
    (has : r.chart.hasItem item = true) (isDue : item.state.next? g = some stackNode)
    (nonTerminal : stackNode.isTerminal = false) :
    call g r ⟨stackNode.symbol, item.pos⟩ item =
      .ok (r.call g ⟨stackNode.symbol, item.pos⟩ item) := by
  have reached := regular.sound.reached has
  have called : g.Called input root ⟨stackNode.symbol, item.pos⟩ :=
    .inr ⟨item, stackNode, reached, isDue, nonTerminal, rfl⟩
  obtain ⟨started, -, -⟩ := regular.start wired called
  unfold call Recognition.call
  rw [start_ok wired, ok_bind]
  dsimp only
  split
  · rfl
  · refine foldlM_ok (fun s stop result => resume_ok wired reached isDue ?_ s) _
    obtain ⟨p, completed⟩ := started.sound.result (Std.TreeSet.mem_toList.1 result)
    exact ((started.sound.completed completed).bounds wired).1

theorem callAt_ok {chart : Chart} {site : CallSite}
    (called : chart.calls.contains site = true) : callAt chart site = .ok (chart.callAt site) := by
  rw [Std.TreeMap.contains_eq_isSome_getElem?] at called
  obtain ⟨known, at_⟩ := Option.isSome_iff_exists.1 called
  unfold callAt Chart.callAt
  rw [Std.TreeMap.getD_eq_getD_getElem?, at_]
  rfl

/-- A production is complete only where its symbol was called, and what waits there resumes at or
after that offset. -/
theorem complete_ok (wired : g.Wired) (regular : r.Regular g input root)
    (has : r.chart.hasItem item = true) : complete g r item = .ok (r.complete g item) := by
  have bounds := (regular.sound.reached has).inBounds wired
  obtain ⟨entry, found, -⟩ := bounds.place
  have home := regular.paired.home has (Grammar.lhs_of_prod found)
  unfold complete Recognition.complete
  rw [production_ok found, ok_bind, found]
  dsimp only
  rw [span_ok bounds.origin_le, ok_bind, callAt_ok, ok_bind]
  on_goal 2 => exact home
  split
  · rfl
  · refine foldlM_ok (fun s waiter waiting => ?_) _
    obtain ⟨waits, stackNode, isDue, site_eq⟩ :=
      regular.sound.waits (Std.TreeSet.mem_toList.1 waiting)
    have here : item.origin = waiter.pos := (CallSite.mk.inj site_eq).2
    exact resume_ok wired (regular.sound.reached waits) isDue (here ▸ bounds.origin_le) s

/-- An item that is not complete has a node due. -/
theorem process_ok (wired : g.Wired) (regular : r.Regular g input root)
    (has : r.chart.hasItem item = true) : process g input r item = .ok (r.process g input item) := by
  have reached := regular.sound.reached has
  obtain ⟨entry, found, place⟩ := (reached.inBounds wired).place
  unfold process Recognition.process
  rw [production_ok found, ok_bind]
  split
  · exact complete_ok wired regular has
  next isIncomplete =>
  have bound : item.state.index < entry.production.arity := by
    refine Nat.lt_of_le_of_ne place fun ends => isIncomplete ?_
    exact (wired.isComplete_iff found).2 ends
  obtain ⟨stackNode, isDue, -⟩ : ∃ stackNode, item.state.next? g = some stackNode ∧ _ :=
    wired.exists_next found (List.getElem?_eq_getElem bound)
  obtain ⟨kept, leads, -⟩ := regular.completeEmpty has (Bool.eq_false_iff.2 isIncomplete)
  dsimp only
  rw [due_ok wired found isDue, ok_bind, isDue]
  dsimp only
  unfold StackNode.step
  cases terminal : stackNode.isTerminal with
  | false => exact call_ok wired kept (leads.extends_.items has) isDue terminal
  | true =>
    rw [if_pos rfl]
    cases scanned : stackNode.symbol.scan? input item.pos with
    | none => rfl
    | some stop => exact resume_ok wired reached isDue (Symbol.scan_bounds scanned).1 _

/-! ## The run -/

/-- A run that ends with the agenda done has not run out of steps. -/
theorem run_ok (wired : g.Wired) :
    ∀ (items : Nat) {r : Recognition}, r.Running g input root →
      (Recognition.run g input items r).agenda.size ≤
        (Recognition.run g input items r).taken.size →
          run g input items r = .ok (Recognition.run g input items r) := by
  intro items
  induction items with
  | zero => exact fun _ done => if_neg (Nat.not_lt.2 done)
  | succ items ih =>
    intro r running done
    unfold run
    unfold Recognition.run at done ⊢
    cases isDue : r.due? with
    | none => rfl
    | some item =>
      rw [isDue] at done
      obtain ⟨taken, -, has⟩ := running.take isDue
      dsimp only
      rw [process_ok wired taken has, ok_bind]
      exact ih (running.step wired isDue).1 done

/-- Guarded recognition finds what recognition finds. -/
theorem recognition_ok (wired : g.Wired) (input : Input) (symbol : Symbol) :
    recognition g input symbol = .ok (g.recognition input symbol) := by
  obtain ⟨-, all, -⟩ := wired.running_recognition input symbol
  have done := Nat.le_of_eq (congrArg Array.size all.symm)
  obtain ⟨opening, -, -⟩ := Recognition.Running.opening wired input symbol
  unfold recognition
  unfold Grammar.recognition at done ⊢
  split
  · next defined =>
    rw [if_pos defined] at done
    unfold Recognition.opening at opening
    rw [if_pos defined] at opening
    rw [start_ok wired, ok_bind]
    exact run_ok wired _ opening done
  · rfl

/-! ## Rejections -/

theorem rejection_ok (wired : g.Wired) {chart : Chart} (full : chart.Full g input root)
    (symbol : Symbol) : rejection g chart symbol = .ok (chart.rejection g symbol) := by
  have awaited_ok : ∀ item ∈ chart.items.keys.filter fun item => item.pos == chart.furthest,
      awaited g item = .ok (Chart.awaited? g item) := by
    intro item member
    have reached := full.hasItem_iff.1 (Std.TreeMap.mem_keys.1 (List.mem_filter.1 member).1)
    obtain ⟨entry, found, -⟩ := (reached.inBounds wired).place
    unfold awaited Chart.awaited?
    rw [next_ok wired found, ok_bind]
    cases item.state.next? g <;> rfl
  unfold rejection
  rw [mapM_ok awaited_ok, ok_bind, List.filterMap_map]
  rfl

end Guarded

end Scannerless
