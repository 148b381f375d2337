import Scannerless.Chart.Item
import Scannerless.Proofs.Slots
import Scannerless.Proofs.Terminals

/-!
# Reached items

What there is to find out in recognizing a symbol, said without an order of work. `Grammar.Reached`
is the least set of items closed under the rules of recognition; the calls, the completed
productions and the links between items follow from it.

`Grammar.Reached.inBounds` keeps the items within the production and within the text, which leaves
finitely many of them.
-/

namespace Scannerless

namespace Grammar

/-- The symbol that a production defines. -/
def lhs? (g : Grammar) (p : ProdId) : Option Symbol :=
  (g.prod? p).map fun entry => entry.production.lhs

/-! ## The rules -/

variable (g : Grammar) (input : Input) (root : Symbol)

/-- The items found in recognizing a symbol from the start of the text. -/
inductive Reached : Item → Prop
  | start {p : ProdId} (defines : p ∈ g.prodsFor root) : Reached ⟨0, .ofStart p, 0⟩
  | predict {item : Item} {node : StackNode} {p : ProdId} (reached : Reached item)
    (due : item.state.next? g = some node) (defines : p ∈ g.prodsFor node.symbol) :
    Reached ⟨item.pos, .ofStart p, item.pos⟩
  | scan {item : Item} {node : StackNode} {stop : Nat} {state : Dotted} (reached : Reached item)
    (due : item.state.next? g = some node)
    (scanned : node.symbol.scan? input item.pos = some stop)
    (advances : state ∈ item.state.advance g) : Reached ⟨stop, state, item.origin⟩
  | complete {item part : Item} {node : StackNode} {state : Dotted} (reached : Reached item)
    (due : item.state.next? g = some node) (completed : Reached part)
    (complete : part.state.isComplete g = true) (lhs : g.lhs? part.state.prod = some node.symbol)
    (origin : part.origin = item.pos) (advances : state ∈ item.state.advance g) :
    Reached ⟨part.pos, state, item.origin⟩
  | empty {item : Item} (reached : Reached item) (allows : item.state.allowsEmpty g = true)
    (here : item.pos = item.origin) : Reached { item with state := .complete g item.state.prod }

/-- A production completed over a constituent. -/
def Completed (p : ProdId) (constituent : Constituent) : Prop :=
  g.lhs? p = some constituent.symbol ∧
    Reached g input root ⟨constituent.span.stop, .complete g p, constituent.span.start⟩

/-- A symbol matched over a span: a terminal by the text, any other by a completed production. -/
def Covered (symbol : Symbol) (span : Span) : Prop :=
  symbol.scan? input span.start = some span.stop ∨
    ∃ p, Completed g input root p ⟨symbol, span⟩

/-- A symbol to be recognized from an offset: the root at the start if productions define it, and
every symbol that is due and not a terminal. -/
def Called (site : CallSite) : Prop :=
  (site = ⟨root, 0⟩ ∧ g.isDefined root = true) ∨ ∃ item node, Reached g input root item ∧
    item.state.next? g = some node ∧ node.isTerminal = false ∧ site = ⟨node.symbol, item.pos⟩

/-- A link from an item to one from which a rule reaches it. -/
def Linked (item : Item) (link : Backlink) : Prop :=
  let before : Item := ⟨link.prevPos, ⟨item.state.prod, link.prevIndex⟩, item.origin⟩
  Reached g input root before ∧
    match link.matched with
    | none => before.state.isComplete g = false ∧ before.state.allowsEmpty g = true ∧
        before.pos = before.origin ∧ item = { before with state := .complete g item.state.prod }
    | some found => ∃ node, before.state.next? g = some node ∧ found.node = node.id ∧
        found.span = ⟨before.pos, item.pos⟩ ∧ Covered g input root node.symbol found.span ∧
        item.state ∈ before.state.advance g

variable {g input root}

/-! ## Bounds -/

/-- An item that recognition can find: its place is one of its production, and what it has matched
is a stretch of the text. -/
structure InBounds (g : Grammar) (input : Input) (item : Item) : Prop where
  origin_le : item.origin ≤ item.pos
  pos_le : item.pos ≤ input.length
  place : ∃ entry, g.prod? item.state.prod = some entry ∧
    item.state.index ≤ entry.production.arity

theorem Reached.inBounds (wired : g.Wired) {item : Item} (reached : Reached g input root item) :
    InBounds g input item := by
  have advance : ∀ {item : Item} {node : StackNode} {state : Dotted},
      InBounds g input item → item.state.next? g = some node → state ∈ item.state.advance g →
        ∃ entry, g.prod? state.prod = some entry ∧ state.index ≤ entry.production.arity := by
    intro item node state bounds due advances
    obtain ⟨entry, found, -⟩ := bounds.place
    have bound := wired.bound_of_next found due
    obtain ⟨prod_eq, next⟩ := (wired.mem_advance found bound).1 advances
    rw [prod_eq]
    exact ⟨entry, found, Production.le_arity_of_mem_next bound next⟩
  induction reached with
  | start defines =>
    obtain ⟨entry, found, -⟩ := wired.mem_prodsFor.1 defines
    exact ⟨Nat.le_refl 0, Nat.zero_le _, entry, found, Nat.zero_le _⟩
  | predict _ _ defines ih =>
    obtain ⟨entry, found, -⟩ := wired.mem_prodsFor.1 defines
    exact ⟨Nat.le_refl _, ih.pos_le, entry, found, Nat.zero_le _⟩
  | scan _ due scanned advances ih =>
    have bounds := Symbol.scan_bounds scanned
    exact ⟨Nat.le_trans ih.origin_le bounds.1, bounds.2, advance ih due advances⟩
  | complete _ due _ _ _ origin advances ih ihPart =>
    have ordered : _ ≤ _ := ihPart.origin_le
    rw [origin] at ordered
    exact ⟨Nat.le_trans ih.origin_le ordered, ihPart.pos_le, advance ih due advances⟩
  | empty _ _ _ ih =>
    obtain ⟨entry, found, -⟩ := ih.place
    refine ⟨ih.origin_le, ih.pos_le, entry, found, ?_⟩
    exact Nat.le_of_eq (wired.slots_eq found)

/-! ## Steps -/

theorem Completed.bounds (wired : g.Wired) {p : ProdId} {constituent : Constituent}
    (completed : Completed g input root p constituent) :
    constituent.span.start ≤ constituent.span.stop ∧ constituent.span.stop ≤ input.length :=
  ⟨(completed.2.inBounds wired).origin_le, (completed.2.inBounds wired).pos_le⟩

theorem Covered.bounds (wired : g.Wired) {symbol : Symbol} {span : Span}
    (covered : Covered g input root symbol span) :
    span.start ≤ span.stop ∧ span.stop ≤ input.length := by
  rcases covered with scanned | ⟨p, completed⟩
  · exact Symbol.scan_bounds scanned
  · exact completed.bounds wired

theorem lhs_of_prod {p : ProdId} {entry : WiredProduction} (found : g.prod? p = some entry) :
    g.lhs? p = some entry.production.lhs := by
  unfold lhs?
  rw [found]
  rfl

theorem exists_prod_of_lhs {p : ProdId} {symbol : Symbol} (lhs : g.lhs? p = some symbol) :
    ∃ entry, g.prod? p = some entry ∧ entry.production.lhs = symbol :=
  Option.map_eq_some_iff.1 lhs

theorem Wired.isTerminal_of_lhs? (wired : g.Wired) {p : ProdId} {symbol : Symbol}
    (lhs : g.lhs? p = some symbol) : symbol.isTerminal = false := by
  obtain ⟨entry, found, rfl⟩ := exists_prod_of_lhs lhs
  exact wired.isTerminal_of_lhs found

/-- An item that is complete is a completed production. -/
theorem Reached.completed (wired : g.Wired) {item : Item} (reached : Reached g input root item)
    (complete : item.state.isComplete g = true) {symbol : Symbol}
    (lhs : g.lhs? item.state.prod = some symbol) :
    Completed g input root item.state.prod ⟨symbol, ⟨item.origin, item.pos⟩⟩ := by
  obtain ⟨entry, found, -⟩ := exists_prod_of_lhs lhs
  obtain ⟨pos, ⟨p, index⟩, origin⟩ := item
  refine ⟨lhs, ?_⟩
  have index_eq := (wired.isComplete_iff found).1 complete
  unfold Dotted.complete
  rw [wired.slots_eq found, ← index_eq]
  exact reached

/-- An item goes on past the symbol that is due, over any span that the symbol is matched over. -/
theorem Reached.advance (wired : g.Wired) {item : Item} {node : StackNode} {state : Dotted}
    {stop : Nat} (reached : Reached g input root item) (due : item.state.next? g = some node)
    (covered : Covered g input root node.symbol ⟨item.pos, stop⟩)
    (advances : state ∈ item.state.advance g) :
    Reached g input root ⟨stop, state, item.origin⟩ := by
  rcases covered with scanned | ⟨p, lhs, part⟩
  · exact .scan reached due scanned advances
  · obtain ⟨entry, found, -⟩ := exists_prod_of_lhs lhs
    have complete : (Dotted.complete g p).isComplete g = true := by
      unfold Dotted.complete
      rw [wired.isComplete_iff found, wired.slots_eq found]
    exact .complete reached due part complete lhs rfl advances

/-- The symbol of a completed production has been called where the production began. -/
theorem Reached.called (wired : g.Wired) {item : Item} (reached : Reached g input root item)
    {symbol : Symbol} (lhs : g.lhs? item.state.prod = some symbol) :
    Called g input root ⟨symbol, item.origin⟩ := by
  have of_defines : ∀ {p : ProdId} {called symbol : Symbol}, p ∈ g.prodsFor called →
      g.lhs? p = some symbol → called = symbol ∧ called.isTerminal = false := by
    intro p called symbol defines lhs
    obtain ⟨entry, found, lhs_eq⟩ := wired.mem_prodsFor.1 defines
    rw [lhs_of_prod found, lhs_eq] at lhs
    rw [← Option.some.inj lhs, ← lhs_eq]
    exact ⟨rfl, wired.isTerminal_of_lhs found⟩
  induction reached with
  | start defines =>
    obtain ⟨entry, found, lhs_eq⟩ := wired.mem_prodsFor.1 defines
    rw [(of_defines defines lhs).1.symm]
    exact .inl ⟨rfl, wired.isDefined_iff.2 ⟨_, entry, found, lhs_eq⟩⟩
  | predict reached due defines =>
    obtain ⟨rfl, nonTerminal⟩ := of_defines defines lhs
    exact .inr ⟨_, _, reached, due, nonTerminal, rfl⟩
  | scan _ _ _ advances ih =>
    rw [Dotted.prod_of_mem_advance advances] at lhs
    exact ih lhs
  | complete _ _ _ _ _ _ advances ih _ =>
    rw [Dotted.prod_of_mem_advance advances] at lhs
    exact ih lhs
  | empty _ _ _ ih => exact ih lhs

end Grammar

end Scannerless
