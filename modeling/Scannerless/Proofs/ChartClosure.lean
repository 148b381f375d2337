import Scannerless.Proofs.Agenda

/-!
# Closure of the chart

The chart of recognition as a least fixpoint. `Grammar.Rule` says what can be inferred from items
that have been found, one rule for each thing that recognition does, and `Grammar.Closed` that
items and links leave nothing to be inferred. The chart is the least that is closed, so that
neither a waiter nor a result is missed, whichever of them comes first, and no link is there
without a rule.
-/

namespace Scannerless

namespace Grammar

/-! ## The rules -/

/-- What can be inferred from items that have been found: an item, and the link by which it is
reached, unless a production begins with it. -/
inductive Rule (g : Grammar) (input : Input) (root : Symbol) (found : Item → Prop) :
    Item → Option Backlink → Prop
  /-- The productions of the root begin where the text does. -/
  | start {p : ProdId} (defines : p ∈ g.prodsFor root) :
    Rule g input root found ⟨0, .ofStart p, 0⟩ none
  /-- The productions of a symbol begin where the symbol is due. -/
  | predict {item : Item} {node : StackNode} {p : ProdId} (has : found item)
    (due : item.state.next? g = some node) (calls : node.isTerminal = false)
    (defines : p ∈ g.prodsFor node.symbol) :
    Rule g input root found ⟨item.pos, .ofStart p, item.pos⟩ none
  /-- An item goes on past a terminal that matches. -/
  | scan {item : Item} {node : StackNode} {stop : Nat} {state : Dotted} (has : found item)
    (due : item.state.next? g = some node) (terminal : node.isTerminal = true)
    (scanned : node.symbol.scan? input item.pos = some stop)
    (advances : state ∈ item.state.advance g) :
    Rule g input root found ⟨stop, state, item.origin⟩
      (some ⟨item.pos, item.state.index, some ⟨node.id, ⟨item.pos, stop⟩⟩⟩)
  /-- An item goes on past a symbol for which a production from its offset on is complete. -/
  | complete {item part : Item} {node : StackNode} {state : Dotted} (has : found item)
    (due : item.state.next? g = some node) (calls : node.isTerminal = false)
    (hasPart : found part) (completed : part.state.isComplete g = true)
    (lhs : g.lhs? part.state.prod = some node.symbol) (origin : part.origin = item.pos)
    (advances : state ∈ item.state.advance g) :
    Rule g input root found ⟨part.pos, state, item.origin⟩
      (some ⟨item.pos, item.state.index, some ⟨node.id, ⟨item.pos, part.pos⟩⟩⟩)
  /-- A list that needs no element is complete where it began. -/
  | empty {item : Item} (has : found item) (incomplete : item.state.isComplete g = false)
    (allows : item.state.allowsEmpty g = true) (here : item.pos = item.origin) :
    Rule g input root found { item with state := .complete g item.state.prod }
      (some ⟨item.pos, item.state.index, none⟩)

/-- Items and links that leave nothing to be inferred. -/
structure Closed (g : Grammar) (input : Input) (root : Symbol) (items : Item → Prop)
    (links : Item → Backlink → Prop) : Prop where
  item : ∀ {item : Item} {link : Option Backlink}, Rule g input root items item link → items item
  link : ∀ {item : Item} {link : Backlink}, Rule g input root items item (some link) →
    links item link

theorem Wired.isTerminal_of_mem_prodsFor {g : Grammar} (wired : g.Wired) {p : ProdId}
    {symbol : Symbol} (defines : p ∈ g.prodsFor symbol) : symbol.isTerminal = false := by
  obtain ⟨entry, found, rfl⟩ := wired.mem_prodsFor.1 defines
  exact wired.isTerminal_of_lhs found

section Rules

variable {g : Grammar} {input : Input} {root : Symbol} {items : Item → Prop}
  {links : Item → Backlink → Prop} {item : Item} {link : Backlink}

/-- What a rule infers from reached items is reached. -/
theorem Rule.reached {by_ : Option Backlink}
    (rule : Rule g input root (Reached g input root) item by_) : Reached g input root item := by
  cases rule with
  | start defines => exact .start defines
  | predict has due _ defines => exact .predict has due defines
  | scan has due _ scanned advances => exact .scan has due scanned advances
  | complete has due _ hasPart completed lhs origin advances =>
    exact .complete has due hasPart completed lhs origin advances
  | empty has _ allows here => exact .empty has allows here

/-- Whatever is closed has all that is reached. -/
theorem Closed.of_reached (wired : g.Wired) (closed : g.Closed input root items links)
    (reached : Reached g input root item) : items item := by
  induction reached with
  | start defines => exact closed.item (.start defines)
  | predict _ due defines ih =>
    exact closed.item (.predict ih due (wired.isTerminal_of_mem_prodsFor defines) defines)
  | scan _ due scanned advances ih =>
    exact closed.item (.scan ih due (Symbol.isTerminal_of_scan scanned) scanned advances)
  | complete _ due _ completed lhs origin advances ih ihPart =>
    exact closed.item (.complete ih due (wired.isTerminal_of_lhs? lhs) ihPart completed lhs origin
      advances)
  | @empty item _ allows here ih =>
    cases complete : item.state.isComplete g with
    | false => exact closed.item (.empty ih complete allows here)
    | true => rwa [Dotted.complete_of_isComplete complete]

/-- What a rule infers from reached items is linked as the rule says. -/
theorem Rule.linked (wired : g.Wired)
    (rule : Rule g input root (Reached g input root) item (some link)) :
    g.Linked input root item link := by
  cases rule with
  | @scan item node stop state has due _ scanned advances =>
    obtain ⟨pos, ⟨p, index⟩, origin⟩ := item
    obtain ⟨q, after⟩ := state
    obtain rfl : q = p := Dotted.prod_of_mem_advance advances
    exact ⟨has, node, due, rfl, rfl, .inl scanned, advances⟩
  | @complete item part node state has due _ hasPart completed lhs here advances =>
    obtain ⟨pos, ⟨p, index⟩, origin⟩ := item
    obtain ⟨q, after⟩ := state
    obtain rfl : q = p := Dotted.prod_of_mem_advance advances
    have known := hasPart.completed wired completed lhs
    rw [here] at known
    exact ⟨has, node, due, rfl, rfl, .inr ⟨_, known⟩, advances⟩
  | empty has incomplete allows here => exact ⟨has, incomplete, allows, here, rfl⟩

/-- Every link between reached items is there by a rule. -/
theorem Linked.rule (wired : g.Wired) (linked : g.Linked input root item link) :
    Rule g input root (Reached g input root) item (some link) := by
  obtain ⟨pos, ⟨p, index⟩, origin⟩ := item
  obtain ⟨prevPos, prevIndex, matched⟩ := link
  unfold Linked at linked
  dsimp only at linked
  obtain ⟨reached, by_⟩ := linked
  cases matched with
  | none =>
    obtain ⟨incomplete, allows, here, eq⟩ := by_
    rw [eq]
    exact .empty reached incomplete allows here
  | some found =>
    obtain ⟨id, span⟩ := found
    obtain ⟨node, due, rfl, rfl, covered, advances⟩ := by_
    rcases covered with scanned | ⟨q, lhs, completed⟩
    · exact .scan reached due (Symbol.isTerminal_of_scan scanned) scanned advances
    · exact .complete reached due (wired.isTerminal_of_lhs? lhs) completed
        (beq_self_eq_true _) lhs rfl advances

/-- Every reached item is there by a rule. -/
theorem Reached.exists_rule (wired : g.Wired) (reached : Reached g input root item) :
    ∃ by_, Rule g input root (Reached g input root) item by_ := by
  induction reached with
  | start defines => exact ⟨_, .start defines⟩
  | predict has due defines =>
    exact ⟨_, .predict has due (wired.isTerminal_of_mem_prodsFor defines) defines⟩
  | scan has due scanned advances =>
    exact ⟨_, .scan has due (Symbol.isTerminal_of_scan scanned) scanned advances⟩
  | complete has due hasPart completed lhs origin advances =>
    exact ⟨_, .complete has due (wired.isTerminal_of_lhs? lhs) hasPart completed lhs origin
      advances⟩
  | @empty item has allows here ih =>
    cases complete : item.state.isComplete g with
    | false => exact ⟨_, .empty has complete allows here⟩
    | true => rwa [Dotted.complete_of_isComplete complete]

/-- Rules do not care how it is said that an item has been found. -/
theorem Rule.imp {found known : Item → Prop} {by_ : Option Backlink}
    (knows : ∀ {item : Item}, found item → known item)
    (rule : Rule g input root found item by_) : Rule g input root known item by_ := by
  cases rule with
  | start defines => exact .start defines
  | predict has due calls defines => exact .predict (knows has) due calls defines
  | scan has due terminal scanned advances =>
    exact .scan (knows has) due terminal scanned advances
  | complete has due calls hasPart completed lhs origin advances =>
    exact .complete (knows has) due calls (knows hasPart) completed lhs origin advances
  | empty has incomplete allows here => exact .empty (knows has) incomplete allows here

end Rules

/-! ## The chart -/

/-- Whatever the grammar, the text and the symbol, the chart is closed under the rules and is least
among all that is: every item and every link of it is there by a rule from its items. At no moment
of the run has an item waited for a symbol without having gone on past each of its results. -/
theorem recognize_least_closed {start : Symbol} {script : List Declaration} {g : Grammar}
    (built : (Grammar.ofScript start script).value = .ok g) (input : Input) (root : Symbol) :
    let chart := (g.recognize input root).value
    g.Closed input root (chart.hasItem · = true) (fun item link => link ∈ chart.links item) ∧
    (∀ (items : Item → Prop) (links : Item → Backlink → Prop),
      g.Closed input root items links →
        (∀ item, chart.hasItem item = true → items item) ∧
        ∀ item, ∀ link ∈ chart.links item, links item link) ∧
    (∀ item, chart.hasItem item = true →
      ∃ by_, Rule g input root (chart.hasItem · = true) item by_) ∧
    (∀ item, ∀ link ∈ chart.links item,
      Rule g input root (chart.hasItem · = true) item (some link)) ∧
    ∀ (steps : Nat) (site : CallSite) (waiter : Item) (stop : Nat),
      let known := Recognition.run g input steps (.opening g root) |>.chart
      waiter ∈ (known.callAt site).waiters → stop ∈ (known.callAt site).results →
        ∀ arrival ∈ resumptions g waiter stop, known.Has arrival := by
  intro chart
  have wired := Wired.of_script built
  have full : chart.Full g input root := wired.full_recognize input root
  have reaches : ∀ {item : Item}, chart.hasItem item = true → Reached g input root item :=
    full.hasItem_iff.1
  have found : ∀ {item : Item}, Reached g input root item → chart.hasItem item = true :=
    full.hasItem_iff.2
  have links_by : ∀ item, ∀ link ∈ chart.links item,
      Rule g input root (Reached g input root) item (some link) :=
    fun item link linked => (full.mem_links_iff.1 linked).rule wired
  refine ⟨⟨fun rule => ?_, fun rule => ?_⟩, fun items links closed => ⟨?_, ?_⟩, ?_, ?_, ?_⟩
  · exact found (rule.imp reaches).reached
  · exact full.mem_links_iff.2 ((rule.imp reaches).linked wired)
  · exact fun item has => closed.of_reached wired (reaches has)
  · intro item link linked
    exact closed.link ((links_by item link linked).imp (closed.of_reached wired))
  · intro item has
    obtain ⟨by_, rule⟩ := (reaches has).exists_rule wired
    exact ⟨by_, rule.imp found⟩
  · exact fun item link linked => (links_by item link linked).imp found
  · intro steps site waiter stop known waits ends
    obtain ⟨opened, -, -⟩ := Recognition.Running.opening wired input root
    exact (opened.run wired steps).1.regular.paired.resumed waits ends

/-- In the cyclic grammar, `S` over the text `a` is completed by a production that goes on past `S`
over the same text, and the rule for it closes the chart. -/
theorem recognize_least_closed_cyclic : ∃ g,
    (Grammar.ofScript (.nonTerminal "S") Example.cyclic).value = .ok g ∧
    let chart := (g.recognize (Input.ofString "a") (.nonTerminal "S")).value
    chart.hasItem ⟨1, .complete g 0, 0⟩ = true ∧
    (∃ by_, Rule g (Input.ofString "a") (.nonTerminal "S") (chart.hasItem · = true)
      ⟨1, .complete g 0, 0⟩ by_) := by
  obtain ⟨g, built, tested⟩ := exists_of_script (.nonTerminal "S") Example.cyclic
    (fun g => (g.recognize (Input.ofString "a") (.nonTerminal "S")).value.hasItem
      ⟨1, .complete g 0, 0⟩) (by decide +kernel)
  obtain ⟨-, -, by_rule, -⟩ :=
    recognize_least_closed built (Input.ofString "a") (.nonTerminal "S")
  exact ⟨g, built, tested, by_rule _ tested⟩

end Grammar

end Scannerless
