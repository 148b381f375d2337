import Scannerless.Grammar.Example
import Scannerless.Proofs.Saturation

/-!
# The agenda

The work of recognition, item by item. A run takes the items from the agenda in the order in which
they were put there. The agenda lists each item of the chart once, and a run is over when it has
taken them all, so that every item is put on the agenda once and processed once.

A call is reported when the productions of its symbol are started. `Recognition.Reported` says that
the calls of the chart are those reported, each of them once.
-/

namespace Scannerless

/-- The call that an event reports. -/
def Event.callSite? : Event → Option CallSite
  | calling symbol offset => some ⟨symbol, offset⟩
  | _ => none

namespace Recognition

/-! ## Runs -/

variable {g : Grammar} {input : Input} {root : Symbol} {r : Recognition}

theorem run_add (first second : Nat) :
    run g input (first + second) r = run g input second (run g input first r) := by
  induction first generalizing r with
  | zero => rw [Nat.zero_add, run]
  | succ first ih =>
    rw [Nat.add_right_comm, run, run]
    cases due : r.due? with
    | none => exact (run_of_done due second).symm
    | some item => exact ih

/-! ## Calls are started once -/

/-- The calls of the chart are those reported, each of them once. -/
structure Reported (r : Recognition) : Prop where
  nodup : (r.events.toList.filterMap Event.callSite?).Nodup
  mem_iff : ∀ site, site ∈ r.events.toList.filterMap Event.callSite? ↔
    r.chart.calls.contains site = true

theorem Reported.of_eq {later : Recognition} (reported : r.Reported)
    (events : later.events.toList.filterMap Event.callSite? =
      r.events.toList.filterMap Event.callSite?)
    (calls : ∀ site, later.chart.calls.contains site = true ↔
      r.chart.calls.contains site = true) : later.Reported := by
  refine ⟨?_, fun site => ?_⟩
  · rw [events]
    exact reported.nodup
  · rw [events, calls]
    exact reported.mem_iff site

@[simp] theorem events_addAll {arrivals : List Arrival} :
    (r.addAll arrivals).events = r.events := by
  induction arrivals generalizing r with
  | nil => rfl
  | cons arrival rest ih => exact ih

theorem Reported.addAll (reported : r.Reported) (arrivals : List Arrival) :
    (r.addAll arrivals).Reported :=
  reported.of_eq (by rw [events_addAll]) (by simp)

theorem Reported.start (reported : r.Reported) (site : CallSite) :
    (r.start g site).Reported := by
  rw [start_eq]
  split
  · exact reported
  next unknown =>
  refine Reported.addAll ⟨?_, fun asked => ?_⟩ _
  · rw [Array.toList_push, List.filterMap_append]
    refine List.nodup_append.2 ⟨reported.nodup, List.pairwise_singleton _ _, ?_⟩
    intro earlier inEvents last isLast
    rw [List.mem_singleton.1 isLast]
    rintro rfl
    exact unknown ((reported.mem_iff _).1 inEvents)
  · dsimp only
    rw [Chart.contains_setCall, ← reported.mem_iff, Array.toList_push, List.filterMap_append,
      List.mem_append]
    exact or_congr_right List.mem_singleton

/-- Putting down more about a call that is known starts none. -/
theorem contains_setCall_of_known {chart : Chart} {site : CallSite}
    (known : chart.calls.contains site = true) (call : Call) (asked : CallSite) :
    (chart.setCall site call).calls.contains asked = true ↔
      chart.calls.contains asked = true := by
  rw [Chart.contains_setCall]
  exact or_iff_left_of_imp fun same => same ▸ known

theorem Reported.call (wired : g.Wired) (regular : r.Regular g input root) (reported : r.Reported)
    {item : Item} {node : StackNode} (has : r.chart.hasItem item = true)
    (due : item.state.next? g = some node) (nonTerminal : node.isTerminal = false) :
    (r.call g ⟨node.symbol, item.pos⟩ item).Reported := by
  have called : g.Called input root ⟨node.symbol, item.pos⟩ :=
    .inr ⟨item, node, regular.sound.reached has, due, nonTerminal, rfl⟩
  obtain ⟨-, -, known⟩ := regular.start wired called
  have started := reported.start (g := g) ⟨node.symbol, item.pos⟩
  rw [call_eq]
  split
  · exact started
  · refine Reported.addAll ?_ _
    exact started.of_eq rfl (contains_setCall_of_known known _)

theorem Reported.complete (regular : r.Regular g input root) (reported : r.Reported)
    {item : Item} {entry : WiredProduction} (has : r.chart.hasItem item = true)
    (found : g.prod? item.state.prod = some entry) : (r.complete g item).Reported := by
  have known := regular.paired.home has (Grammar.lhs_of_prod found)
  have silent : ∀ symbol span, (r.events.push (.completed symbol span)).toList.filterMap
      Event.callSite? = r.events.toList.filterMap Event.callSite? := by
    intro symbol span
    rw [Array.toList_push, List.filterMap_append]
    exact List.append_nil _
  rw [complete_eq r found]
  split
  · exact reported.of_eq (silent _ _) fun _ => Iff.rfl
  · refine .addAll (reported.of_eq (silent _ _) fun asked => ?_) _
    exact contains_setCall_of_known known _ asked

theorem Reported.completeEmpty (reported : r.Reported) (item : Item) :
    (r.completeEmpty g item).Reported := by
  unfold Recognition.completeEmpty
  split
  · exact reported.addAll [(_, _)]
  · exact reported

theorem Reported.process (wired : g.Wired) (regular : r.Regular g input root)
    (reported : r.Reported) {item : Item} (has : r.chart.hasItem item = true) :
    (r.process g input item).Reported := by
  obtain ⟨entry, found, -⟩ := ((regular.sound.reached has).inBounds wired).place
  unfold Recognition.process
  split
  · exact reported.complete regular has found
  next incomplete =>
  obtain ⟨kept, leads, -⟩ := regular.completeEmpty has (Bool.eq_false_iff.2 incomplete)
  have same := reported.completeEmpty (g := g) item
  dsimp only
  cases due : item.state.next? g with
  | none => exact same
  | some node =>
    unfold StackNode.step
    dsimp only
    cases terminal : node.isTerminal with
    | false => exact same.call wired kept (leads.extends_.items has) due terminal
    | true =>
      rw [if_pos rfl]
      cases node.symbol.scan? input item.pos with
      | none => exact same
      | some stop =>
        dsimp only
        rw [resume_eq]
        exact same.addAll _

theorem Reported.run (wired : g.Wired) : ∀ (items : Nat) {r : Recognition},
    r.Running g input root → r.Reported → (Recognition.run g input items r).Reported := by
  intro items
  induction items with
  | zero => exact fun _ reported => reported
  | succ items ih =>
    intro r running reported
    rw [Recognition.run]
    cases due : r.due? with
    | none => exact reported
    | some item =>
      obtain ⟨kept, -, has⟩ := running.take due
      have reportedStill : (r.take item).Reported := ⟨reported.nodup, reported.mem_iff⟩
      exact ih (running.step wired due).1 (reportedStill.process wired kept has)

theorem Reported.opening (g : Grammar) (root : Symbol) :
    (Recognition.opening g root).Reported := by
  have empty : Reported {} := ⟨List.nodup_nil, fun site => by simp⟩
  unfold Recognition.opening
  split
  · exact empty.start _
  · exact empty

/-- The chart has as many items as the agenda. -/
theorem Listed.numItems_eq (listed : r.Listed) : r.chart.numItems = r.agenda.size := by
  unfold Chart.numItems
  rw [← Std.TreeMap.length_keys, ← Array.length_toList]
  have nodup : r.chart.items.keys.Nodup := by
    refine List.Pairwise.imp (fun {item other} different same => ?_) Std.TreeMap.distinct_keys
    exact different (Std.LawfulEqOrd.compare_eq_iff_eq.2 same)
  refine List.Perm.length_eq ((List.perm_ext_iff_of_nodup nodup listed.nodup).2 fun item => ?_)
  rw [listed.mem_iff, Std.TreeMap.mem_keys]
  exact Std.TreeMap.mem_iff_contains

end Recognition

namespace Grammar

variable {g : Grammar}

/-- Recognition ends, whatever the grammar, the text and the symbol, and more time changes nothing.
The items that it takes from its agenda are those that have been put there, in this order; these
are the items of the chart, each of them once. Every item lies within the text and its production,
every call is started once, and the items are no more than there are places for. -/
theorem recognition_takes_each_item_once {start : Symbol} {script : List Declaration} {g : Grammar}
    (built : (Grammar.ofScript start script).value = .ok g) (input : Input) (root : Symbol) :
    let r := g.recognition input root
    r.due? = none ∧
    (∀ more : Nat, Recognition.run g input (g.itemBound input.length + more)
      (.opening g root) = r) ∧
    r.taken.toList = r.agenda.toList ∧
    r.agenda.toList.Nodup ∧
    (∀ item : Item, item ∈ r.agenda.toList ↔ r.chart.hasItem item = true) ∧
    (∀ item : Item, r.chart.hasItem item = true → item.origin ≤ item.pos ∧
      item.pos ≤ input.length ∧ item.state.index ≤ g.slots item.state.prod) ∧
    (r.events.toList.filterMap Event.callSite?).Nodup ∧
    (∀ site : CallSite, site ∈ r.events.toList.filterMap Event.callSite? ↔
      r.chart.calls.contains site = true) ∧
    r.chart.numItems = r.agenda.size ∧
    r.chart.numItems ≤ (g.prodIds.map fun p => g.slots p + 1).sum *
      ((input.length + 1) * (input.length + 2) / 2) := by
  intro r
  have wired := Wired.of_script built
  obtain ⟨opened, -, -⟩ := Recognition.Running.opening wired input root
  obtain ⟨running, all, -⟩ := wired.running_recognition input root
  have ends : r.due? = none :=
    Array.getElem?_eq_none (Nat.le_of_eq (congrArg Array.size all.symm))
  have eq_run : r = Recognition.run g input (g.itemBound input.length) (.opening g root) :=
    recognition_eq_run g input root
  have listed := running.regular.listed
  have reported : r.Reported := eq_run ▸ (Recognition.Reported.opening g root).run wired _ opened
  refine ⟨ends, fun more => ?_, congrArg Array.toList all, listed.nodup, listed.mem_iff, fun item has => ?_,
    reported.nodup, reported.mem_iff, listed.numItems_eq, ?_⟩
  · rw [Recognition.run_add, ← eq_run]
    exact Recognition.run_of_done ends more
  · have bounds := (running.regular.sound.reached has).inBounds wired
    obtain ⟨entry, found, place⟩ := bounds.place
    refine ⟨bounds.origin_le, bounds.pos_le, ?_⟩
    rwa [wired.slots_eq found]
  · rw [listed.numItems_eq]
    exact running.regular.size_le wired

/-- Over a text of one character, the cyclic grammar with its two productions of one symbol each
has places for 12 items. -/
theorem recognition_takes_each_item_once_cyclic : ∃ g,
    (Grammar.ofScript (.nonTerminal "S") Example.cyclic).value = .ok g ∧
    let r := g.recognition (Input.ofString "a") (.nonTerminal "S")
    r.taken.toList = r.agenda.toList ∧ r.agenda.toList.Nodup ∧ r.chart.numItems ≤ 12 := by
  obtain ⟨g, built, tested⟩ := exists_of_script (.nonTerminal "S") Example.cyclic
    (fun g => (g.prodIds.map fun p => g.slots p + 1).sum == 4) (by decide +kernel)
  obtain ⟨-, -, takes, nodup, -, -, -, -, -, bound⟩ :=
    recognition_takes_each_item_once built (Input.ofString "a") (.nonTerminal "S")
  rw [eq_of_beq tested] at bound
  exact ⟨g, built, takes, nodup, bound⟩

end Grammar

end Scannerless
