import Mathlib.Algebra.BigOperators.Ring.List
import Mathlib.Tactic.Ring
import Scannerless.Proofs.Recognition

/-!
# Saturation

The whole run of recognition. It stops only when every item has been taken, since an item has a
production, a place and two offsets, and `Grammar.itemBound` counts these. So
`Grammar.Wired.full_recognize` finds in the chart just what the rules of recognition reach.
-/

namespace Scannerless

/-! ## The number of items -/

/-- All items that have their place in a production of the grammar and their offsets in a text. -/
def Grammar.itemUniverse (g : Grammar) (length : Nat) : List Item :=
  g.prodIds.flatMap fun p =>
    (List.range (g.slots p + 1)).flatMap fun index =>
      (List.range (length + 1)).flatMap fun pos =>
        (List.range (pos + 1)).map fun origin => ⟨pos, ⟨p, index⟩, origin⟩

theorem sum_range_succ (length : Nat) :
    ((List.range (length + 1)).map (· + 1)).sum = (length + 1) * (length + 2) / 2 := by
  induction length with
  | zero => rfl
  | succ length ih =>
    rw [List.range_succ, List.map_append, List.sum_append, ih]
    have more : (length + 1 + 1) * (length + 1 + 2) =
        (length + 1) * (length + 2) + (length + 2) * 2 := by ring
    rw [more, Nat.add_mul_div_right _ _ (by decide)]
    rfl

theorem Grammar.length_itemUniverse (g : Grammar) (length : Nat) :
    (g.itemUniverse length).length = g.itemBound length := by
  unfold itemUniverse itemBound
  simp only [List.length_flatMap, List.length_map, List.length_range, List.map_const',
    List.sum_replicate_nat, sum_range_succ]
  exact List.sum_map_mul_right g.prodIds _ _

theorem Grammar.InBounds.mem_itemUniverse {g : Grammar} (wired : g.Wired) {input : Input}
    {item : Item} (bounds : g.InBounds input item) : item ∈ g.itemUniverse input.length := by
  obtain ⟨entry, found, place⟩ := bounds.place
  have here : item.state.prod < g.prods.size := (Array.getElem?_eq_some_iff.1 found).1
  have origin := bounds.origin_le
  have pos := bounds.pos_le
  have slots := wired.slots_eq found
  unfold itemUniverse
  refine List.mem_flatMap.2 ⟨item.state.prod, List.mem_range.2 here, ?_⟩
  refine List.mem_flatMap.2 ⟨item.state.index, List.mem_range.2 (by omega), ?_⟩
  refine List.mem_flatMap.2 ⟨item.pos, List.mem_range.2 (by omega), ?_⟩
  exact List.mem_map.2 ⟨item.origin, List.mem_range.2 (by omega), rfl⟩

/-! ## The run -/

namespace Recognition

variable {g : Grammar} {input : Input} {root : Symbol} {r : Recognition}

/-- The invariant of a run: it takes the items of the agenda in order, and those that it has taken
are settled. -/
structure Running (g : Grammar) (input : Input) (root : Symbol) (r : Recognition) : Prop where
  regular : r.Regular g input root
  taken : r.taken.toList <+: r.agenda.toList
  settled : ∀ item ∈ r.taken.toList, r.chart.Settled g input item

theorem toList_taken_take {item : Item} : (r.take item).taken.toList = r.taken.toList ++ [item] :=
  Array.toList_push

/-- The item that is taken next is in the chart. -/
theorem Running.take (running : r.Running g input root) {item : Item} (due : r.due? = some item) :
    Regular g input root (r.take item) ∧ (r.take item).taken.toList <+: r.agenda.toList ∧
      r.chart.hasItem item = true := by
  have at_ : r.agenda.toList[r.taken.size]? = some item := by
    rw [Array.getElem?_toList]
    exact due
  refine ⟨⟨⟨running.regular.listed.nodup, running.regular.listed.mem_iff⟩, running.regular.sound,
    running.regular.paired⟩, ?_, (running.regular.listed.mem_iff item).1 (List.mem_of_getElem? at_)⟩
  obtain ⟨rest, eq⟩ := running.taken
  rw [← eq, ← Array.length_toList, List.getElem?_append_right (Nat.le_refl _), Nat.sub_self] at at_
  obtain ⟨more, rfl⟩ : ∃ more, rest = item :: more := by
    cases rest with
    | nil => cases at_
    | cons first more => exact ⟨more, by rw [Option.some.inj at_]⟩
  rw [toList_taken_take, ← eq]
  exact ⟨more, List.append_assoc ..⟩

theorem Running.step (wired : g.Wired) (running : r.Running g input root) {item : Item}
    (due : r.due? = some item) :
    (process g input (r.take item) item).Running g input root ∧
      Leads (r.take item) (process g input (r.take item) item) := by
  obtain ⟨kept, taken, has⟩ := running.take due
  obtain ⟨regular, leads, settled⟩ := kept.process wired has
  refine ⟨⟨regular, ?_, fun other member => ?_⟩, leads⟩
  · rw [leads.taken]
    exact taken.trans leads.agenda
  · rw [leads.taken, toList_taken_take, List.mem_append, List.mem_singleton] at member
    rcases member with earlier | rfl
    · exact (running.settled other earlier).extends leads.extends_
    · exact settled

/-- A run keeps the invariant. It stops because the agenda is done, or because it may not go on. -/
theorem Running.run (wired : g.Wired) :
    ∀ (items : Nat) {r : Recognition}, r.Running g input root →
      (run g input items r).Running g input root ∧
        r.chart.Extends (run g input items r).chart ∧
        ((run g input items r).agenda.size ≤ (run g input items r).taken.size ∨
          (run g input items r).taken.size = r.taken.size + items) := by
  intro items
  induction items with
  | zero => exact fun running => ⟨running, .refl _, .inr rfl⟩
  | succ items ih =>
    intro r running
    unfold Recognition.run
    cases due : r.due? with
    | none => exact ⟨running, .refl _, .inl (Array.getElem?_eq_none_iff.1 due)⟩
    | some item =>
      obtain ⟨stepped, leads⟩ := running.step wired due
      obtain ⟨kept, extends_, ends⟩ := ih stepped
      refine ⟨kept, leads.extends_.trans extends_, ends.imp_right fun eq => ?_⟩
      have size : (r.take item).taken.size = r.taken.size + 1 := Array.size_push ..
      dsimp only
      rw [eq, leads.taken, size, Nat.add_assoc, Nat.add_comm 1]

/-- The agenda of a run holds no more items than there are. -/
theorem Regular.size_le (wired : g.Wired) (regular : r.Regular g input root) :
    r.agenda.size ≤ g.itemBound input.length := by
  rw [← Array.length_toList, ← g.length_itemUniverse]
  refine (List.subperm_of_subset regular.listed.nodup fun item member => ?_).length_le
  have has := (regular.listed.mem_iff item).1 member
  exact ((regular.sound.reached has).inBounds wired).mem_itemUniverse wired

theorem Regular.empty (g : Grammar) (input : Input) (root : Symbol) :
    Regular g input root {} where
  listed := ⟨List.nodup_nil, by simp [Chart.hasItem]⟩
  sound := by
    constructor <;> simp [Chart.hasItem, Chart.links, Chart.completed, Chart.callAt]
  paired := by
    constructor <;> simp [Chart.hasItem, Chart.callAt]

/-- Recognition before any item has been taken. -/
def opening (g : Grammar) (root : Symbol) : Recognition :=
  if g.isDefined root then start g {} ⟨root, 0⟩ else {}

theorem Running.opening (wired : g.Wired) (input : Input) (root : Symbol) :
    (Recognition.opening g root).Running g input root ∧
      (Recognition.opening g root).taken = #[] ∧
      (g.isDefined root = true →
        (Recognition.opening g root).chart.calls.contains ⟨root, 0⟩ = true) := by
  have empty := Regular.empty g input root
  unfold Recognition.opening
  split
  · next defined =>
    obtain ⟨opened, leads, rooted⟩ := empty.start wired (.inl ⟨rfl, defined⟩)
    have before : (Recognition.start g {} ⟨root, 0⟩).taken = #[] := leads.taken
    refine ⟨⟨opened, ?_, ?_⟩, before, fun _ => rooted⟩
    · rw [before]
      exact List.nil_prefix
    · rw [before]
      exact fun _ member => absurd member List.not_mem_nil
  · next undefined_ =>
    refine ⟨⟨empty, List.nil_prefix, ?_⟩, rfl, fun defined => absurd defined undefined_⟩
    exact fun _ member => absurd member List.not_mem_nil

/-- Without an item that is due, a run is over. -/
theorem run_of_done (done : r.due? = none) (items : Nat) : run g input items r = r := by
  cases items with
  | zero => rfl
  | succ items => rw [run, done]

end Recognition

namespace Grammar

variable {g : Grammar}

theorem recognition_eq_run (g : Grammar) (input : Input) (root : Symbol) :
    g.recognition input root =
      Recognition.run g input (g.itemBound input.length) (.opening g root) := by
  unfold recognition Recognition.opening
  split
  · rfl
  · exact (Recognition.run_of_done rfl _).symm

/-- Recognition comes to an end, and then all items of the agenda have been taken. -/
theorem Wired.running_recognition (wired : g.Wired) (input : Input) (root : Symbol) :
    (g.recognition input root).Running g input root ∧
      (g.recognition input root).taken = (g.recognition input root).agenda ∧
      (g.isDefined root = true →
        (g.recognition input root).chart.calls.contains ⟨root, 0⟩ = true) := by
  obtain ⟨running, before, rooted⟩ := Recognition.Running.opening wired input root
  rw [recognition_eq_run]
  obtain ⟨ran, extends_, ends⟩ := running.run wired (g.itemBound input.length)
  refine ⟨ran, Array.toList_inj.1 (ran.taken.eq_of_length_le ?_),
    fun defined => extends_.calls (rooted defined)⟩
  rw [Array.length_toList, Array.length_toList]
  rcases ends with done | taken
  · exact done
  · rw [taken, before, Array.size_empty, Nat.zero_add]
    exact ran.regular.size_le wired

end Grammar

/-! ## The chart -/

theorem Dotted.complete_of_isComplete {g : Grammar} {d : Dotted}
    (complete : d.isComplete g = true) : Dotted.complete g d.prod = d := by
  unfold Dotted.complete
  rw [beq_iff_eq.1 complete]

namespace Chart

/-- The chart says just what there is to find out. -/
structure Full (g : Grammar) (input : Input) (root : Symbol) (chart : Chart) : Prop where
  hasItem_iff : ∀ {item : Item}, chart.hasItem item = true ↔ g.Reached input root item
  mem_links_iff : ∀ {item : Item} {link : Backlink},
    link ∈ chart.links item ↔ g.Linked input root item link
  contains_iff : ∀ {site : CallSite},
    chart.calls.contains site = true ↔ g.Called input root site
  mem_completed_iff : ∀ {constituent : Constituent} {p : ProdId},
    p ∈ chart.completed constituent ↔ g.Completed input root p constituent
  mem_results_iff : ∀ {site : CallSite} {stop : Nat}, stop ∈ (chart.callAt site).results ↔
    ∃ p, g.Completed input root p ⟨site.symbol, ⟨site.offset, stop⟩⟩

variable {g : Grammar} {input : Input} {root : Symbol} {chart : Chart}

theorem contains_of_waiter {site : CallSite} {item : Item}
    (waiting : item ∈ (chart.callAt site).waiters) : chart.calls.contains site = true := by
  cases known : chart.calls.contains site with
  | true => rfl
  | false =>
    rw [callAt_of_not_contains known] at waiting
    simp at waiting

/-- A chart whose items are all settled. -/
structure Saturated (g : Grammar) (input : Input) (root : Symbol) (chart : Chart) : Prop where
  sound : chart.Sound g input root
  paired : chart.Paired g
  settled : ∀ {item : Item}, chart.hasItem item = true → chart.Settled g input item
  rooted : g.isDefined root = true → chart.calls.contains ⟨root, 0⟩ = true

namespace Saturated

theorem result (saturated : chart.Saturated g input root) {part : Item} {symbol : Symbol}
    (has : chart.hasItem part = true) (complete : part.state.isComplete g = true)
    (lhs : g.lhs? part.state.prod = some symbol) :
    part.state.prod ∈ chart.completed ⟨symbol, ⟨part.origin, part.pos⟩⟩ ∧
      part.pos ∈ (chart.callAt ⟨symbol, part.origin⟩).results := by
  obtain ⟨entry, found, rfl⟩ := Grammar.exists_prod_of_lhs lhs
  exact (saturated.settled has).completed complete found

/-- Each rule of recognition leads from items of the chart to items of the chart. -/
theorem hasItem (wired : g.Wired) (saturated : chart.Saturated g input root) {item : Item}
    (reached : g.Reached input root item) : chart.hasItem item = true := by
  induction reached with
  | start defines =>
    obtain ⟨entry, found, lhs_eq⟩ := wired.mem_prodsFor.1 defines
    have defined := wired.isDefined_iff.2 ⟨_, entry, found, lhs_eq⟩
    exact (saturated.paired.started (saturated.rooted defined) _
      (List.mem_map.2 ⟨_, defines, rfl⟩)).item
  | @predict item node p _ due defines ih =>
    obtain ⟨entry, found, lhs_eq⟩ := wired.mem_prodsFor.1 defines
    have nonTerminal := wired.isTerminal_of_lhs found
    rw [lhs_eq] at nonTerminal
    have called := contains_of_waiter ((saturated.settled ih).waits due nonTerminal)
    exact (saturated.paired.started called _ (List.mem_map.2 ⟨_, defines, rfl⟩)).item
  | scan _ due scanned advances ih =>
    exact ((saturated.settled ih).scanned due scanned _
      (mem_resumptions_iff.2 ⟨_, _, due, advances, rfl⟩)).item
  | @complete item part node state _ due _ complete lhs origin advances ih ihPart =>
    have waits := (saturated.settled ih).waits due (wired.isTerminal_of_lhs? lhs)
    have ends := (saturated.result ihPart complete lhs).2
    rw [origin] at ends
    exact (saturated.paired.resumed waits ends _
      (mem_resumptions_iff.2 ⟨_, _, due, advances, rfl⟩)).item
  | @empty item _ allows here ih =>
    cases complete : item.state.isComplete g with
    | false => exact ((saturated.settled ih).empty complete allows here).item
    | true => rwa [Dotted.complete_of_isComplete complete]

theorem completed (wired : g.Wired) (saturated : chart.Saturated g input root) {p : ProdId}
    {constituent : Constituent} (completed : g.Completed input root p constituent) :
    p ∈ chart.completed constituent ∧ constituent.span.stop ∈
      (chart.callAt ⟨constituent.symbol, constituent.span.start⟩).results :=
  saturated.result (saturated.hasItem wired completed.2) (beq_self_eq_true _) completed.1

theorem linked (wired : g.Wired) (saturated : chart.Saturated g input root) {item : Item}
    {link : Backlink} (linked : g.Linked input root item link) : link ∈ chart.links item := by
  obtain ⟨pos, ⟨p, index⟩, origin⟩ := item
  obtain ⟨prevPos, prevIndex, matched⟩ := link
  unfold Grammar.Linked at linked
  dsimp only at linked
  obtain ⟨reached, by_⟩ := linked
  have settled := saturated.settled (saturated.hasItem wired reached)
  cases matched with
  | none =>
    obtain ⟨incomplete, allows, here, eq⟩ := by_
    rw [eq]
    exact (settled.empty incomplete allows here).link rfl
  | some found =>
    obtain ⟨id, span⟩ := found
    obtain ⟨node, due, id_eq, span_eq, covered, advances⟩ := by_
    subst id_eq span_eq
    have arrives : (⟨⟨pos, ⟨p, index⟩, origin⟩,
        some ⟨prevPos, prevIndex, some ⟨node.id, ⟨prevPos, pos⟩⟩⟩⟩ : Arrival) ∈
          resumptions g ⟨prevPos, ⟨p, prevIndex⟩, origin⟩ pos :=
      mem_resumptions_iff.2 ⟨node, ⟨p, index⟩, due, advances, rfl⟩
    rcases covered with scanned | ⟨q, known⟩
    · exact (settled.scanned due scanned _ arrives).link rfl
    · have waits := settled.waits due (wired.isTerminal_of_lhs? known.1)
      exact (saturated.paired.resumed waits (saturated.completed wired known).2 _ arrives).link rfl

theorem called (wired : g.Wired) (saturated : chart.Saturated g input root) {site : CallSite}
    (called : g.Called input root site) : chart.calls.contains site = true := by
  rcases called with ⟨rfl, defined⟩ | ⟨item, node, reached, due, nonTerminal, rfl⟩
  · exact saturated.rooted defined
  · have settled := saturated.settled (saturated.hasItem wired reached)
    exact contains_of_waiter (settled.waits due nonTerminal)

/-- In a chart whose items are all settled, nothing is missing. -/
theorem full (wired : g.Wired) (saturated : chart.Saturated g input root) :
    chart.Full g input root where
  hasItem_iff := ⟨saturated.sound.reached, saturated.hasItem wired⟩
  mem_links_iff := ⟨saturated.sound.linked, saturated.linked wired⟩
  contains_iff := ⟨saturated.sound.called, saturated.called wired⟩
  mem_completed_iff :=
    ⟨saturated.sound.completed, fun known => (saturated.completed wired known).1⟩
  mem_results_iff := by
    refine ⟨fun ends => ?_, fun ⟨_, known⟩ => (saturated.completed wired known).2⟩
    obtain ⟨p, known⟩ := saturated.sound.result ends
    exact ⟨p, saturated.sound.completed known⟩

end Saturated

end Chart

namespace Grammar

variable {g : Grammar}

/-- Recognition finds all there is to find out. -/
theorem Wired.full_recognize (wired : g.Wired) (input : Input) (root : Symbol) :
    (g.recognize input root).value.Full g input root := by
  obtain ⟨running, all, rooted⟩ := wired.running_recognition input root
  have regular := running.regular
  refine Chart.Saturated.full wired ⟨regular.sound, regular.paired, fun {item} has => ?_, rooted⟩
  refine running.settled item ?_
  rw [all]
  exact (regular.listed.mem_iff item).2 has

end Grammar

end Scannerless
