import Scannerless.Chart.Recognize

/-!
# Chart tables

How each entry changes what a chart answers. The questions are those of the chart itself: which
items it has, by which links they were reached, what is known at a call site, and which productions
are complete over a constituent.

`Recognition.addAll` adds items one after another. Resuming an item and starting a symbol come down
to it, so that its lemmas say all that recognition does to the items of the chart.
-/

namespace Scannerless

namespace Chart

variable {chart : Chart} {item other : Item} {link : Option Backlink} {site : CallSite}

/-! ## Items and links -/

theorem hasItem_iff : chart.hasItem item = true ↔ ∃ links, chart.items[item]? = some links := by
  unfold hasItem
  rw [Std.TreeMap.contains_eq_isSome_getElem?, Option.isSome_iff_exists]

theorem mem_links_iff {found : Backlink} :
    found ∈ chart.links item ↔ ∃ links, chart.items[item]? = some links ∧ found ∈ links := by
  unfold links
  cases chart.items[item]? with
  | none => simp
  | some links => simp

theorem items_addItem : (chart.addItem item link).2.items[other]? =
    if item = other then some ((chart.items[item]?.getD ∅).insertMany link.toList)
    else chart.items[other]? := by
  unfold addItem
  dsimp only
  rw [Std.TreeMap.getElem?_insert]
  simp only [Std.LawfulEqOrd.compare_eq_iff_eq]

@[simp] theorem hasItem_addItem : (chart.addItem item link).2.hasItem other = true ↔
    chart.hasItem other = true ∨ other = item := by
  rw [hasItem_iff, hasItem_iff, items_addItem]
  split
  · next same => simp [same]
  · next different => simp [Ne.symm different]

@[simp] theorem mem_links_addItem {found : Backlink} :
    found ∈ (chart.addItem item link).2.links other ↔
      found ∈ chart.links other ∨ (other = item ∧ link = some found) := by
  rw [mem_links_iff, mem_links_iff, items_addItem]
  split
  · next same =>
    subst same
    cases chart.items[item]? with
    | none => simp
    | some links => simp
  · next different => simp [Ne.symm different]

/-- An item is new if the chart did not have it. -/
theorem fst_addItem : (chart.addItem item link).1 = !chart.hasItem item := by
  unfold addItem hasItem
  dsimp only
  rw [Std.TreeMap.contains_eq_isSome_getElem?]
  cases chart.items[item]? <;> rfl

@[simp] theorem calls_addItem : (chart.addItem item link).2.calls = chart.calls := rfl

@[simp] theorem completions_addItem :
    (chart.addItem item link).2.completions = chart.completions := rfl

/-! ## Calls -/

theorem calls_setCall {call : Call} {asked : CallSite} :
    (chart.setCall site call).calls[asked]? =
      if site = asked then some call else chart.calls[asked]? := by
  unfold setCall
  dsimp only
  rw [Std.TreeMap.getElem?_insert]
  simp only [Std.LawfulEqOrd.compare_eq_iff_eq]

@[simp] theorem callAt_setCall {call : Call} {asked : CallSite} :
    (chart.setCall site call).callAt asked =
      if site = asked then call else chart.callAt asked := by
  unfold callAt
  rw [Std.TreeMap.getD_eq_getD_getElem?, Std.TreeMap.getD_eq_getD_getElem?, calls_setCall]
  split <;> rfl

@[simp] theorem contains_setCall {call : Call} {asked : CallSite} :
    (chart.setCall site call).calls.contains asked = true ↔
      chart.calls.contains asked = true ∨ asked = site := by
  rw [Std.TreeMap.contains_eq_isSome_getElem?, Std.TreeMap.contains_eq_isSome_getElem?,
    calls_setCall]
  split
  · next same => simp [same]
  · next different => simp [Ne.symm different]

theorem callAt_of_not_contains (unknown : chart.calls.contains site = false) :
    chart.callAt site = {} := by
  unfold callAt
  rw [Std.TreeMap.getD_eq_fallback_of_contains_eq_false unknown]

/-! ## Completions -/

theorem mem_completed_iff {constituent : Constituent} {p : ProdId} :
    p ∈ chart.completed constituent ↔
      ∃ prods, chart.completions[constituent]? = some prods ∧ p ∈ prods := by
  unfold completed
  cases chart.completions[constituent]? with
  | none => simp
  | some prods => simp

@[simp] theorem mem_completed_addCompletion {constituent asked : Constituent} {p q : ProdId} :
    q ∈ (chart.addCompletion constituent p).completed asked ↔
      q ∈ chart.completed asked ∨ (asked = constituent ∧ q = p) := by
  rw [mem_completed_iff, mem_completed_iff]
  unfold addCompletion
  dsimp only
  rw [Std.TreeMap.getElem?_insert, Std.TreeMap.getD_eq_getD_getElem?]
  simp only [Std.LawfulEqOrd.compare_eq_iff_eq]
  split
  · next same =>
    subst same
    cases chart.completions[constituent]? with
    | none => simp [eq_comm (a := p)]
    | some prods => simp [eq_comm (a := p), or_comm]
  · next different => simp [Ne.symm different]

end Chart

namespace Call

/-- What is known at a call site once an item waits there. -/
def wait (call : Call) (waiter : Item) : Call :=
  { call with waiters := call.waiters.insert waiter }

/-- What is known at a call site once a reduction ends there. -/
def finish (call : Call) (stop : Nat) : Call :=
  { call with results := call.results.insert stop }

variable {call : Call}

theorem mem_wait {waiter other : Item} :
    other ∈ (call.wait waiter).waiters ↔ other = waiter ∨ other ∈ call.waiters := by
  unfold wait
  dsimp only
  rw [Std.TreeSet.mem_insert, Std.LawfulEqOrd.compare_eq_iff_eq, eq_comm]

theorem mem_finish {stop other : Nat} :
    other ∈ (call.finish stop).results ↔ other = stop ∨ other ∈ call.results := by
  unfold finish
  dsimp only
  rw [Std.TreeSet.mem_insert, Std.LawfulEqOrd.compare_eq_iff_eq, eq_comm]

end Call

/-! ## Adding items one after another -/

/-- An item to be added, and the link by which it is reached. -/
abbrev Arrival := Item × Option Backlink

namespace Recognition

variable {r : Recognition} {item other : Item} {link : Option Backlink} {arrivals : List Arrival}

/-- Adds items in order. -/
def addAll (r : Recognition) (arrivals : List Arrival) : Recognition :=
  arrivals.foldl (fun r arrival => r.add arrival.1 arrival.2) r

theorem addAll_append (r : Recognition) (first second : List Arrival) :
    r.addAll (first ++ second) = (r.addAll first).addAll second :=
  List.foldl_append

theorem chart_add : (r.add item link).chart = (r.chart.addItem item link).2 := rfl

theorem hasItem_addAll : (r.addAll arrivals).chart.hasItem other = true ↔
    r.chart.hasItem other = true ∨ ∃ link, (other, link) ∈ arrivals := by
  induction arrivals generalizing r with
  | nil => simp [addAll]
  | cons arrival rest ih =>
    obtain ⟨item, link⟩ := arrival
    have step := ih (r := r.add item link)
    rw [chart_add, Chart.hasItem_addItem] at step
    refine step.trans ?_
    simp only [List.mem_cons, Prod.mk.injEq]
    constructor
    · rintro ((had | rfl) | ⟨found, later⟩)
      · exact .inl had
      · exact .inr ⟨link, .inl ⟨rfl, rfl⟩⟩
      · exact .inr ⟨found, .inr later⟩
    · rintro (had | ⟨found, ⟨rfl, -⟩ | later⟩)
      · exact .inl (.inl had)
      · exact .inl (.inr rfl)
      · exact .inr ⟨found, later⟩

theorem mem_links_addAll {found : Backlink} :
    found ∈ (r.addAll arrivals).chart.links other ↔
      found ∈ r.chart.links other ∨ (other, some found) ∈ arrivals := by
  induction arrivals generalizing r with
  | nil => simp [addAll]
  | cons arrival rest ih =>
    obtain ⟨item, link⟩ := arrival
    have step := ih (r := r.add item link)
    rw [chart_add, Chart.mem_links_addItem] at step
    refine step.trans ?_
    simp only [List.mem_cons, Prod.mk.injEq, or_assoc, eq_comm (a := link)]

@[simp] theorem calls_addAll : (r.addAll arrivals).chart.calls = r.chart.calls := by
  induction arrivals generalizing r with
  | nil => rfl
  | cons arrival rest ih => exact ih

@[simp] theorem callAt_addAll {site : CallSite} :
    (r.addAll arrivals).chart.callAt site = r.chart.callAt site := by
  unfold Chart.callAt
  rw [calls_addAll]

@[simp] theorem completed_addAll {constituent : Constituent} :
    (r.addAll arrivals).chart.completed constituent = r.chart.completed constituent := by
  unfold Chart.completed
  suffices same : (r.addAll arrivals).chart.completions = r.chart.completions by rw [same]
  induction arrivals generalizing r with
  | nil => rfl
  | cons arrival rest ih => exact ih

@[simp] theorem taken_addAll : (r.addAll arrivals).taken = r.taken := by
  induction arrivals generalizing r with
  | nil => rfl
  | cons arrival rest ih => exact ih

/-! ## The agenda -/

/-- The agenda lists every item of the chart once. -/
structure Listed (r : Recognition) : Prop where
  nodup : r.agenda.toList.Nodup
  mem_iff : ∀ item, item ∈ r.agenda.toList ↔ r.chart.hasItem item = true

theorem agenda_add : (r.add item link).agenda.toList =
    if r.chart.hasItem item = true then r.agenda.toList else r.agenda.toList ++ [item] := by
  unfold add
  rw [show r.chart.addItem item link =
    ((r.chart.addItem item link).1, (r.chart.addItem item link).2) from rfl]
  dsimp only
  rw [Chart.fst_addItem]
  cases r.chart.hasItem item <;> simp

theorem Listed.add (listed : r.Listed) : (r.add item link).Listed := by
  constructor
  · rw [agenda_add]
    split
    · exact listed.nodup
    · next unknown =>
      refine List.nodup_append.2 ⟨listed.nodup, List.pairwise_singleton _ item, ?_⟩
      intro first inAgenda second last
      rw [List.mem_singleton.1 last]
      rintro rfl
      exact unknown ((listed.mem_iff first).1 inAgenda)
  · intro other
    rw [agenda_add, chart_add, Chart.hasItem_addItem, ← listed.mem_iff other]
    split
    · next known =>
      constructor
      · exact .inl
      · rintro (inAgenda | rfl)
        · exact inAgenda
        · exact (listed.mem_iff other).2 known
    · rw [List.mem_append, List.mem_singleton]

theorem Listed.addAll (listed : r.Listed) : (r.addAll arrivals).Listed := by
  induction arrivals generalizing r with
  | nil => exact listed
  | cons arrival rest ih => exact ih listed.add

theorem prefix_agenda_addAll : r.agenda.toList <+: (r.addAll arrivals).agenda.toList := by
  induction arrivals generalizing r with
  | nil => exact List.prefix_refl _
  | cons arrival rest ih =>
    refine List.IsPrefix.trans ?_ (ih (r := r.add arrival.1 arrival.2))
    rw [agenda_add]
    split
    · exact List.prefix_refl _
    · exact List.prefix_append _ _

end Recognition

end Scannerless
