import Scannerless.Chart.Recognize
import Scannerless.Proofs.ChartTables
import Scannerless.Proofs.Reached

/-!
# One step of recognition

What processing an item does to the chart. `Chart.Sound` says that the chart holds nothing but what
there is to find out, and `Chart.Paired` that what has been called has been started and that every
waiter has had every result. Both are kept by each operation, and nothing is ever taken from the
chart, which is `Chart.Extends`. After the step the item is `Chart.Settled`: whatever a rule of
recognition asks of it has been done or waits at a call.
-/

namespace Scannerless

/-! ## What is added -/

/-- What becomes of an item once its due symbol has been matched up to an offset. -/
def resumptions (g : Grammar) (item : Item) (stop : Nat) : List Arrival :=
  match item.state.next? g with
  | none => []
  | some node =>
    (item.state.advance g).map fun state =>
      (⟨stop, state, item.origin⟩,
        some ⟨item.pos, item.state.index, some ⟨node.id, ⟨item.pos, stop⟩⟩⟩)

/-- The productions of a symbol, before anything of them is recognized. -/
def beginnings (g : Grammar) (site : CallSite) : List Arrival :=
  (g.prodsFor site.symbol).map fun p => (⟨site.offset, .ofStart p, site.offset⟩, none)

namespace Chart

/-- The chart holds an item, with the link by which it was reached. -/
structure Has (chart : Chart) (arrival : Arrival) : Prop where
  item : chart.hasItem arrival.1 = true
  link : ∀ {link : Backlink}, arrival.2 = some link → link ∈ chart.links arrival.1

/-- Nothing of the chart is missing in the later one. -/
structure Extends (chart later : Chart) : Prop where
  items : ∀ {item : Item}, chart.hasItem item = true → later.hasItem item = true
  links : ∀ {item : Item} {link : Backlink}, link ∈ chart.links item → link ∈ later.links item
  calls : ∀ {site : CallSite}, chart.calls.contains site = true → later.calls.contains site = true
  results : ∀ {site : CallSite} {stop : Nat}, stop ∈ (chart.callAt site).results →
    stop ∈ (later.callAt site).results
  waiters : ∀ {site : CallSite} {item : Item}, item ∈ (chart.callAt site).waiters →
    item ∈ (later.callAt site).waiters
  completed : ∀ {constituent : Constituent} {p : ProdId}, p ∈ chart.completed constituent →
    p ∈ later.completed constituent

variable {chart middle later : Chart}

theorem Extends.refl (chart : Chart) : chart.Extends chart :=
  ⟨id, id, id, id, id, id⟩

theorem Extends.trans (first : chart.Extends middle) (second : middle.Extends later) :
    chart.Extends later where
  items had := second.items (first.items had)
  links had := second.links (first.links had)
  calls had := second.calls (first.calls had)
  results had := second.results (first.results had)
  waiters had := second.waiters (first.waiters had)
  completed had := second.completed (first.completed had)

theorem Has.extends {arrival : Arrival} (has : chart.Has arrival) (extends_ : chart.Extends later) :
    later.Has arrival :=
  ⟨extends_.items has.item, fun eq => extends_.links (has.link eq)⟩

theorem extends_setCall {site : CallSite} {call : Call}
    (results : ∀ stop ∈ (chart.callAt site).results, stop ∈ call.results)
    (waiters : ∀ item ∈ (chart.callAt site).waiters, item ∈ call.waiters) :
    chart.Extends (chart.setCall site call) where
  items had := had
  links had := had
  calls had := contains_setCall.2 (.inl had)
  results had := by
    rw [callAt_setCall]
    split
    · next same =>
      subst same
      exact results _ had
    · exact had
  waiters had := by
    rw [callAt_setCall]
    split
    · next same =>
      subst same
      exact waiters _ had
    · exact had
  completed had := had

theorem extends_addCompletion {constituent : Constituent} {p : ProdId} :
    chart.Extends (chart.addCompletion constituent p) where
  items had := had
  links had := had
  calls had := had
  results had := had
  waiters had := had
  completed had := mem_completed_addCompletion.2 (.inl had)

end Chart

namespace Recognition

variable {r : Recognition} {arrivals : List Arrival}

theorem extends_addAll : r.chart.Extends (r.addAll arrivals).chart where
  items had := hasItem_addAll.2 (.inl had)
  links had := mem_links_addAll.2 (.inl had)
  calls had := by rwa [calls_addAll]
  results had := by rwa [callAt_addAll]
  waiters had := by rwa [callAt_addAll]
  completed had := by rwa [completed_addAll]

theorem has_addAll {arrival : Arrival} (member : arrival ∈ arrivals) :
    (r.addAll arrivals).chart.Has arrival := by
  obtain ⟨item, link⟩ := arrival
  refine ⟨hasItem_addAll.2 (.inr ⟨link, member⟩), ?_⟩
  intro found eq
  cases eq
  exact mem_links_addAll.2 (.inr member)

end Recognition

/-! ## The invariant -/

/-- An item to be added that recognition can find, by a link that leads to it. -/
structure Justified (g : Grammar) (input : Input) (root : Symbol) (arrival : Arrival) : Prop where
  reached : g.Reached input root arrival.1
  linked : ∀ {link : Backlink}, arrival.2 = some link → g.Linked input root arrival.1 link

/-- The chart holds nothing but what there is to find out. -/
structure Chart.Sound (g : Grammar) (input : Input) (root : Symbol) (chart : Chart) : Prop where
  reached : ∀ {item : Item}, chart.hasItem item = true → g.Reached input root item
  linked : ∀ {item : Item} {link : Backlink}, link ∈ chart.links item →
    g.Linked input root item link
  called : ∀ {site : CallSite}, chart.calls.contains site = true → g.Called input root site
  completed : ∀ {constituent : Constituent} {p : ProdId}, p ∈ chart.completed constituent →
    g.Completed input root p constituent
  result : ∀ {site : CallSite} {stop : Nat}, stop ∈ (chart.callAt site).results →
    ∃ p, p ∈ chart.completed ⟨site.symbol, ⟨site.offset, stop⟩⟩
  waits : ∀ {site : CallSite} {item : Item}, item ∈ (chart.callAt site).waiters →
    chart.hasItem item = true ∧ ∃ node, item.state.next? g = some node ∧
      site = ⟨node.symbol, item.pos⟩

/-- What has been called has been started, and every waiter has had every result. -/
structure Chart.Paired (g : Grammar) (chart : Chart) : Prop where
  started : ∀ {site : CallSite}, chart.calls.contains site = true →
    ∀ arrival ∈ beginnings g site, chart.Has arrival
  resumed : ∀ {site : CallSite} {waiter : Item} {stop : Nat},
    waiter ∈ (chart.callAt site).waiters → stop ∈ (chart.callAt site).results →
      ∀ arrival ∈ resumptions g waiter stop, chart.Has arrival
  home : ∀ {item : Item} {symbol : Symbol}, chart.hasItem item = true →
    g.lhs? item.state.prod = some symbol → chart.calls.contains ⟨symbol, item.origin⟩ = true

namespace Chart

variable {g : Grammar} {input : Input} {root : Symbol} {chart : Chart} {r : Recognition}
  {arrivals : List Arrival} {site : CallSite} {call : Call}

theorem Sound.addAll (sound : r.chart.Sound g input root)
    (justified : ∀ arrival ∈ arrivals, Justified g input root arrival) :
    (r.addAll arrivals).chart.Sound g input root where
  reached had := by
    rcases Recognition.hasItem_addAll.1 had with old | ⟨link, member⟩
    · exact sound.reached old
    · exact (justified _ member).reached
  linked had := by
    rcases Recognition.mem_links_addAll.1 had with old | member
    · exact sound.linked old
    · exact (justified _ member).linked rfl
  called had := by
    rw [Recognition.calls_addAll] at had
    exact sound.called had
  completed had := by
    rw [Recognition.completed_addAll] at had
    exact sound.completed had
  result had := by
    rw [Recognition.callAt_addAll] at had
    rw [Recognition.completed_addAll]
    exact sound.result had
  waits had := by
    rw [Recognition.callAt_addAll] at had
    obtain ⟨has, due⟩ := sound.waits had
    exact ⟨Recognition.extends_addAll.items has, due⟩

theorem Sound.setCall (sound : chart.Sound g input root) (called : g.Called input root site)
    (results : ∀ stop ∈ call.results, ∃ p, p ∈ chart.completed ⟨site.symbol, ⟨site.offset, stop⟩⟩)
    (waiters : ∀ item ∈ call.waiters, chart.hasItem item = true ∧
      ∃ node, item.state.next? g = some node ∧ site = ⟨node.symbol, item.pos⟩) :
    (chart.setCall site call).Sound g input root where
  reached had := sound.reached had
  linked had := sound.linked had
  called had := by
    rcases contains_setCall.1 had with old | rfl
    · exact sound.called old
    · exact called
  completed had := sound.completed had
  result had := by
    rw [callAt_setCall] at had
    split at had
    · next same =>
      subst same
      exact results _ had
    · exact sound.result had
  waits had := by
    rw [callAt_setCall] at had
    split at had
    · next same =>
      subst same
      exact waiters _ had
    · exact sound.waits had

theorem Sound.addCompletion (sound : chart.Sound g input root) {constituent : Constituent}
    {p : ProdId} (completed : g.Completed input root p constituent) :
    (chart.addCompletion constituent p).Sound g input root where
  reached had := sound.reached had
  linked had := sound.linked had
  called had := sound.called had
  completed had := by
    rcases mem_completed_addCompletion.1 had with old | ⟨rfl, rfl⟩
    · exact sound.completed old
    · exact completed
  result had := by
    obtain ⟨q, old⟩ := sound.result had
    exact ⟨q, mem_completed_addCompletion.2 (.inl old)⟩
  waits had := sound.waits had

/-- A call that is put down anew owes its waiters what it owed them before, and what follows from
the results it pairs them with. -/
theorem resumed_setCall {owed : List Arrival}
    (all : ∀ waiter ∈ call.waiters, ∀ stop ∈ call.results,
      (waiter ∈ (chart.callAt site).waiters ∧ stop ∈ (chart.callAt site).results) ∨
        ∀ arrival ∈ resumptions g waiter stop, arrival ∈ owed)
    {asked : CallSite} {waiter : Item} {stop : Nat}
    (waiting : waiter ∈ ((chart.setCall site call).callAt asked).waiters)
    (result : stop ∈ ((chart.setCall site call).callAt asked).results) :
    (waiter ∈ (chart.callAt asked).waiters ∧ stop ∈ (chart.callAt asked).results) ∨
      ∀ arrival ∈ resumptions g waiter stop, arrival ∈ owed := by
  rw [callAt_setCall] at waiting result
  by_cases same : site = asked
  · subst same
    rw [if_pos rfl] at waiting result
    exact all waiter waiting stop result
  · rw [if_neg same] at waiting result
    exact .inl ⟨waiting, result⟩

theorem known_setCall (known : chart.calls.contains site = true) {asked : CallSite}
    (called : (chart.setCall site call).calls.contains asked = true) :
    chart.calls.contains asked = true := by
  rcases contains_setCall.1 called with old | rfl
  · exact old
  · exact known

theorem Paired.of_extends {later : Chart} (paired : chart.Paired g)
    (extends_ : chart.Extends later)
    (started : ∀ {site : CallSite}, later.calls.contains site = true →
      chart.calls.contains site = true ∨ ∀ arrival ∈ beginnings g site, later.Has arrival)
    (resumed : ∀ {site : CallSite} {waiter : Item} {stop : Nat},
      waiter ∈ (later.callAt site).waiters → stop ∈ (later.callAt site).results →
        (waiter ∈ (chart.callAt site).waiters ∧ stop ∈ (chart.callAt site).results) ∨
          ∀ arrival ∈ resumptions g waiter stop, later.Has arrival)
    (home : ∀ {item : Item} {symbol : Symbol}, later.hasItem item = true →
      g.lhs? item.state.prod = some symbol →
        chart.hasItem item = true ∨ later.calls.contains ⟨symbol, item.origin⟩ = true) :
    later.Paired g where
  started called arrival member := by
    rcases started called with old | all
    · exact (paired.started old arrival member).extends extends_
    · exact all arrival member
  resumed waiting result arrival member := by
    rcases resumed waiting result with ⟨oldWaiter, oldResult⟩ | all
    · exact (paired.resumed oldWaiter oldResult arrival member).extends extends_
    · exact all arrival member
  home has lhs := by
    rcases home has lhs with old | called
    · exact extends_.calls (paired.home old lhs)
    · exact called

end Chart

/-! ## Arrivals -/

section Arrivals

variable {g : Grammar} {input : Input} {root : Symbol} {item : Item} {stop : Nat}

theorem mem_resumptions_iff {arrival : Arrival} : arrival ∈ resumptions g item stop ↔
    ∃ node state, item.state.next? g = some node ∧ state ∈ item.state.advance g ∧
      arrival = (⟨stop, state, item.origin⟩,
        some ⟨item.pos, item.state.index, some ⟨node.id, ⟨item.pos, stop⟩⟩⟩) := by
  unfold resumptions
  cases item.state.next? g with
  | none => simp
  | some node => simp [eq_comm]

/-- Resuming an item with a match of the symbol that is due finds what recognition can find. -/
theorem justified_resumptions (wired : g.Wired) (reached : g.Reached input root item)
    (covered : ∀ node, item.state.next? g = some node →
      g.Covered input root node.symbol ⟨item.pos, stop⟩) :
    ∀ arrival ∈ resumptions g item stop, Justified g input root arrival := by
  intro arrival member
  obtain ⟨node, state, due, advances, rfl⟩ := mem_resumptions_iff.1 member
  refine ⟨reached.advance wired due (covered node due) advances, ?_⟩
  intro link eq
  cases eq
  obtain ⟨pos, ⟨p, index⟩, origin⟩ := item
  obtain ⟨q, after⟩ := state
  obtain rfl : q = p := Dotted.prod_of_mem_advance advances
  exact ⟨reached, node, due, rfl, rfl, covered node due, advances⟩

theorem justified_beginnings {site : CallSite} (called : g.Called input root site) :
    ∀ arrival ∈ beginnings g site, Justified g input root arrival := by
  intro arrival member
  obtain ⟨p, defines, rfl⟩ := List.mem_map.1 member
  refine ⟨?_, fun eq => by cases eq⟩
  rcases called with ⟨rfl, -⟩ | ⟨item, node, reached, due, -, rfl⟩
  · exact .start defines
  · exact .predict reached due defines

end Arrivals

/-! ## Operations -/

namespace Recognition

variable {g : Grammar} {input : Input} {root : Symbol} {r middle later : Recognition}
  {arrivals : List Arrival} {item : Item} {site : CallSite}

/-- The invariant of recognition. -/
structure Regular (g : Grammar) (input : Input) (root : Symbol) (r : Recognition) : Prop where
  listed : r.Listed
  sound : r.chart.Sound g input root
  paired : r.chart.Paired g

/-- Recognition that went on, without a further item having been taken from the agenda. -/
structure Leads (r later : Recognition) : Prop where
  extends_ : r.chart.Extends later.chart
  agenda : r.agenda.toList <+: later.agenda.toList
  taken : later.taken = r.taken

theorem Leads.refl (r : Recognition) : r.Leads r :=
  ⟨.refl _, List.prefix_refl _, rfl⟩

theorem Leads.trans (first : r.Leads middle) (second : middle.Leads later) : r.Leads later where
  extends_ := first.extends_.trans second.extends_
  agenda := first.agenda.trans second.agenda
  taken := second.taken.trans first.taken

theorem leads_addAll : r.Leads (r.addAll arrivals) :=
  ⟨extends_addAll, prefix_agenda_addAll, taken_addAll⟩

/-- Putting down something about the calls and adding all items that follow from it. -/
theorem Regular.enter (regular : r.Regular g input root) (chart : Chart) (events : Array Event)
    (arrivals : List Arrival) (extends_ : r.chart.Extends chart) (sound : chart.Sound g input root)
    (items : ∀ {item : Item}, chart.hasItem item = true → r.chart.hasItem item = true)
    (justified : ∀ arrival ∈ arrivals, Justified g input root arrival)
    (started : ∀ {site : CallSite}, chart.calls.contains site = true →
      r.chart.calls.contains site = true ∨ ∀ arrival ∈ beginnings g site, arrival ∈ arrivals)
    (resumed : ∀ {site : CallSite} {waiter : Item} {stop : Nat},
      waiter ∈ (chart.callAt site).waiters → stop ∈ (chart.callAt site).results →
        (waiter ∈ (r.chart.callAt site).waiters ∧ stop ∈ (r.chart.callAt site).results) ∨
          ∀ arrival ∈ resumptions g waiter stop, arrival ∈ arrivals)
    (home : ∀ arrival ∈ arrivals, ∀ symbol, g.lhs? arrival.1.state.prod = some symbol →
      chart.calls.contains ⟨symbol, arrival.1.origin⟩ = true) :
    (({ r with chart, events } : Recognition).addAll arrivals).Regular g input root ∧
      r.Leads (({ r with chart, events } : Recognition).addAll arrivals) := by
  have extendsAll : r.chart.Extends
      (({ r with chart, events } : Recognition).addAll arrivals).chart :=
    extends_.trans (extends_addAll (r := { r with chart, events }))
  refine ⟨⟨?_, Chart.Sound.addAll sound justified, ?_⟩,
    extendsAll, prefix_agenda_addAll (r := { r with chart, events }),
    taken_addAll (r := { r with chart, events })⟩
  · apply Listed.addAll
    exact ⟨regular.listed.nodup, fun item =>
      (regular.listed.mem_iff item).trans ⟨extends_.items, items⟩⟩
  · refine regular.paired.of_extends extendsAll ?_ ?_ ?_
    · intro site called
      rw [calls_addAll] at called
      exact (started called).imp_right fun all arrival member => has_addAll (all arrival member)
    · intro site waiter stop waiting result
      rw [callAt_addAll] at waiting result
      exact (resumed waiting result).imp_right fun all arrival member =>
        has_addAll (all arrival member)
    · intro item symbol has lhs
      rcases hasItem_addAll.1 has with old | ⟨link, member⟩
      · exact .inl (items old)
      · rw [calls_addAll]
        exact .inr (home _ member symbol lhs)

theorem Regular.addAll (regular : r.Regular g input root)
    (justified : ∀ arrival ∈ arrivals, Justified g input root arrival)
    (home : ∀ arrival ∈ arrivals, ∀ symbol, g.lhs? arrival.1.state.prod = some symbol →
      r.chart.calls.contains ⟨symbol, arrival.1.origin⟩ = true) :
    (r.addAll arrivals).Regular g input root :=
  (regular.enter r.chart r.events arrivals (.refl _) regular.sound id justified .inl
    (fun waiting result => .inl ⟨waiting, result⟩) home).1

/-! ### Resuming -/

theorem resume_eq (item : Item) (stop : Nat) :
    r.resume g item stop = r.addAll (resumptions g item stop) := by
  unfold resume resumptions addAll
  cases item.state.next? g with
  | none => rfl
  | some node => rw [List.foldl_map]

/-- Adding what several things ask for, one thing after another, is adding all of it. -/
theorem foldl_addAll {α : Type} {f : Recognition → α → Recognition} {asked : α → List Arrival}
    (adds : ∀ r x, f r x = r.addAll (asked x)) (xs : List α) (r : Recognition) :
    xs.foldl f r = r.addAll (xs.flatMap asked) := by
  induction xs generalizing r with
  | nil => rfl
  | cons x rest ih =>
    rw [List.foldl_cons, ih, adds, List.flatMap_cons, addAll_append]

theorem home_resumptions (paired : r.chart.Paired g) (has : r.chart.hasItem item = true)
    {stop : Nat} : ∀ arrival ∈ resumptions g item stop, ∀ symbol,
      g.lhs? arrival.1.state.prod = some symbol →
        r.chart.calls.contains ⟨symbol, arrival.1.origin⟩ = true := by
  intro arrival member symbol lhs
  obtain ⟨node, state, -, advances, rfl⟩ := mem_resumptions_iff.1 member
  dsimp only at lhs
  rw [Dotted.prod_of_mem_advance advances] at lhs
  have called := paired.home has lhs
  exact called

/-! ### Calling -/

theorem start_eq (r : Recognition) (site : CallSite) :
    r.start g site = if r.chart.calls.contains site then r
      else ({ r with
        chart := r.chart.setCall site {}
        events := r.events.push (.calling site.symbol site.offset) } : Recognition).addAll
          (beginnings g site) := by
  unfold start addAll beginnings
  rw [List.foldl_map]
  rfl

theorem Regular.start (wired : g.Wired) (regular : r.Regular g input root)
    (called : g.Called input root site) :
    (r.start g site).Regular g input root ∧ r.Leads (r.start g site) ∧
      (r.start g site).chart.calls.contains site = true := by
  rw [start_eq]
  split
  · next known => exact ⟨regular, .refl r, known⟩
  next unknown =>
  have bare : r.chart.callAt site = {} :=
    Chart.callAt_of_not_contains (Bool.eq_false_iff.2 unknown)
  have calls : ∀ asked, (r.chart.setCall site {}).callAt asked = r.chart.callAt asked := by
    intro asked
    rw [Chart.callAt_setCall]
    split
    · next same => rw [← same, bare]
    · rfl
  obtain ⟨opened, leads⟩ := regular.enter (r.chart.setCall site {})
    (r.events.push (.calling site.symbol site.offset)) (beginnings g site)
    (Chart.extends_setCall (by simp [bare]) (by simp [bare]))
    (regular.sound.setCall called (by simp) (by simp))
    id
    (justified_beginnings called)
    (fun {asked} known => by
      rcases Chart.contains_setCall.1 known with old | rfl
      · exact .inl old
      · exact .inr fun _ member => member)
    (fun {asked waiter stop} waiting result => by
      rw [calls] at waiting result
      exact .inl ⟨waiting, result⟩)
    (fun arrival member symbol lhs => by
      obtain ⟨p, defines, rfl⟩ := List.mem_map.1 member
      obtain ⟨entry, found, lhs_eq⟩ := wired.mem_prodsFor.1 defines
      have same : symbol = site.symbol :=
        Option.some.inj (lhs.symm.trans (lhs_eq ▸ Grammar.lhs_of_prod found))
      exact Chart.contains_setCall.2 (.inr (by rw [same])))
  refine ⟨opened, leads, ?_⟩
  rw [calls_addAll]
  exact Chart.contains_setCall.2 (.inr rfl)

theorem call_eq (r : Recognition) (site : CallSite) (waiter : Item) :
    r.call g site waiter =
      if ((r.start g site).chart.callAt site).waiters.contains waiter then r.start g site
      else ({ r.start g site with
        chart := (r.start g site).chart.setCall site
          (Call.wait ((r.start g site).chart.callAt site) waiter) } : Recognition).addAll
            (((r.start g site).chart.callAt site).results.toList.flatMap
              (resumptions g waiter)) := by
  unfold call
  dsimp only
  rw [foldl_addAll (fun r stop => resume_eq waiter stop)]
  rfl

theorem Regular.call (wired : g.Wired) (regular : r.Regular g input root) {node : StackNode}
    (has : r.chart.hasItem item = true) (due : item.state.next? g = some node)
    (nonTerminal : node.isTerminal = false) :
    (r.call g ⟨node.symbol, item.pos⟩ item).Regular g input root ∧
      r.Leads (r.call g ⟨node.symbol, item.pos⟩ item) ∧
      item ∈ ((r.call g ⟨node.symbol, item.pos⟩ item).chart.callAt
        ⟨node.symbol, item.pos⟩).waiters := by
  have reached := regular.sound.reached has
  have called : g.Called input root ⟨node.symbol, item.pos⟩ :=
    .inr ⟨item, node, reached, due, nonTerminal, rfl⟩
  obtain ⟨started, leads, known⟩ := regular.start wired called
  have has := leads.extends_.items has
  rw [call_eq]
  split
  · next waiting => exact ⟨started, leads, by simpa using waiting⟩
  generalize r.start g ⟨node.symbol, item.pos⟩ = s at *
  obtain ⟨entered, further⟩ := started.enter
    (s.chart.setCall ⟨node.symbol, item.pos⟩
      (Call.wait (s.chart.callAt ⟨node.symbol, item.pos⟩) item))
    s.events
    ((s.chart.callAt ⟨node.symbol, item.pos⟩).results.toList.flatMap (resumptions g item))
    (Chart.extends_setCall (fun _ result => result)
      (fun _ waiting => Call.mem_wait.2 (.inr waiting)))
    (started.sound.setCall called (fun _ result => started.sound.result result)
      (fun other waiting => by
        rcases Call.mem_wait.1 waiting with rfl | old
        · exact ⟨has, node, due, rfl⟩
        · exact started.sound.waits old))
    id
    (fun arrival member => by
      obtain ⟨stop, result, resumed⟩ := List.mem_flatMap.1 member
      refine justified_resumptions wired reached (fun other dueOther => ?_) arrival resumed
      obtain ⟨p, completed⟩ := started.sound.result (Std.TreeSet.mem_toList.1 result)
      cases due.symm.trans dueOther
      exact .inr ⟨p, started.sound.completed completed⟩)
    (fun calledAsked => .inl (Chart.known_setCall known calledAsked))
    (Chart.resumed_setCall fun other waiting stop result => by
      rcases Call.mem_wait.1 waiting with rfl | old
      · refine .inr fun arrival resumed => ?_
        exact List.mem_flatMap.2 ⟨stop, Std.TreeSet.mem_toList.2 result, resumed⟩
      · exact .inl ⟨old, result⟩)
    (fun arrival member symbol lhs => by
      obtain ⟨stop, -, resumed⟩ := List.mem_flatMap.1 member
      have calledHome := home_resumptions started.paired has arrival resumed symbol lhs
      exact Chart.contains_setCall.2 (.inl calledHome))
  refine ⟨entered, leads.trans further, ?_⟩
  rw [callAt_addAll]
  dsimp only
  rw [Chart.callAt_setCall, if_pos rfl]
  exact Call.mem_wait.2 (.inl rfl)

/-! ### Completing -/

theorem complete_eq (r : Recognition) {entry : WiredProduction}
    (found : g.prod? item.state.prod = some entry) : r.complete g item =
      if ((r.chart.callAt ⟨entry.production.lhs, item.origin⟩).results.contains item.pos) then
        { r with
          chart := r.chart.addCompletion ⟨entry.production.lhs, ⟨item.origin, item.pos⟩⟩
            item.state.prod
          events := r.events.push (.completed entry.production.label ⟨item.origin, item.pos⟩) }
      else ({ r with
        chart := (r.chart.addCompletion ⟨entry.production.lhs, ⟨item.origin, item.pos⟩⟩
          item.state.prod).setCall ⟨entry.production.lhs, item.origin⟩
            ((r.chart.callAt ⟨entry.production.lhs, item.origin⟩).finish item.pos)
        events := r.events.push (.completed entry.production.label ⟨item.origin, item.pos⟩) } :
          Recognition).addAll
            ((r.chart.callAt ⟨entry.production.lhs, item.origin⟩).waiters.toList.flatMap
              fun waiter => resumptions g waiter item.pos) := by
  unfold complete
  rw [found]
  dsimp only
  rw [foldl_addAll (fun r waiter => resume_eq waiter item.pos)]
  rfl

theorem Regular.complete (wired : g.Wired) (regular : r.Regular g input root)
    {entry : WiredProduction} (has : r.chart.hasItem item = true)
    (complete : item.state.isComplete g = true)
    (found : g.prod? item.state.prod = some entry) :
    (r.complete g item).Regular g input root ∧ r.Leads (r.complete g item) ∧
      item.state.prod ∈ (r.complete g item).chart.completed
        ⟨entry.production.lhs, ⟨item.origin, item.pos⟩⟩ ∧
      item.pos ∈ ((r.complete g item).chart.callAt
        ⟨entry.production.lhs, item.origin⟩).results := by
  have reached := regular.sound.reached has
  have lhs := Grammar.lhs_of_prod found
  have completed := reached.completed wired complete lhs
  have known := regular.paired.home has lhs
  have noted := regular.sound.addCompletion completed
  rw [complete_eq r found]
  split
  · next had =>
    obtain ⟨entered, leads⟩ := regular.enter
      (r.chart.addCompletion ⟨entry.production.lhs, ⟨item.origin, item.pos⟩⟩ item.state.prod)
      (r.events.push (.completed entry.production.label ⟨item.origin, item.pos⟩)) []
      Chart.extends_addCompletion noted id (fun _ member => absurd member List.not_mem_nil)
      .inl (fun waiting result => .inl ⟨waiting, result⟩)
      (fun _ member => absurd member List.not_mem_nil)
    refine ⟨entered, leads, Chart.mem_completed_addCompletion.2 (.inr ⟨rfl, rfl⟩), ?_⟩
    exact Std.TreeSet.mem_iff_contains.2 had
  next new =>
  obtain ⟨entered, leads⟩ := regular.enter
    ((r.chart.addCompletion ⟨entry.production.lhs, ⟨item.origin, item.pos⟩⟩
      item.state.prod).setCall ⟨entry.production.lhs, item.origin⟩
        ((r.chart.callAt ⟨entry.production.lhs, item.origin⟩).finish item.pos))
    (r.events.push (.completed entry.production.label ⟨item.origin, item.pos⟩))
    ((r.chart.callAt ⟨entry.production.lhs, item.origin⟩).waiters.toList.flatMap
      fun waiter => resumptions g waiter item.pos)
    (Chart.extends_addCompletion.trans (Chart.extends_setCall
      (fun _ result => Call.mem_finish.2 (.inr result)) (fun _ waiting => waiting)))
    (noted.setCall (reached.called wired lhs)
      (fun stop result => by
        rcases Call.mem_finish.1 result with rfl | old
        · exact ⟨_, Chart.mem_completed_addCompletion.2 (.inr ⟨rfl, rfl⟩)⟩
        · exact noted.result old)
      (fun _ waiting => regular.sound.waits waiting))
    id
    (fun arrival member => by
      obtain ⟨waiter, waiting, resumed⟩ := List.mem_flatMap.1 member
      obtain ⟨hasWaiter, node, due, site_eq⟩ :=
        regular.sound.waits (Std.TreeSet.mem_toList.1 waiting)
      obtain ⟨symbol_eq, origin_eq⟩ := CallSite.mk.inj site_eq
      refine justified_resumptions wired (regular.sound.reached hasWaiter)
        (fun other dueOther => ?_) arrival resumed
      cases due.symm.trans dueOther
      rw [← symbol_eq, ← origin_eq]
      exact .inr ⟨_, completed⟩)
    (fun calledAsked => .inl (Chart.known_setCall known calledAsked))
    (Chart.resumed_setCall fun waiter waiting stop result => by
      rcases Call.mem_finish.1 result with rfl | old
      · refine .inr fun arrival resumed => ?_
        exact List.mem_flatMap.2 ⟨waiter, Std.TreeSet.mem_toList.2 waiting, resumed⟩
      · exact .inl ⟨waiting, old⟩)
    (fun arrival member symbol lhs => by
      obtain ⟨waiter, waiting, resumed⟩ := List.mem_flatMap.1 member
      have hasWaiter := (regular.sound.waits (Std.TreeSet.mem_toList.1 waiting)).1
      have calledHome := home_resumptions regular.paired hasWaiter arrival resumed symbol lhs
      exact Chart.contains_setCall.2 (.inl calledHome))
  refine ⟨entered, leads, ?_, ?_⟩
  · rw [completed_addAll]
    exact Chart.mem_completed_addCompletion.2 (.inr ⟨rfl, rfl⟩)
  · rw [callAt_addAll]
    dsimp only
    rw [Chart.callAt_setCall, if_pos rfl]
    exact Call.mem_finish.2 (.inl rfl)

theorem Regular.completeEmpty (regular : r.Regular g input root)
    (has : r.chart.hasItem item = true) (incomplete : item.state.isComplete g = false) :
    (r.completeEmpty g item).Regular g input root ∧ r.Leads (r.completeEmpty g item) ∧
      (item.state.allowsEmpty g = true → item.pos = item.origin →
        (r.completeEmpty g item).chart.Has ({ item with state := .complete g item.state.prod },
          some ⟨item.pos, item.state.index, none⟩)) := by
  have reached := regular.sound.reached has
  unfold Recognition.completeEmpty
  split
  · next here =>
    obtain ⟨allows, origin⟩ := here
    have added (item : Item) (link : Option Backlink) :
        r.add item link = r.addAll [(item, link)] := rfl
    rw [added]
    refine ⟨regular.addAll ?_ ?_, leads_addAll, fun _ _ => has_addAll List.mem_cons_self⟩
    · intro arrival member
      rw [List.mem_singleton.1 member]
      refine ⟨reached.empty allows origin, ?_⟩
      intro link eq
      cases eq
      exact ⟨reached, incomplete, allows, origin, rfl⟩
    · intro arrival member symbol lhs
      rw [List.mem_singleton.1 member] at lhs ⊢
      have calledHome := regular.paired.home has lhs
      exact calledHome
  · next elsewhere =>
    exact ⟨regular, .refl r, fun allows origin => absurd ⟨allows, origin⟩ elsewhere⟩

end Recognition

/-! ## Processing -/

/-- Whatever a rule of recognition asks of the item is in the chart, or waits at a call. -/
structure Chart.Settled (g : Grammar) (input : Input) (chart : Chart) (item : Item) : Prop where
  completed : item.state.isComplete g = true → ∀ {entry : WiredProduction},
    g.prod? item.state.prod = some entry →
      item.state.prod ∈ chart.completed ⟨entry.production.lhs, ⟨item.origin, item.pos⟩⟩ ∧
        item.pos ∈ (chart.callAt ⟨entry.production.lhs, item.origin⟩).results
  empty : item.state.isComplete g = false → item.state.allowsEmpty g = true →
    item.pos = item.origin → chart.Has ({ item with state := .complete g item.state.prod },
      some ⟨item.pos, item.state.index, none⟩)
  scanned : ∀ {node : StackNode} {stop : Nat}, item.state.next? g = some node →
    node.symbol.scan? input item.pos = some stop →
      ∀ arrival ∈ resumptions g item stop, chart.Has arrival
  waits : ∀ {node : StackNode}, item.state.next? g = some node → node.isTerminal = false →
    item ∈ (chart.callAt ⟨node.symbol, item.pos⟩).waiters

theorem Chart.Settled.extends {g : Grammar} {input : Input} {chart later : Chart} {item : Item}
    (settled : chart.Settled g input item) (extends_ : chart.Extends later) :
    later.Settled g input item where
  completed complete _ found :=
    ⟨extends_.completed (settled.completed complete found).1,
      extends_.results (settled.completed complete found).2⟩
  empty incomplete allows origin := (settled.empty incomplete allows origin).extends extends_
  scanned due scanned arrival member :=
    (settled.scanned due scanned arrival member).extends extends_
  waits due nonTerminal := extends_.waiters (settled.waits due nonTerminal)

namespace Chart.Settled

variable {g : Grammar} {input : Input} {chart : Chart} {item : Item}

/-- A complete item has no symbol due and asks only that its symbol be recorded. -/
theorem of_complete {entry : WiredProduction} (complete : item.state.isComplete g = true)
    (idle : item.state.next? g = none) (found : g.prod? item.state.prod = some entry)
    (completed : item.state.prod ∈
      chart.completed ⟨entry.production.lhs, ⟨item.origin, item.pos⟩⟩)
    (result : item.pos ∈ (chart.callAt ⟨entry.production.lhs, item.origin⟩).results) :
    chart.Settled g input item where
  completed _ other foundOther := by
    cases found.symm.trans foundOther
    exact ⟨completed, result⟩
  empty incomplete := by
    rw [complete] at incomplete
    cases incomplete
  scanned due := by
    rw [idle] at due
    cases due
  waits due := by
    rw [idle] at due
    cases due

variable (incomplete : item.state.isComplete g = false)
  (empty : item.state.allowsEmpty g = true → item.pos = item.origin →
    chart.Has ({ item with state := .complete g item.state.prod },
      some ⟨item.pos, item.state.index, none⟩))

include incomplete empty

theorem of_idle (idle : item.state.next? g = none) : chart.Settled g input item where
  completed complete := by
    rw [incomplete] at complete
    cases complete
  empty _ := empty
  scanned due := by
    rw [idle] at due
    cases due
  waits due := by
    rw [idle] at due
    cases due

theorem of_due {node : StackNode} (due : item.state.next? g = some node)
    (scanned : ∀ stop, node.symbol.scan? input item.pos = some stop →
      ∀ arrival ∈ resumptions g item stop, chart.Has arrival)
    (waits : node.isTerminal = false → item ∈ (chart.callAt ⟨node.symbol, item.pos⟩).waiters) :
    chart.Settled g input item where
  completed complete := by
    rw [incomplete] at complete
    cases complete
  empty _ := empty
  scanned dueOther scannedOther := by
    cases due.symm.trans dueOther
    exact scanned _ scannedOther
  waits dueOther nonTerminal := by
    cases due.symm.trans dueOther
    exact waits nonTerminal

end Chart.Settled

namespace Recognition

variable {g : Grammar} {input : Input} {root : Symbol} {r : Recognition} {item : Item}

theorem next_of_complete (wired : g.Wired) {entry : WiredProduction}
    (found : g.prod? item.state.prod = some entry) (complete : item.state.isComplete g = true) :
    item.state.next? g = none := by
  obtain ⟨pos, ⟨p, index⟩, origin⟩ := item
  obtain rfl : index = entry.production.arity := (wired.isComplete_iff found).1 complete
  exact wired.next_eq_none found

/-- Goes on with an item after the step of its due symbol. -/
def follow (g : Grammar) (r : Recognition) (item : Item) : Step → Recognition
  | .matched stop => r.resume g item stop
  | .failed => r
  | .call symbol => r.call g ⟨symbol, item.pos⟩ item

theorem Regular.follow (wired : g.Wired) (regular : r.Regular g input root)
    (has : r.chart.hasItem item = true) (incomplete : item.state.isComplete g = false)
    (empty : item.state.allowsEmpty g = true → item.pos = item.origin →
      r.chart.Has ({ item with state := .complete g item.state.prod },
        some ⟨item.pos, item.state.index, none⟩))
    {node : StackNode} (due : item.state.next? g = some node) :
    (r.follow g item (node.step input item.pos)).Regular g input root ∧
      r.Leads (r.follow g item (node.step input item.pos)) ∧
      (r.follow g item (node.step input item.pos)).chart.Settled g input item := by
  unfold StackNode.step
  cases terminal : node.isTerminal with
  | false =>
    obtain ⟨called, leads, waiting⟩ := regular.call wired has due terminal
    have emptyStill := fun allows origin => (empty allows origin).extends leads.extends_
    refine ⟨called, leads, .of_due incomplete emptyStill due ?_ (fun _ => waiting)⟩
    intro stop scanned
    rw [StackNode.isTerminal, Symbol.isTerminal_of_scan scanned] at terminal
    cases terminal
  | true =>
    rw [if_pos rfl]
    cases scanned : node.symbol.scan? input item.pos with
    | none =>
      refine ⟨regular, .refl r, .of_due incomplete empty due ?_ ?_⟩
      · intro stop scannedOther
        cases scanned.symm.trans scannedOther
      · intro nonTerminal
        cases terminal.symm.trans nonTerminal
    | some stop =>
      dsimp only
      rw [Recognition.follow, resume_eq]
      have reached := regular.sound.reached has
      have justified := justified_resumptions wired reached fun other dueOther => by
        cases due.symm.trans dueOther
        exact .inl scanned
      refine ⟨regular.addAll justified (home_resumptions regular.paired has), leads_addAll,
        .of_due incomplete ?_ due ?_ ?_⟩
      · exact fun allows origin => (empty allows origin).extends extends_addAll
      · intro otherStop scannedOther
        cases scanned.symm.trans scannedOther
        exact fun arrival member => has_addAll member
      · intro nonTerminal
        cases terminal.symm.trans nonTerminal

theorem Regular.process (wired : g.Wired) (regular : r.Regular g input root)
    (has : r.chart.hasItem item = true) :
    (r.process g input item).Regular g input root ∧ r.Leads (r.process g input item) ∧
      (r.process g input item).chart.Settled g input item := by
  have reached := regular.sound.reached has
  obtain ⟨entry, found, -⟩ := (reached.inBounds wired).place
  unfold Recognition.process
  split
  · next complete =>
    have idle := next_of_complete wired found complete
    obtain ⟨kept, leads, completed, result⟩ := regular.complete wired has complete found
    exact ⟨kept, leads, .of_complete complete idle found completed result⟩
  next isIncomplete =>
  have incomplete := Bool.eq_false_iff.2 isIncomplete
  obtain ⟨kept, leads, empty⟩ := regular.completeEmpty has incomplete
  dsimp only
  cases due : item.state.next? g with
  | none => exact ⟨kept, leads, .of_idle incomplete empty due⟩
  | some node =>
    obtain ⟨stepped, further, settled⟩ :=
      kept.follow wired (leads.extends_.items has) incomplete empty due
    exact ⟨stepped, leads.trans further, settled⟩

end Recognition

end Scannerless
