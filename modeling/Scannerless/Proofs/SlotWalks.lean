import Scannerless.Grammar.Example
import Scannerless.Proofs.Outlines

/-!
# Walks through slots

The child sequences of a production over a span, said without the links of the chart. A walk takes
the slots of the production as `Production.next` lets them follow, and over each slot what its node
is matched over: a terminal by the text, any other symbol by a reduction that the chart records.

`Grammar.derivations_are_walks`: the child sequences listed for a completed production are those of
the walks that meet no place twice and skip what matches nothing, each of them once. The links of
the chart come to the same, since an item goes on over whatever its node is matched over.
-/

namespace Scannerless

/-! ## Walks -/

/-- The node is matched over the span: a terminal by the text, any other by a reduction of its
symbol that the chart records. -/
def Chart.Records (g : Grammar) (input : Input) (chart : Chart) (found : Match) : Prop :=
  ∃ node, g.node? found.node = some node ∧
    ((node.isTerminal = true ∧
        node.symbol.scan? input found.span.start = some found.span.stop) ∨
      (node.isTerminal = false ∧ chart.completed ⟨node.symbol, found.span⟩ ≠ []))

/-- A walk through the slots of a production, from the first slot at an offset on. It notes the
matches, and the places that it meets with their offsets. -/
inductive SlotWalk (g : Grammar) (input : Input) (chart : Chart) (entry : WiredProduction)
    (origin : Nat) : List Match → List (Nat × Nat) → Nat → Nat → Prop
  | start : SlotWalk g input chart entry origin [] [(origin, 0)] origin 0
  | step {founds : List Match} {places : List (Nat × Nat)} {pos index stop after : Nat}
    {id : NodeId} (walk : SlotWalk g input chart entry origin founds places pos index)
    (due : entry.wiring[index]? = some id)
    (records : chart.Records g input ⟨id, ⟨pos, stop⟩⟩)
    (next : after ∈ entry.production.next index) :
    SlotWalk g input chart entry origin (founds ++ [⟨id, ⟨pos, stop⟩⟩])
      (places ++ [(stop, after)]) stop after

/-- The matches of a walk that completes a production over a span and is reduced: it meets no slot
twice at an offset, and has no match of nothing in a list without separators, unless the list needs
an element and spans nothing. -/
structure ReducedWalk (g : Grammar) (input : Input) (chart : Chart) (entry : WiredProduction)
    (span : Span) (children : List Match) : Prop where
  walk : ∃ places, SlotWalk g input chart entry span.start children places span.stop
    entry.production.arity ∧ places.Nodup
  elements : ∀ {repetition : Repetition}, entry.production.kind = .list repetition →
    entry.production.separatorArity = 0 → ∀ child ∈ children, child.span.isEmpty = true →
      repetition = .plus ∧ span.isEmpty = true

/-- A match of nothing is kept just where a reduced walk may have one. -/
theorem Walk.forall_keepsEmpty_iff {production : Production} {span : Span}
    {children : List Match} :
    (∀ child ∈ children, keepsEmpty production span = true ∨ child.span.isEmpty = false) ↔
      ∀ {repetition : Repetition}, production.kind = .list repetition →
        production.separatorArity = 0 → ∀ child ∈ children, child.span.isEmpty = true →
          repetition = .plus ∧ span.isEmpty = true := by
  unfold keepsEmpty
  cases production.kind with
  | sequence => simp
  | list repetition =>
    by_cases bare : production.separatorArity = 0
    · cases repetition <;> cases span.isEmpty <;> simp [bare, Repetition.allowsEmpty]
    · simp [bare]

namespace Chart

section Full

variable {g : Grammar} {input : Input} {root : Symbol} {chart : Chart} {p : ProdId}
  {entry : WiredProduction} {origin pos index : Nat} {founds : List Match}
  {places : List (Nat × Nat)} {node : StackNode}

theorem Full.completed_ne_nil_iff (full : chart.Full g input root) {constituent : Constituent} :
    chart.completed constituent ≠ [] ↔ ∃ q, g.Completed input root q constituent := by
  constructor
  · intro some_
    obtain ⟨q, member⟩ := List.exists_mem_of_ne_nil _ some_
    exact ⟨q, full.mem_completed_iff.1 member⟩
  · intro completed
    obtain ⟨q, completed⟩ := completed
    exact List.ne_nil_of_mem (full.mem_completed_iff.2 completed)

/-- What the chart records of a node is what its symbol is matched over. -/
theorem Full.records_iff (wired : g.Wired) (full : chart.Full g input root) {found : Match}
    (atId : g.node? found.node = some node) :
    chart.Records g input found ↔ g.Covered input root node.symbol found.span := by
  unfold Records
  simp only [atId, Option.some.injEq, exists_eq_left', full.completed_ne_nil_iff]
  constructor
  · intro records
    rcases records with ⟨-, scanned⟩ | ⟨-, completed⟩
    · exact .inl scanned
    · exact .inr completed
  · intro covered
    rcases covered with scanned | ⟨q, completed⟩
    · exact .inl ⟨Symbol.isTerminal_of_scan scanned, scanned⟩
    · exact .inr ⟨wired.isTerminal_of_lhs? completed.1, q, completed⟩

/-- A link with a match is a step from the slot where the match begins. -/
theorem Full.step_of_link (wired : g.Wired) (full : chart.Full g input root)
    (isProd : g.prod? p = some entry) {prevPos prevIndex : Nat} {found : Match}
    (linked : (⟨prevPos, prevIndex, some found⟩ : Backlink) ∈
      chart.links ⟨pos, ⟨p, index⟩, origin⟩)
    (walk : SlotWalk g input chart entry origin founds places prevPos prevIndex) :
    SlotWalk g input chart entry origin (founds ++ [found]) (places ++ [(pos, index)]) pos
      index := by
  obtain ⟨id, span⟩ := found
  obtain ⟨-, node, due, id_eq, span_eq, covered, advances⟩ := full.mem_links_iff.1 linked
  dsimp only at id_eq span_eq covered due advances
  subst id_eq span_eq
  obtain ⟨-, at_, atId⟩ := wired.rhs_of_next isProd due
  have bound := wired.bound_of_next isProd due
  have next := ((wired.mem_advance isProd bound).1 advances).2
  exact .step walk at_ ((full.records_iff wired atId).2 covered) next

/-- A trail that meets no place twice is a walk, or the completion of a list that holds nothing. -/
theorem Full.walk_of_trail (wired : g.Wired) (full : chart.Full g input root)
    (isProd : g.prod? p = some entry) (trail : Trail chart p origin founds places pos index)
    (nodup : places.Nodup) :
    SlotWalk g input chart entry origin founds places pos index ∨
      (founds = [] ∧ pos = origin ∧ index = entry.production.arity ∧
        entry.production.kind = .list .star) := by
  induction trail with
  | start => exact .inl .start
  | @link founds places pos index link trail linked ih =>
    obtain ⟨prevPos, prevIndex, matched⟩ := link
    cases matched with
    | none =>
      obtain ⟨-, -, allows, here, eq⟩ := full.mem_links_iff.1 linked
      obtain ⟨first, kind⟩ := (Grammar.allowsEmpty_iff isProd).1 allows
      simp only [Item.mk.injEq, Dotted.complete, Dotted.mk.injEq, wired.slots_eq isProd] at eq
      have nodupBefore := (List.nodup_append.1 nodup).1
      obtain ⟨rfl, -⟩ := trail.eq_start nodupBefore ⟨here, first⟩
      exact .inr ⟨rfl, eq.1.trans here, eq.2.1.2, kind⟩
    | some found =>
      rcases ih (List.nodup_append.1 nodup).1 with walk | ⟨-, -, complete, -⟩
      · exact .inl (full.step_of_link wired isProd linked walk)
      · -- No node is due where a production is complete.
        obtain ⟨-, node, due, -⟩ := full.mem_links_iff.1 linked
        have bound := wired.bound_of_next isProd due
        exact absurd complete (Nat.ne_of_lt bound)

/-- A walk from an item that was found is a trail, and what it comes to is found. -/
theorem Full.trail_of_walk (wired : g.Wired) (full : chart.Full g input root)
    (isProd : g.prod? p = some entry) (begun : g.Reached input root ⟨origin, ⟨p, 0⟩, origin⟩)
    (walk : SlotWalk g input chart entry origin founds places pos index) :
    Trail chart p origin founds places pos index ∧
      g.Reached input root ⟨pos, ⟨p, index⟩, origin⟩ := by
  induction walk with
  | start => exact ⟨.start, begun⟩
  | @step founds places pos index stop after id walk at_ records next ih =>
    obtain ⟨trail, reached⟩ := ih
    have known := records
    obtain ⟨node, atId, -⟩ := known
    have covered := (full.records_iff wired atId).1 records
    have due : Dotted.next? g ⟨p, index⟩ = some node := by
      unfold Dotted.next? Grammar.nodeAt?
      rw [Grammar.wiring_of_prod isProd, at_]
      exact atId
    have bound := wired.bound_of_next isProd due
    have advances : (⟨p, after⟩ : Dotted) ∈ Dotted.advance g ⟨p, index⟩ :=
      (wired.mem_advance isProd bound).2 ⟨rfl, next⟩
    have id_eq : id = node.id := (wired.id_eq atId).symm
    have linked : (⟨pos, index, some ⟨id, ⟨pos, stop⟩⟩⟩ : Backlink) ∈
        chart.links ⟨stop, ⟨p, after⟩, origin⟩ :=
      full.mem_links_iff.2 ⟨reached, node, due, id_eq, rfl, covered, advances⟩
    exact ⟨.link trail linked, reached.advance wired due covered advances⟩

/-- A walk goes no further back than where it began, and meets slots of the production only. -/
theorem Full.bounds_of_walk (wired : g.Wired) (full : chart.Full g input root)
    (isProd : g.prod? p = some entry)
    (walk : SlotWalk g input chart entry origin founds places pos index) :
    origin ≤ pos ∧
      ∀ place ∈ places, origin ≤ place.1 ∧ place.1 ≤ pos ∧ place.2 ≤ entry.production.arity := by
  induction walk with
  | start =>
    refine ⟨Nat.le_refl _, fun place member => ?_⟩
    rw [List.mem_singleton.1 member]
    exact ⟨Nat.le_refl _, Nat.le_refl _, Nat.zero_le _⟩
  | @step founds places pos index stop after id walk at_ records next ih =>
    obtain ⟨begins, each⟩ := ih
    have known := records
    obtain ⟨node, atId, -⟩ := known
    have goesOn : pos ≤ stop := (((full.records_iff wired atId).1 records).bounds wired).1
    have bound : index < entry.production.arity := by
      rw [← wired.length_wiring isProd]
      exact (List.getElem?_eq_some_iff.1 at_).1
    refine ⟨Nat.le_trans begins goesOn, fun place member => ?_⟩
    rcases List.mem_append.1 member with before | here
    · obtain ⟨from_, upTo, slot⟩ := each place before
      exact ⟨from_, Nat.le_trans upTo goesOn, slot⟩
    · rw [List.mem_singleton.1 here]
      exact ⟨Nat.le_trans begins goesOn, Nat.le_refl _, Production.le_arity_of_mem_next bound next⟩

/-- A walk without matches has gone nowhere. -/
theorem eq_of_walk_nil (walk : SlotWalk g input chart entry origin founds places pos index)
    (none_ : founds = []) : pos = origin := by
  cases walk with
  | start => rfl
  | step => exact absurd none_ (List.append_ne_nil_of_right_ne_nil _ (List.cons_ne_nil _ _))

/-! ## Child sequences -/

section Completed

variable {constituent : Constituent} {children : List Match}

/-- What was completed has been begun. -/
theorem Full.begun_of_completed (wired : g.Wired) (full : chart.Full g input root)
    (completed : p ∈ chart.completed constituent) :
    g.Reached input root ⟨constituent.span.start, ⟨p, 0⟩, constituent.span.start⟩ := by
  obtain ⟨lhs, reached⟩ := full.mem_completed_iff.1 completed
  have called := reached.called wired lhs
  exact called.begun (wired.mem_prodsFor.2 (Grammar.exists_prod_of_lhs lhs))

/-- The matches of a reduced walk are listed. -/
theorem Full.mem_derivations_of_walk (wired : g.Wired) (full : chart.Full g input root)
    (isProd : g.prod? p = some entry) (completed : p ∈ chart.completed constituent)
    (reduced : ReducedWalk g input chart entry constituent.span children) :
    children ∈ chart.derivations g p constituent.span := by
  obtain ⟨places, walk, nodup⟩ := reduced.walk
  have begun := full.begun_of_completed wired completed
  have trail := (full.trail_of_walk wired isProd begun walk).1
  have short := constituent.span.length_places_le nodup (full.bounds_of_walk wired isProd walk).2
  rw [mem_derivations_iff wired isProd]
  exact ⟨places, trail, nodup, Nat.le_succ_of_le short,
    Walk.forall_keepsEmpty_iff.2 reduced.elements⟩

/-- A list that needs no element and spans nothing may hold nothing. -/
theorem Full.nil_mem_derivations (wired : g.Wired) (full : chart.Full g input root)
    (isProd : g.prod? p = some entry) (completed : p ∈ chart.completed constituent)
    (kind : entry.production.kind = .list .star)
    (empty : constituent.span.start = constituent.span.stop) :
    [] ∈ chart.derivations g p constituent.span := by
  have begun := full.begun_of_completed wired completed
  obtain ⟨places, trail, nodup, short, -⟩ := full.exists_trail_empty wired isProd kind begun
  rw [mem_derivations_iff wired isProd, ← empty]
  refine ⟨places, trail, nodup, ?_, fun _ member => absurd member List.not_mem_nil⟩
  unfold Span.length
  rw [empty, Nat.sub_self, Nat.zero_add, Nat.one_mul]
  exact Nat.le_succ_of_le short

/-- What is listed are the matches of a reduced walk, or the nothing of a list that needs no element
and spans nothing. -/
theorem Full.walk_of_mem_derivations (wired : g.Wired) (full : chart.Full g input root)
    (isProd : g.prod? p = some entry)
    (listed : children ∈ chart.derivations g p constituent.span) :
    ReducedWalk g input chart entry constituent.span children ∨
      (children = [] ∧ entry.production.kind = .list .star ∧
        constituent.span.start = constituent.span.stop) := by
  obtain ⟨places, trail, nodup, -, keeps⟩ := (mem_derivations_iff wired isProd).1 listed
  rcases full.walk_of_trail wired isProd trail nodup with walk | ⟨none_, here, -, kind⟩
  · exact .inl ⟨⟨places, walk, nodup⟩, Walk.forall_keepsEmpty_iff.1 keeps⟩
  · exact .inr ⟨none_, kind, here.symm⟩

end Completed

end Full

end Chart

namespace Grammar

/-- The child sequences of a production that was completed over a span are listed once each. They
are those of the reduced walks through its slots, and of a list that needs no element and spans
nothing, the empty one. A list that needs no element has the empty one just if it spans nothing. -/
theorem derivations_are_walks {start : Symbol} {script : List Declaration} {g : Grammar}
    (built : (Grammar.ofScript start script).value = .ok g) (input : Input) (root : Symbol)
    {constituent : Constituent} {p : ProdId}
    (completed : p ∈ (g.recognize input root).value.completed constituent) :
    let chart := (g.recognize input root).value
    let derivations := chart.derivations g p constituent.span
    ∃ entry, g.prod? p = some entry ∧ entry.production.lhs = constituent.symbol ∧
      derivations.Nodup ∧
      (∀ children, children ∈ derivations ↔
        ReducedWalk g input chart entry constituent.span children ∨
          (children = [] ∧ entry.production.kind = .list .star ∧
            constituent.span.start = constituent.span.stop)) ∧
      (entry.production.kind = .list .star →
        ([] ∈ derivations ↔ constituent.span.start = constituent.span.stop)) := by
  intro chart derivations
  have wired := Wired.of_script built
  have full : chart.Full g input root := wired.full_recognize input root
  obtain ⟨entry, isProd, lhs⟩ := exists_prod_of_lhs (full.mem_completed_iff.1 completed).1
  have listed : ∀ children, children ∈ derivations ↔
      ReducedWalk g input chart entry constituent.span children ∨
        (children = [] ∧ entry.production.kind = .list .star ∧
          constituent.span.start = constituent.span.stop) := by
    intro children
    constructor
    · exact full.walk_of_mem_derivations wired isProd
    · intro walk
      rcases walk with reduced | ⟨rfl, kind, empty⟩
      · exact full.mem_derivations_of_walk wired isProd completed reduced
      · exact full.nil_mem_derivations wired isProd completed kind empty
  refine ⟨entry, isProd, lhs, ?_, listed, fun kind => ?_⟩
  · exact List.Nodup.of_map _ (full.nodup_derivations wired isProd constituent.span)
  · constructor
    · intro member
      rcases (listed []).1 member with reduced | ⟨-, -, empty⟩
      · obtain ⟨places, walk, -⟩ := reduced.walk
        exact (Chart.eq_of_walk_nil walk rfl).symm
      · exact empty
    · intro empty
      exact full.nil_mem_derivations wired isProd completed kind empty

end Grammar

/-- `S ::= A*` and `A ::= "a" | ε`. -/
def Example.nullableElements : List Declaration :=
  [.rule (.nonTerminal "S") [.list "S" (.nonTerminal "A") [] .star],
    .rule (.nonTerminal "A") [.sequence "Aa" [.literal "a"] [], .sequence "Ae" [] []]]

namespace Grammar

/-- `S ::= A*` and `A ::= "a" | ε`: over the text `aa` there is a walk through `S`, and each element
of it matches something. -/
theorem derivations_are_walks_nullable : ∃ (g : Grammar) (entry : WiredProduction)
    (children : List Match),
    (Grammar.ofScript (.nonTerminal "S") Example.nullableElements).value = .ok g ∧
      let input := Input.ofString "aa"
      let chart := (g.recognize input (.nonTerminal "S")).value
      0 ∈ chart.completed ⟨.nonTerminal "S", ⟨0, 2⟩⟩ ∧
        children ∈ chart.derivations g 0 ⟨0, 2⟩ ∧
        ReducedWalk g input chart entry ⟨0, 2⟩ children ∧
        ∀ child ∈ children, child.span.isEmpty = false := by
  obtain ⟨g, built, tested⟩ := exists_of_script (.nonTerminal "S") Example.nullableElements
    (fun g =>
      let chart := (g.recognize (Input.ofString "aa") (.nonTerminal "S")).value
      (chart.completed ⟨.nonTerminal "S", ⟨0, 2⟩⟩).contains 0 &&
        !(chart.derivations g 0 ⟨0, 2⟩).isEmpty &&
        (g.prod? 0).all fun entry =>
          entry.production.kind = .list .star && entry.production.separatorArity = 0)
    (by decide +kernel)
  simp only [Bool.and_eq_true, List.contains_iff_mem, Bool.not_eq_true',
    List.isEmpty_eq_false_iff] at tested
  obtain ⟨⟨completed, some_⟩, bare⟩ := tested
  obtain ⟨entry, isProd, -, -, listed, -⟩ :=
    derivations_are_walks built (Input.ofString "aa") (.nonTerminal "S") completed
  rw [isProd, Option.all_some, Bool.and_eq_true, decide_eq_true_iff, decide_eq_true_iff] at bare
  obtain ⟨children, member⟩ := List.exists_mem_of_ne_nil _ some_
  rcases (listed children).1 member with reduced | ⟨-, -, empty⟩
  · refine ⟨g, entry, children, built, completed, member, reduced, fun child isChild => ?_⟩
    cases empty : child.span.isEmpty with
    | false => rfl
    | true => cases (reduced.elements bare.1 bare.2 child isChild empty).1
  · cases empty

end Grammar

end Scannerless
