import Mathlib.Data.List.Nodup
import Scannerless.Proofs.Trails

/-!
# Outlines

The outline of a reduction is the label of its production and the spans of its children. The walks
through a production are found once each, and its wiring tells which node stands over which span. So
no two reductions of a constituent have the same outline.
-/

namespace Scannerless

/-- The label of a reduction, and the spans of its children in order. -/
abbrev Outline := Option String × List Span

/-- The outline of a production with matches for its parts. -/
def Packing.outline (reduction : Production × List Match) : Outline :=
  (some reduction.1.label, reduction.2.map Match.span)

/-- The reductions of a constituent by one of its productions. -/
def Packing.reductionsBy (g : Grammar) (chart : Chart) (constituent : Constituent) (p : ProdId) :
    List (Production × List Match) :=
  match g.prod? p with
  | none => []
  | some entry =>
    (chart.derivations g p constituent.span).map fun children => (entry.production, children)

theorem Packing.reductions_eq (g : Grammar) (chart : Chart) (constituent : Constituent) :
    reductions g chart constituent =
      (chart.completed constituent).flatMap (reductionsBy g chart constituent) :=
  rfl

theorem nodup_toList_treeSet {α : Type} [Ord α] [Std.TransOrd α] [Std.LawfulEqOrd α]
    (set : Std.TreeSet α) : set.toList.Nodup := by
  refine List.Pairwise.imp (fun {first second} different same => ?_) Std.TreeSet.distinct_toList
  exact different (Std.LawfulEqOrd.compare_eq_iff_eq.2 same)

namespace Chart

theorem nodup_links (chart : Chart) (item : Item) : (chart.links item).Nodup := by
  unfold links
  split
  · exact nodup_toList_treeSet _
  · exact List.nodup_nil

theorem nodup_completed (chart : Chart) (constituent : Constituent) :
    (chart.completed constituent).Nodup := by
  unfold completed
  split
  · exact nodup_toList_treeSet _
  · exact List.nodup_nil

section Full

variable {g : Grammar} {input : Input} {root : Symbol} {chart : Chart} {p : ProdId}
  {entry : WiredProduction} {origin pos index : Nat} {founds : List Match}
  {places : List (Nat × Nat)} {link : Backlink} {found : Match}

/-- A link without a match leads to the beginning of the production. -/
theorem Full.link_of_unmatched (full : chart.Full g input root)
    (isProd : g.prod? p = some entry) (linked : link ∈ chart.links ⟨pos, ⟨p, index⟩, origin⟩)
    (unmatched : link.matched = none) : link = ⟨origin, 0, none⟩ := by
  obtain ⟨prevPos, prevIndex, matched⟩ := link
  have by_ := (full.mem_links_iff.1 linked).2
  dsimp only at unmatched by_
  subst unmatched
  obtain ⟨-, allows, here, -⟩ := by_
  have first : prevIndex = 0 := ((Grammar.allowsEmpty_iff isProd).1 allows).1
  rw [first, show prevPos = origin from here]

/-- A link with a match leads to the place that the node of the match is wired to, at the offset
where the match begins. -/
theorem Full.wiring_of_matched (wired : g.Wired) (full : chart.Full g input root)
    (isProd : g.prod? p = some entry) (linked : link ∈ chart.links ⟨pos, ⟨p, index⟩, origin⟩)
    (matched : link.matched = some found) :
    entry.wiring[link.prevIndex]? = some found.node ∧ found.span = ⟨link.prevPos, pos⟩ := by
  obtain ⟨prevPos, prevIndex, matched_⟩ := link
  have by_ := (full.mem_links_iff.1 linked).2
  dsimp only at matched by_
  subst matched
  obtain ⟨node, due, id_eq, span_eq, -, -⟩ := by_
  exact ⟨id_eq ▸ (wired.rhs_of_next isProd due).2.1, span_eq⟩

/-- The match of a link tells the link. -/
theorem Full.link_eq_of_matched (wired : g.Wired) (full : chart.Full g input root)
    (isProd : g.prod? p = some entry) {other : Backlink}
    (linked : link ∈ chart.links ⟨pos, ⟨p, index⟩, origin⟩)
    (linkedToo : other ∈ chart.links ⟨pos, ⟨p, index⟩, origin⟩)
    (matched : link.matched = some found) (matchedToo : other.matched = some found) :
    link = other := by
  obtain ⟨at_, span_eq⟩ := full.wiring_of_matched wired isProd linked matched
  obtain ⟨atToo, span_eqToo⟩ := full.wiring_of_matched wired isProd linkedToo matchedToo
  have bound := (List.getElem?_eq_some_iff.1 at_).1
  have index_eq : link.prevIndex = other.prevIndex :=
    (List.getElem?_inj bound (wired.nodup isProd)).1 (at_.trans atToo.symm)
  have pos_eq : link.prevPos = other.prevPos := by
    rw [span_eq] at span_eqToo
    exact congrArg Span.start span_eqToo
  cases link
  cases other
  simp only [Backlink.mk.injEq] at *
  exact ⟨pos_eq, index_eq, matched.trans matchedToo.symm⟩

/-! ## Walks are found once -/

/-- Walks that end in an item by different links are different. -/
theorem Full.disjoint_endingIn (wired : g.Wired) (full : chart.Full g input root)
    (isProd : g.prod? p = some entry) {keepEmpty : Bool} {steps : Nat}
    {visited : List (Nat × Nat)} {after children : List Match} {other : Backlink}
    (linked : link ∈ chart.links ⟨pos, ⟨p, index⟩, origin⟩)
    (linkedToo : other ∈ chart.links ⟨pos, ⟨p, index⟩, origin⟩)
    (walk : children ∈ Walk.endingIn chart p origin keepEmpty steps link.prevPos link.prevIndex
      visited (link.matched.toList ++ after))
    (walkToo : children ∈ Walk.endingIn chart p origin keepEmpty steps other.prevPos
      other.prevIndex visited (other.matched.toList ++ after)) : link = other := by
  obtain ⟨founds, places, admissible, eq⟩ := Walk.mem_endingIn_iff.1 walk
  obtain ⟨foundsToo, placesToo, admissibleToo, eqToo⟩ := Walk.mem_endingIn_iff.1 walkToo
  have same : founds ++ link.matched.toList = foundsToo ++ other.matched.toList := by
    rw [eq, ← List.append_assoc, ← List.append_assoc] at eqToo
    exact List.append_cancel_right eqToo
  -- Before a link without a match nothing is matched, before or by any other link something is.
  have bare : ∀ {link : Backlink} {founds : List Match} {places : List (Nat × Nat)},
      link ∈ chart.links ⟨pos, ⟨p, index⟩, origin⟩ → link.matched = none →
      Walk.Admissible chart p origin keepEmpty steps visited founds places link.prevPos
        link.prevIndex → link = ⟨origin, 0, none⟩ ∧ founds = [] := by
    intro link founds places linked unmatched admissible
    obtain rfl := full.link_of_unmatched isProd linked unmatched
    exact ⟨rfl, (admissible.trail.eq_start admissible.nodup ⟨rfl, rfl⟩).1⟩
  cases matched : link.matched with
  | none =>
    obtain ⟨rfl, rfl⟩ := bare linked matched admissible
    cases matchedToo : other.matched with
    | none => exact (bare linkedToo matchedToo admissibleToo).1.symm
    | some found =>
      rw [matchedToo] at same
      simp at same
  | some found =>
    cases matchedToo : other.matched with
    | none =>
      obtain ⟨rfl, rfl⟩ := bare linkedToo matchedToo admissibleToo
      rw [matched] at same
      simp at same
    | some foundToo =>
      rw [matched, matchedToo] at same
      have found_eq : found = foundToo := by
        simpa using (List.append_inj' same rfl).2
      exact full.link_eq_of_matched wired isProd linked linkedToo matched (found_eq ▸ matchedToo)

theorem Full.nodup_endingIn (wired : g.Wired) (full : chart.Full g input root)
    (isProd : g.prod? p = some entry) {keepEmpty : Bool} {steps : Nat} :
    ∀ {pos index : Nat} {visited : List (Nat × Nat)} {after : List Match},
      (Walk.endingIn chart p origin keepEmpty steps pos index visited after).Nodup := by
  induction steps with
  | zero => exact List.nodup_nil
  | succ steps ih =>
    intro pos index visited after
    rw [Walk.endingIn]
    split
    · exact List.nodup_nil
    · split
      · exact List.nodup_singleton _
      · refine List.nodup_flatMap.2 ⟨fun link _ => ih, ?_⟩
        have once := (chart.nodup_links ⟨pos, ⟨p, index⟩, origin⟩).filter (Walk.keeps keepEmpty)
        refine List.Nodup.pairwise_of_forall_ne once fun link kept other keptToo different => ?_
        refine List.disjoint_left.2 fun children walk walkToo => ?_
        exact different (full.disjoint_endingIn wired isProd (List.mem_filter.1 kept).1
          (List.mem_filter.1 keptToo).1 walk walkToo)

/-! ## Spans tell the matches -/

/-- On a trail, the matches have the nodes wired to the production, one place after another. -/
theorem Full.wiring_of_trail (wired : g.Wired) (full : chart.Full g input root)
    (isProd : g.prod? p = some entry) (trail : Trail chart p origin founds places pos index)
    (nodup : places.Nodup) : ∀ {place : Nat}, founds[place]? = some found →
      entry.wiring[place % entry.production.arity]? = some found.node := by
  induction trail with
  | start => exact fun at_ => nomatch at_
  | @link founds places pos index link trail linked ih =>
    intro place at_
    have nodupBefore := (List.nodup_append.1 nodup).1
    by_cases before : place < founds.length
    · rw [List.getElem?_append_left before] at at_
      exact ih nodupBefore at_
    · cases matched : link.matched with
      | none =>
        rw [matched, Option.toList_none, List.append_nil] at at_
        exact absurd (List.getElem?_eq_some_iff.1 at_).1 before
      | some last =>
        rw [matched, List.getElem?_append_right (Nat.le_of_not_lt before)] at at_
        obtain ⟨inLast, eq⟩ := List.getElem?_eq_some_iff.1 at_
        have place_eq : place - founds.length = 0 := Nat.lt_one_iff.1 inLast
        obtain rfl : last = found := by simpa [place_eq] using eq
        obtain ⟨wiredAt, -⟩ := full.wiring_of_matched wired isProd linked matched
        have bound := (List.getElem?_eq_some_iff.1 wiredAt).1
        rw [wired.length_wiring isProd] at bound
        rcases full.passage wired isProd trail nodupBefore with ⟨parts, passage⟩ | ⟨-, -, last_, -⟩
        · have index_eq := passage.walks.index_eq bound (by omega)
          rw [Nat.zero_add, List.length_map, ← passage.stand.length_eq] at index_eq
          rwa [show place = founds.length by omega, ← index_eq]
        · exact absurd last_ (Nat.ne_of_lt bound)

theorem Full.eq_of_map_span (wired : g.Wired) (full : chart.Full g input root)
    (isProd : g.prod? p = some entry) {span : Span} {others : List Match}
    (derived : founds ∈ chart.derivations g p span)
    (derivedToo : others ∈ chart.derivations g p span)
    (spans : founds.map Match.span = others.map Match.span) : founds = others := by
  obtain ⟨places, trail, nodup, -, -⟩ := (mem_derivations_iff wired isProd).1 derived
  obtain ⟨placesToo, trailToo, nodupToo, -, -⟩ := (mem_derivations_iff wired isProd).1 derivedToo
  have length : founds.length = others.length := by
    simpa using congrArg List.length spans
  refine List.ext_getElem length fun place bound boundToo => ?_
  have at_ := full.wiring_of_trail wired isProd trail nodup (List.getElem?_eq_getElem bound)
  have atToo :=
    full.wiring_of_trail wired isProd trailToo nodupToo (List.getElem?_eq_getElem boundToo)
  have node_eq : founds[place].node = others[place].node := Option.some.inj (at_.symm.trans atToo)
  have span_eq : founds[place].span = others[place].span := by
    have spanAt := congrArg (·[place]?) spans
    simpa [bound, boundToo] using spanAt
  generalize founds[place] = found, others[place] = other at node_eq span_eq
  cases found
  cases other
  simp only at node_eq span_eq
  rw [node_eq, span_eq]

/-- The child sequences of a production over a span are listed once each, and so are their spans. -/
theorem Full.nodup_derivations (wired : g.Wired) (full : chart.Full g input root)
    (isProd : g.prod? p = some entry) (span : Span) :
    ((chart.derivations g p span).map fun founds => founds.map Match.span).Nodup := by
  refine List.Nodup.map_on (fun founds derived others derivedToo => ?_) ?_
  · exact full.eq_of_map_span wired isProd derived derivedToo
  · unfold derivations
    rw [isProd]
    exact full.nodup_endingIn wired isProd

/-! ## Outlines tell the reductions -/

theorem Full.nodup_outlines_by (wired : g.Wired) (full : chart.Full g input root)
    (constituent : Constituent) (p : ProdId) :
    ((Packing.reductionsBy g chart constituent p).map Packing.outline).Nodup := by
  unfold Packing.reductionsBy
  cases isProd : g.prod? p with
  | none => exact List.nodup_nil
  | some entry =>
    dsimp only
    rw [List.map_map]
    have once := full.nodup_derivations wired isProd constituent.span
    exact List.Nodup.of_map Prod.snd (by rwa [List.map_map])

theorem withLabel_of_mem_reductionsBy (wired : g.Wired) {constituent : Constituent}
    {reduction : Production × List Match}
    (member : reduction ∈ Packing.reductionsBy g chart constituent p) :
    g.withLabel? reduction.1.label = some p := by
  unfold Packing.reductionsBy at member
  cases isProd : g.prod? p with
  | none =>
    rw [isProd] at member
    cases member
  | some entry =>
    rw [isProd] at member
    obtain ⟨founds, -, rfl⟩ := List.mem_map.1 member
    exact wired.withLabel_iff.2 ⟨entry, isProd, rfl⟩

/-- The reductions of a constituent have different outlines. -/
theorem Full.nodup_outlines (wired : g.Wired) (full : chart.Full g input root)
    (constituent : Constituent) :
    ((Packing.reductions g chart constituent).map Packing.outline).Nodup := by
  rw [Packing.reductions_eq, List.map_flatMap]
  refine List.nodup_flatMap.2 ⟨fun p _ => full.nodup_outlines_by wired constituent p, ?_⟩
  refine (chart.nodup_completed constituent).pairwise_of_forall_ne fun p _ q _ different => ?_
  refine List.disjoint_left.2 fun outline member memberToo => ?_
  obtain ⟨reduction, isReduction, rfl⟩ := List.mem_map.1 member
  obtain ⟨other, isReductionToo, same⟩ := List.mem_map.1 memberToo
  have label_eq : other.1.label = reduction.1.label := Option.some.inj (congrArg Prod.fst same)
  have labels := withLabel_of_mem_reductionsBy wired isReduction
  have labelsToo := withLabel_of_mem_reductionsBy wired isReductionToo
  rw [label_eq, labels] at labelsToo
  exact different (Option.some.inj labelsToo)

end Full

end Chart

end Scannerless
