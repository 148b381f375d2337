import Mathlib.Data.List.Forall2
import Scannerless.Forest.Packing
import Scannerless.Proofs.Derivation
import Scannerless.Proofs.Trees

/-!
# Trails

A trail goes from the first item of a production to a later one by the links of the chart, and notes
the matches and the places on its way. `Walk.endingIn` finds the trails that meet no place twice.

In a full chart the matches of a trail stand for the symbols of an expansion and tile the span. So
the reductions of a constituent are its productions with the matches of every tight way through
them.
-/

namespace Scannerless

/-! ## Trails of a chart -/

/-- A way from the first item of a production by links of the chart. -/
inductive Trail (chart : Chart) (p : ProdId) (origin : Nat) :
    List Match → List (Nat × Nat) → Nat → Nat → Prop
  | start : Trail chart p origin [] [(origin, 0)] origin 0
  | link {founds : List Match} {places : List (Nat × Nat)} {pos index : Nat} {link : Backlink}
    (trail : Trail chart p origin founds places link.prevPos link.prevIndex)
    (linked : link ∈ chart.links ⟨pos, ⟨p, index⟩, origin⟩) :
    Trail chart p origin (founds ++ link.matched.toList) (places ++ [(pos, index)]) pos index

namespace Trail

variable {chart : Chart} {p : ProdId} {origin pos index : Nat} {founds : List Match}
  {places : List (Nat × Nat)}

theorem first_mem (trail : Trail chart p origin founds places pos index) :
    (origin, 0) ∈ places := by
  induction trail with
  | start => exact List.mem_cons_self
  | link _ _ ih => exact List.mem_append_left _ ih

theorem last_mem (trail : Trail chart p origin founds places pos index) :
    (pos, index) ∈ places := by
  cases trail with
  | start => exact List.mem_cons_self
  | link => exact List.mem_append_right _ List.mem_cons_self

/-- A trail that meets no place twice and ends where it began goes nowhere. -/
theorem eq_start (trail : Trail chart p origin founds places pos index) (nodup : places.Nodup)
    (here : pos = origin ∧ index = 0) : founds = [] ∧ places = [(origin, 0)] := by
  cases trail with
  | start => exact ⟨rfl, rfl⟩
  | link trail linked =>
    have twice := (List.nodup_append.1 nodup).2.2 _ trail.first_mem _ List.mem_cons_self
    rw [here.1, here.2] at twice
    exact absurd rfl twice

end Trail

namespace Walk

variable {chart : Chart} {p : ProdId} {origin : Nat} {keepEmpty : Bool}

theorem keeps_iff {link : Backlink} : keeps keepEmpty link = true ↔
    ∀ found ∈ link.matched.toList, keepEmpty = true ∨ found.span.isEmpty = false := by
  unfold keeps
  cases link.matched <;> simp

/-- A trail that meets no place twice nor one that has been visited, is within the steps, and keeps
no match that is to be left out. -/
structure Admissible (chart : Chart) (p : ProdId) (origin : Nat) (keepEmpty : Bool) (steps : Nat)
    (visited : List (Nat × Nat)) (founds : List Match) (places : List (Nat × Nat))
    (pos index : Nat) : Prop where
  trail : Trail chart p origin founds places pos index
  nodup : places.Nodup
  fresh : ∀ place ∈ places, place ∉ visited
  short : places.length ≤ steps
  keeps : ∀ found ∈ founds, keepEmpty = true ∨ found.span.isEmpty = false

section Admissible

variable {steps pos index : Nat} {visited : List (Nat × Nat)} {founds : List Match}
  {places : List (Nat × Nat)} {by_ : Backlink}

theorem admissible_start (unvisited : (origin, 0) ∉ visited) :
    Admissible chart p origin keepEmpty (steps + 1) visited [] [(origin, 0)] origin 0 where
  trail := .start
  nodup := List.pairwise_singleton _ _
  fresh place isHere := by rwa [List.mem_singleton.1 isHere]
  short := Nat.succ_le_succ (Nat.zero_le _)
  keeps _ member := absurd member List.not_mem_nil

/-- A trail that keeps clear of a place goes on to it. -/
theorem Admissible.link (unvisited : (pos, index) ∉ visited)
    (linked : by_ ∈ chart.links ⟨pos, ⟨p, index⟩, origin⟩)
    (kept : Walk.keeps keepEmpty by_ = true)
    (admissible : Admissible chart p origin keepEmpty steps ((pos, index) :: visited) founds places
      by_.prevPos by_.prevIndex) :
    Admissible chart p origin keepEmpty (steps + 1) visited (founds ++ by_.matched.toList)
      (places ++ [(pos, index)]) pos index where
  trail := .link admissible.trail linked
  nodup := by
    refine List.nodup_append.2 ⟨admissible.nodup, List.pairwise_singleton _ _, ?_⟩
    intro place inPlaces last isLast same
    rw [same, List.mem_singleton.1 isLast] at inPlaces
    exact admissible.fresh _ inPlaces List.mem_cons_self
  fresh place inPlaces := by
    rcases List.mem_append.1 inPlaces with before | here
    · exact fun inVisited => admissible.fresh place before (List.mem_cons_of_mem _ inVisited)
    · rwa [List.mem_singleton.1 here]
  short := by
    rw [List.length_append, List.length_singleton]
    exact Nat.succ_le_succ admissible.short
  keeps found inFounds := by
    rcases List.mem_append.1 inFounds with before | here
    · exact admissible.keeps found before
    · exact keeps_iff.1 kept found here

/-- Up to its last link, a trail keeps clear of the place where it ends. -/
theorem Admissible.of_link
    (admissible : Admissible chart p origin keepEmpty (steps + 1) visited
      (founds ++ by_.matched.toList) (places ++ [(pos, index)]) pos index)
    (trail : Trail chart p origin founds places by_.prevPos by_.prevIndex) :
    Walk.keeps keepEmpty by_ = true ∧
      Admissible chart p origin keepEmpty steps ((pos, index) :: visited) founds places
        by_.prevPos by_.prevIndex := by
  obtain ⟨nodup, -, unlike⟩ := List.nodup_append.1 admissible.nodup
  have short := admissible.short
  rw [List.length_append, List.length_singleton] at short
  refine ⟨?_, trail, nodup, ?_, Nat.le_of_succ_le_succ short, ?_⟩
  · rw [keeps_iff]
    exact fun found member => admissible.keeps found (List.mem_append_right _ member)
  · intro place inPlaces inVisited
    rcases List.mem_cons.1 inVisited with rfl | earlier
    · exact unlike _ inPlaces _ List.mem_cons_self rfl
    · exact admissible.fresh place (List.mem_append_left _ inPlaces) earlier
  · exact fun found member => admissible.keeps found (List.mem_append_left _ member)

end Admissible

/-- The walks are the trails that meet no place twice nor one that has been visited. -/
theorem mem_endingIn_iff {steps pos index : Nat} {visited : List (Nat × Nat)}
    {after children : List Match} :
    children ∈ endingIn chart p origin keepEmpty steps pos index visited after ↔
      ∃ founds places,
        Admissible chart p origin keepEmpty steps visited founds places pos index ∧
          children = founds ++ after := by
  induction steps generalizing pos index visited after with
  | zero =>
    constructor
    · intro member
      cases member
    · intro isWalk
      obtain ⟨founds, places, admissible, -⟩ := isWalk
      have last := admissible.trail.last_mem
      rw [List.length_eq_zero_iff.1 (Nat.le_zero.1 admissible.short)] at last
      cases last
  | succ steps ih =>
    rw [endingIn]
    constructor
    · intro member
      split at member
      · cases member
      next unvisited =>
      split at member
      · next here =>
        obtain ⟨rfl, rfl⟩ := here
        exact ⟨[], [(pos, 0)], admissible_start unvisited, List.mem_singleton.1 member⟩
      · obtain ⟨link, kept, further⟩ := List.mem_flatMap.1 member
        obtain ⟨linked, keeps⟩ := List.mem_filter.1 kept
        obtain ⟨founds, places, admissible, rfl⟩ := ih.1 further
        refine ⟨_, _, admissible.link unvisited linked keeps, ?_⟩
        rw [List.append_assoc]
    · intro isWalk
      obtain ⟨founds, places, admissible, rfl⟩ := isWalk
      have trail := admissible.trail
      rw [if_neg (admissible.fresh _ trail.last_mem)]
      split
      · next here =>
        rw [(trail.eq_start admissible.nodup here).1]
        exact List.mem_cons_self
      · next elsewhere =>
        cases trail with
        | start => exact absurd ⟨rfl, rfl⟩ elsewhere
        | @link before places _ _ link trail linked =>
          obtain ⟨keeps, shorter⟩ := admissible.of_link trail
          refine List.mem_flatMap.2 ⟨link, List.mem_filter.2 ⟨linked, keeps⟩, ih.2 ?_⟩
          exact ⟨before, places, shorter, List.append_assoc _ _ _⟩

end Walk

/-! ## Trails of a full chart -/

/-- A match that stands for a part of a reduction: its node is one of the symbol, which is matched
over the span, and which is called where the span begins if it is not a terminal. -/
structure Match.StandsFor (g : Grammar) (input : Input) (root : Symbol) (found : Match)
    (part : Constituent) : Prop where
  node : ∃ node, g.node? found.node = some node ∧ node.symbol = part.symbol
  span_eq : found.span = part.span
  covered : g.Covered input root part.symbol part.span
  called : part.symbol.isTerminal = false → g.Called input root ⟨part.symbol, part.span.start⟩

/-- A way through a production from its first place, with the parts matched on it, the matches that
stand for them, and the places met. -/
structure Passage (g : Grammar) (input : Input) (root : Symbol) (production : Production)
    (origin : Nat) (parts : List Constituent) (founds : List Match) (places : List (Nat × Nat))
    (pos index : Nat) : Prop where
  walks : production.Walks 0 (parts.map Constituent.symbol) index
  stand : List.Forall₂ (Match.StandsFor g input root) founds parts
  tiles : Tiles origin (parts.map Constituent.span) pos
  places_eq : places = (parts.map Constituent.span).mapIdx
    (fun index span => (span.start, index % production.arity)) ++ [(pos, index)]

section Full

variable {g : Grammar} {input : Input} {root : Symbol} {chart : Chart} {p : ProdId}
  {entry : WiredProduction} {origin pos index stop after : Nat} {parts : List Constituent}
  {founds : List Match} {places : List (Nat × Nat)} {node : StackNode}

theorem Passage.start (origin : Nat) :
    Passage g input root entry.production origin [] [] [(origin, 0)] origin 0 :=
  ⟨.nil 0, .nil, rfl, rfl⟩

/-- A passage goes on past the symbol that is due. -/
theorem Passage.step (wired : g.Wired) (found : g.prod? p = some entry)
    (passage : Passage g input root entry.production origin parts founds places pos index)
    (reached : g.Reached input root ⟨pos, ⟨p, index⟩, origin⟩)
    (due : Dotted.next? g ⟨p, index⟩ = some node)
    (covered : g.Covered input root node.symbol ⟨pos, stop⟩)
    (next : after ∈ entry.production.next index) :
    Passage g input root entry.production origin (parts ++ [⟨node.symbol, ⟨pos, stop⟩⟩])
      (founds ++ [⟨node.id, ⟨pos, stop⟩⟩]) (places ++ [(stop, after)]) stop after := by
  obtain ⟨at_, -, atId⟩ := wired.rhs_of_next found due
  have bound := wired.bound_of_next found due
  have stands : Match.StandsFor g input root ⟨node.id, ⟨pos, stop⟩⟩
      ⟨node.symbol, ⟨pos, stop⟩⟩ :=
    ⟨⟨node, atId, rfl⟩, rfl, covered,
      fun nonTerminal => .inr ⟨_, node, reached, due, nonTerminal, rfl⟩⟩
  refine ⟨?_, ?_, ?_, ?_⟩
  · rw [List.map_append]
    exact passage.walks.snoc at_ next
  · exact List.rel_append passage.stand (.cons stands .nil)
  · rw [List.map_append]
    exact tiles_append_iff.2 ⟨pos, passage.tiles, rfl, (covered.bounds wired).1, rfl⟩
  · have index_eq := passage.walks.index_eq bound (by omega)
    rw [Nat.zero_add, List.length_map] at index_eq
    rw [passage.places_eq, List.map_append, List.map_cons, List.map_nil, List.mapIdx_concat,
      List.length_map, ← index_eq]

/-- A trail that meets no place twice is a passage, or the completion of a list that holds
nothing. -/
theorem Chart.Full.passage (wired : g.Wired) (full : chart.Full g input root)
    (found : g.prod? p = some entry) (trail : Trail chart p origin founds places pos index)
    (nodup : places.Nodup) :
    (∃ parts, Passage g input root entry.production origin parts founds places pos index) ∨
      (founds = [] ∧ pos = origin ∧ index = entry.production.arity ∧
        entry.production.kind = .list .star) := by
  induction trail with
  | start => exact .inl ⟨[], .start origin⟩
  | @link founds places pos index link trail linked ih =>
    have nodupBefore := (List.nodup_append.1 nodup).1
    obtain ⟨prevPos, prevIndex, matched⟩ := link
    have by_ := full.mem_links_iff.1 linked
    unfold Grammar.Linked at by_
    dsimp only at by_ trail ih
    obtain ⟨reached, by_⟩ := by_
    cases matched with
    | none =>
      obtain ⟨-, allows, here, eq⟩ := by_
      obtain ⟨first, kind⟩ := (Grammar.allowsEmpty_iff found).1 allows
      obtain ⟨rfl, -⟩ := trail.eq_start nodupBefore ⟨here, first⟩
      simp only [Item.mk.injEq, Dotted.complete, Dotted.mk.injEq, wired.slots_eq found] at eq
      exact .inr ⟨rfl, eq.1.trans here, eq.2.1.2, kind⟩
    | some match_ =>
      obtain ⟨id, span⟩ := match_
      obtain ⟨node, due, id_eq, span_eq, covered, advances⟩ := by_
      subst id_eq span_eq
      have bound := wired.bound_of_next found due
      rcases ih nodupBefore with ⟨parts, passage⟩ | ⟨-, -, complete, -⟩
      · have next := ((wired.mem_advance found bound).1 advances).2
        exact .inl ⟨_, passage.step wired found reached due covered next⟩
      · exact absurd complete (Nat.ne_of_lt bound)

/-- A passage goes on through parts whose spans tile, if each is matched over its span when it is
called there. -/
theorem Chart.Full.exists_passage (wired : g.Wired) (full : chart.Full g input root)
    (found : g.prod? p = some entry) {final : Nat} {ahead : List Constituent} :
    ∀ {parts : List Constituent} {founds : List Match} {places : List (Nat × Nat)}
      {pos index stop : Nat},
      Passage g input root entry.production origin parts founds places pos index →
      Trail chart p origin founds places pos index →
      g.Reached input root ⟨pos, ⟨p, index⟩, origin⟩ →
      entry.production.Walks index (ahead.map Constituent.symbol) final →
      (∀ part ∈ ahead, (part.symbol.isTerminal = false →
        g.Called input root ⟨part.symbol, part.span.start⟩) →
          g.Covered input root part.symbol part.span) →
      Tiles pos (ahead.map Constituent.span) stop →
      ∃ founds' places',
        Passage g input root entry.production origin (parts ++ ahead) founds' places' stop
          final ∧
        Trail chart p origin founds' places' stop final ∧
        g.Reached input root ⟨stop, ⟨p, final⟩, origin⟩ := by
  induction ahead with
  | nil =>
    intro parts founds places pos index stop passage trail reached walks covered tiles
    cases walks
    obtain rfl : pos = stop := tiles
    refine ⟨founds, places, ?_, trail, reached⟩
    rwa [List.append_nil]
  | cons part rest ih =>
    intro parts founds places pos index stop passage trail reached walks covered tiles
    cases walks with
    | @cons _ after _ _ _ at_ next walks =>
      obtain ⟨symbol, start, middle⟩ := part
      obtain ⟨begins, ordered, tiles⟩ := tiles
      obtain rfl : start = pos := begins
      obtain ⟨node, due, rfl⟩ := wired.exists_next found at_
      have first := covered _ List.mem_cons_self fun nonTerminal =>
        .inr ⟨_, node, reached, due, nonTerminal, rfl⟩
      have advances : (⟨p, after⟩ : Dotted) ∈ Dotted.advance g ⟨p, index⟩ :=
        (wired.mem_advance found (wired.bound_of_next found due)).2 ⟨rfl, next⟩
      have linked : (⟨start, index, some ⟨node.id, ⟨start, middle⟩⟩⟩ : Backlink) ∈
          chart.links ⟨middle, ⟨p, after⟩, origin⟩ :=
        full.mem_links_iff.2 ⟨reached, node, due, rfl, rfl, first, advances⟩
      obtain ⟨founds', places', passage', trail', reached'⟩ :=
        ih (passage.step wired found reached due first next) (.link trail linked)
          (reached.advance wired due first advances) walks
          (fun other inRest => covered other (List.mem_cons_of_mem _ inRest)) tiles
      refine ⟨founds', places', ?_, trail', reached'⟩
      rwa [List.append_assoc] at passage'

end Full

/-! ## Tight passages -/

/-- Different places are no more than there are offsets within a span and indices. -/
theorem Span.length_places_le (span : Span) {slots : Nat} {places : List (Nat × Nat)}
    (nodup : places.Nodup)
    (within : ∀ place ∈ places, span.start ≤ place.1 ∧ place.1 ≤ span.stop ∧ place.2 ≤ slots) :
    places.length ≤ (span.length + 1) * (slots + 1) := by
  have listed : places ⊆ (List.range (span.length + 1)).flatMap fun further =>
      (List.range (slots + 1)).map fun index => (span.start + further, index) := by
    intro place member
    obtain ⟨from_, upTo, bound⟩ := within place member
    refine List.mem_flatMap.2 ⟨place.1 - span.start, List.mem_range.2 ?_,
      List.mem_map.2 ⟨place.2, List.mem_range.2 (by omega), ?_⟩⟩
    · unfold Span.length
      omega
    · rw [Nat.add_sub_cancel' from_]
  have short := (List.subperm_of_subset nodup listed).length_le
  simpa [List.length_flatMap, List.map_const'] using short

namespace Production

variable {production : Production} {span : Span} {spans : List Span}

/-- The places met in tiling a span are no more than there are offsets and places. -/
theorem length_places_le (tiles : Tiles span.start spans span.stop)
    (nodup : (production.places spans span.stop).Nodup)
    (positive : spans ≠ [] → 0 < production.arity) :
    (production.places spans span.stop).length ≤
      (span.length + 1) * (production.arity + 1) := by
  have bounds := tiles.bounds
  refine span.length_places_le nodup fun place member => ?_
  rcases List.mem_append.1 member with before | last
  · obtain ⟨index, bound, rfl⟩ := List.mem_mapIdx.1 before
    have inside := bounds.2 _ (List.getElem_mem bound)
    have some_ : 0 < production.arity := positive (List.ne_nil_of_length_pos (by omega))
    have less := Nat.mod_lt index some_
    exact ⟨inside.1, by omega, Nat.le_of_lt less⟩
  · rw [List.mem_singleton.1 last]
    exact ⟨bounds.1, Nat.le_refl _, Nat.le_refl _⟩

/-- Elements that match nothing are kept just where a tight passage may have them. -/
theorem keepsEmpty_of_tight (tight : production.Tight span spans) :
    ∀ part ∈ spans, Walk.keepsEmpty production span = true ∨ part.isEmpty = false := by
  intro part member
  unfold Walk.keepsEmpty
  cases kind : production.kind with
  | sequence => exact .inl rfl
  | list repetition =>
    dsimp only
    split
    · next bare =>
      cases empty : part.isEmpty with
      | false => exact .inr rfl
      | true =>
        obtain ⟨rfl, -, spanEmpty⟩ := tight.elements kind bare part member empty
        rw [spanEmpty]
        exact .inl rfl
    · exact .inl rfl

theorem tight_of_keepsEmpty (tiles : Tiles span.start spans span.stop)
    (nodup : (production.places spans span.stop).Nodup)
    (positive : spans ≠ [] → 0 < production.arity)
    (keeps : ∀ part ∈ spans, Walk.keepsEmpty production span = true ∨ part.isEmpty = false) :
    production.Tight span spans := by
  refine ⟨nodup, fun {repetition} kind bare part member empty => ?_⟩
  have single : production.arity = 1 := by
    have some_ := positive (List.ne_nil_of_mem member)
    unfold separatorArity at bare
    rw [kind] at bare
    dsimp only at bare
    omega
  have keepsEmpty : Walk.keepsEmpty production span = true := by
    rcases keeps part member with kept | nonempty
    · exact kept
    · rw [empty] at nonempty
      cases nonempty
  unfold Walk.keepsEmpty at keepsEmpty
  rw [kind] at keepsEmpty
  dsimp only at keepsEmpty
  rw [if_pos bare, Bool.and_eq_true] at keepsEmpty
  obtain ⟨spanEmpty, needs⟩ := keepsEmpty
  refine ⟨?_, ?_, spanEmpty⟩
  · cases repetition with
    | plus => rfl
    | star => cases needs
  · have here : span.start = span.stop := beq_iff_eq.1 spanEmpty
    -- Two elements that match nothing would both stand at the only place of the list.
    match spans, tiles with
    | [only], _ => rw [List.mem_singleton.1 member]
    | first :: second :: rest, tiles =>
      have bounds := tiles.bounds.2
      have firstBounds := bounds first List.mem_cons_self
      have secondBounds := bounds second (List.mem_cons_of_mem _ List.mem_cons_self)
      have twice : first.start = second.start := by omega
      unfold places at nodup
      rw [List.mapIdx_cons, List.mapIdx_cons, single, twice, List.cons_append,
        List.nodup_cons] at nodup
      exact absurd List.mem_cons_self nodup.1

end Production

/-! ## Reductions -/

section Reductions

variable {g : Grammar} {input : Input} {root : Symbol} {chart : Chart} {p : ProdId}
  {entry : WiredProduction}

theorem mem_derivations_iff (wired : g.Wired) (found : g.prod? p = some entry) {span : Span}
    {children : List Match} : children ∈ chart.derivations g p span ↔
      ∃ places, Trail chart p span.start children places span.stop entry.production.arity ∧
        places.Nodup ∧ places.length ≤ (span.length + 1) * (entry.production.arity + 1) + 1 ∧
        ∀ child ∈ children,
          Walk.keepsEmpty entry.production span = true ∨ child.span.isEmpty = false := by
  unfold Chart.derivations
  rw [found]
  dsimp only
  rw [wired.slots_eq found, Walk.mem_endingIn_iff]
  constructor
  · intro isWalk
    obtain ⟨founds, places, admissible, rfl⟩ := isWalk
    rw [List.append_nil]
    exact ⟨places, admissible.trail, admissible.nodup, admissible.short, admissible.keeps⟩
  · intro isTrail
    obtain ⟨places, trail, nodup, short, keeps⟩ := isTrail
    refine ⟨children, places, ⟨trail, nodup, ?_, short, keeps⟩, (List.append_nil _).symm⟩
    exact fun _ _ => List.not_mem_nil

/-- A reduction of a constituent: one of its productions, with matches that stand for the parts of
an expansion and go through the production tightly. -/
structure IsReduction (g : Grammar) (input : Input) (root : Symbol) (constituent : Constituent)
    (production : Production) (founds : List Match) (parts : List Constituent) : Prop where
  registered : ∃ p entry, g.prod? p = some entry ∧ entry.production = production
  lhs : production.lhs = constituent.symbol
  expands : production.Expands (parts.map Constituent.symbol)
  stand : List.Forall₂ (Match.StandsFor g input root) founds parts
  tiles : Tiles constituent.span.start (parts.map Constituent.span) constituent.span.stop
  tight : production.Tight constituent.span (parts.map Constituent.span)

theorem Match.map_span_eq {founds : List Match} {parts : List Constituent}
    (stand : List.Forall₂ (Match.StandsFor g input root) founds parts) :
    founds.map Match.span = parts.map Constituent.span := by
  induction stand with
  | nil => rfl
  | cons stands _ ih => rw [List.map_cons, List.map_cons, stands.span_eq, ih]

theorem Passage.positive {production : Production} {origin pos index : Nat}
    {parts : List Constituent} {founds : List Match} {places : List (Nat × Nat)}
    (passage : Passage g input root production origin parts founds places pos index)
    (some_ : parts.map Constituent.span ≠ []) : 0 < production.arity := by
  have walks := passage.walks
  cases parts with
  | nil => exact absurd rfl some_
  | cons part rest =>
    cases walks with
    | cons at_ => exact (List.getElem?_eq_some_iff.1 at_).1

/-- What is packed for a constituent are reductions of it. -/
theorem Chart.Full.exists_isReduction (wired : g.Wired) (full : chart.Full g input root)
    {constituent : Constituent} {production : Production} {founds : List Match}
    (member : (production, founds) ∈ Packing.reductions g chart constituent) :
    ∃ parts, IsReduction g input root constituent production founds parts := by
  obtain ⟨p, completed, derived⟩ := List.mem_flatMap.1 member
  obtain ⟨entry, found, lhs⟩ :=
    Grammar.exists_prod_of_lhs (full.mem_completed_iff.1 completed).1
  rw [found] at derived
  obtain ⟨_, isWalk, eq⟩ := List.mem_map.1 derived
  cases eq
  obtain ⟨places, trail, nodup, -, keeps⟩ := (mem_derivations_iff wired found).1 isWalk
  rcases full.passage wired found trail nodup with ⟨parts, passage⟩ | ⟨rfl, here, -, kind⟩
  · have expands := Production.readsTo_arity_iff.1 (.inl passage.walks)
    have keepsSpans : ∀ span ∈ parts.map Constituent.span,
        Walk.keepsEmpty entry.production constituent.span = true ∨ span.isEmpty = false := by
      rw [← Match.map_span_eq passage.stand]
      intro span isSpan
      obtain ⟨child, isChild, rfl⟩ := List.mem_map.1 isSpan
      exact keeps child isChild
    rw [passage.places_eq] at nodup
    exact ⟨parts, ⟨p, entry, found, rfl⟩, lhs, expands, passage.stand, passage.tiles,
      Production.tight_of_keepsEmpty passage.tiles nodup passage.positive keepsSpans⟩
  · have tiles : Tiles constituent.span.start [] constituent.span.stop := here.symm
    exact ⟨[], ⟨p, entry, found, rfl⟩, lhs, .empty kind, .nil, tiles,
      Production.tight_of_keepsEmpty tiles (List.pairwise_singleton _ _)
        (fun some_ => absurd rfl some_) (fun _ member => absurd member List.not_mem_nil)⟩

/-- A trail that meets no place twice, and keeps what it may keep, is packed. -/
theorem Chart.Full.mem_reductions (wired : g.Wired) (full : chart.Full g input root)
    {constituent : Constituent} {founds : List Match} {places : List (Nat × Nat)}
    (found : g.prod? p = some entry) (lhs : entry.production.lhs = constituent.symbol)
    (trail : Trail chart p constituent.span.start founds places constituent.span.stop
      entry.production.arity)
    (reached : g.Reached input root
      ⟨constituent.span.stop, ⟨p, entry.production.arity⟩, constituent.span.start⟩)
    (nodup : places.Nodup)
    (short : places.length ≤
      (constituent.span.length + 1) * (entry.production.arity + 1) + 1)
    (keeps : ∀ child ∈ founds,
      Walk.keepsEmpty entry.production constituent.span = true ∨ child.span.isEmpty = false) :
    (entry.production, founds) ∈ Packing.reductions g chart constituent := by
  have completed : p ∈ chart.completed constituent := by
    refine full.mem_completed_iff.2 ⟨lhs ▸ Grammar.lhs_of_prod found, ?_⟩
    rwa [Dotted.complete, wired.slots_eq found]
  refine List.mem_flatMap.2 ⟨p, completed, ?_⟩
  rw [found]
  refine List.mem_map.2 ⟨founds, ?_, rfl⟩
  exact (mem_derivations_iff wired found).2 ⟨places, trail, nodup, short, keeps⟩

/-- A list that may hold nothing has a trail on which it is completed where it began. -/
theorem Chart.Full.exists_trail_empty (wired : g.Wired) (full : chart.Full g input root)
    (found : g.prod? p = some entry) (kind : entry.production.kind = .list .star) {start : Nat}
    (begun : g.Reached input root ⟨start, ⟨p, 0⟩, start⟩) :
    ∃ places, Trail chart p start [] places start entry.production.arity ∧ places.Nodup ∧
      places.length ≤ entry.production.arity + 1 ∧
      g.Reached input root ⟨start, ⟨p, entry.production.arity⟩, start⟩ := by
  rcases Nat.eq_zero_or_pos entry.production.arity with none_ | some_
  · rw [none_]
    exact ⟨_, .start, List.pairwise_singleton _ _, Nat.le_refl _, begun⟩
  have incomplete : Dotted.isComplete g (.ofStart p) = false := by
    rw [Bool.eq_false_iff]
    intro complete
    exact Nat.ne_of_lt some_ ((wired.isComplete_iff found).1 complete)
  have allows : Dotted.allowsEmpty g (.ofStart p) = true :=
    (Grammar.allowsEmpty_iff found).2 ⟨rfl, kind⟩
  have complete_eq : Dotted.complete g p = ⟨p, entry.production.arity⟩ := by
    rw [Dotted.complete, wired.slots_eq found]
  have linked : (⟨start, 0, none⟩ : Backlink) ∈
      chart.links ⟨start, ⟨p, entry.production.arity⟩, start⟩ := by
    refine full.mem_links_iff.2 ⟨begun, incomplete, allows, rfl, ?_⟩
    rw [complete_eq]
  have different : ((start, 0) : Nat × Nat) ≠ (start, entry.production.arity) := by
    intro same
    exact Nat.ne_of_lt some_ (Prod.mk.inj same).2
  refine ⟨_, .link .start linked, by simpa using different, ?_, ?_⟩
  · exact Nat.succ_le_succ some_
  · exact complete_eq ▸ begun.empty allows rfl

/-- Every tight way through a production of a constituent is packed. -/
theorem Chart.Full.exists_mem_reductions (wired : g.Wired) (full : chart.Full g input root)
    {constituent : Constituent} {parts : List Constituent}
    (called : g.Called input root ⟨constituent.symbol, constituent.span.start⟩)
    (found : g.prod? p = some entry) (lhs : entry.production.lhs = constituent.symbol)
    (expands : entry.production.Expands (parts.map Constituent.symbol))
    (covered : ∀ part ∈ parts, (part.symbol.isTerminal = false →
      g.Called input root ⟨part.symbol, part.span.start⟩) →
        g.Covered input root part.symbol part.span)
    (tiles : Tiles constituent.span.start (parts.map Constituent.span) constituent.span.stop)
    (tight : entry.production.Tight constituent.span (parts.map Constituent.span)) :
    ∃ founds, (entry.production, founds) ∈ Packing.reductions g chart constituent ∧
      List.Forall₂ (Match.StandsFor g input root) founds parts := by
  have begun := called.begun (wired.mem_prodsFor.2 ⟨entry, found, lhs⟩)
  have keeps := Production.keepsEmpty_of_tight tight
  rcases Production.expands_iff.1 expands with walks | ⟨kind, none_⟩
  · obtain ⟨founds, places, passage, trail, reached⟩ :=
      full.exists_passage wired found (.start _) .start begun walks covered tiles
    rw [List.nil_append] at passage
    have places_eq : places =
        entry.production.places (parts.map Constituent.span) constituent.span.stop :=
      passage.places_eq
    have short := Production.length_places_le tiles tight.nodup passage.positive
    rw [← places_eq] at short
    have stand := passage.stand
    refine ⟨founds, full.mem_reductions wired found lhs trail reached (places_eq ▸ tight.nodup)
      (Nat.le_succ_of_le short) ?_, stand⟩
    intro child isChild
    apply keeps
    rw [← Match.map_span_eq stand]
    exact List.mem_map.2 ⟨child, isChild, rfl⟩
  · obtain ⟨symbol, start, stop⟩ := constituent
    obtain rfl := List.map_eq_nil_iff.1 none_
    obtain rfl : start = stop := tiles
    obtain ⟨places, trail, nodup, short, reached⟩ :=
      full.exists_trail_empty wired found kind begun
    refine ⟨[], full.mem_reductions wired found lhs trail reached nodup ?_ ?_, .nil⟩
    · dsimp only [Span.length]
      rw [Nat.sub_self, Nat.zero_add, Nat.one_mul]
      exact Nat.le_succ_of_le short
    · exact fun child isChild => absurd isChild List.not_mem_nil

end Reductions

end Scannerless
