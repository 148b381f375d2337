import Scannerless.Proofs.EndOfInput
import Scannerless.Proofs.WellFormed

/-!
# The same rules in two grammars

Two grammars may define a symbol, and all that it refers to, by the same productions, and still
differ in everything else: the ids of their nodes and productions, which productions share a node,
the attributes, the start symbol, and the rules for all other symbols. `Grammar.Interchangeable` is
this situation.

Its productions come in pairs, the twins, and recognition goes through the same places of both:
`Reached.under` replays what one grammar reaches in the other, rule by rule. Since the situation is
symmetric, one direction is enough throughout.
-/

namespace Scannerless

/-! ## Productions up to attributes -/

/-- A production without its attributes. -/
def Production.plain (production : Production) : Production :=
  { production with attributes := {} }

/-- Productions that differ in nothing but their attributes. -/
structure Production.Alike (production other : Production) : Prop where
  label : production.label = other.label
  lhs : production.lhs = other.lhs
  rhs : production.rhs = other.rhs
  kind : production.kind = other.kind

theorem Production.alike_of_plain {production other : Production}
    (same : production.plain = other.plain) : production.Alike other := by
  unfold Production.plain at same
  rw [Production.mk.injEq] at same
  obtain ⟨label, lhs, rhs, -, kind⟩ := same
  exact ⟨label, lhs, rhs, kind⟩

namespace Production.Alike

variable {production other : Production}

theorem symm (alike : production.Alike other) : other.Alike production :=
  ⟨alike.label.symm, alike.lhs.symm, alike.rhs.symm, alike.kind.symm⟩

theorem arity (alike : production.Alike other) : production.arity = other.arity :=
  congrArg List.length alike.rhs

theorem separatorArity (alike : production.Alike other) :
    production.separatorArity = other.separatorArity := by
  unfold Production.separatorArity
  rw [alike.kind, alike.arity]

theorem next (alike : production.Alike other) (index : Nat) :
    production.next index = other.next index := by
  unfold Production.next
  rw [alike.kind, alike.arity]

end Production.Alike

/-- The same place of another production. -/
def Dotted.under (d : Dotted) (q : ProdId) : Dotted :=
  { d with prod := q }

/-- The item at the same place of another production. -/
def Item.under (item : Item) (q : ProdId) : Item :=
  { item with state := item.state.under q }

/-- A link without the node of its match. The ids of nodes differ between grammars, so it is up to
them only that links can be the same. -/
def Backlink.nameless (link : Backlink) : Backlink :=
  { link with matched := link.matched.map fun found => ⟨0, found.span⟩ }

namespace Grammar

/-- A production of one grammar and one of another, the same up to attributes. -/
def Twins (g other : Grammar) (p q : ProdId) : Prop :=
  ∃ entry twin, g.prod? p = some entry ∧ other.prod? q = some twin ∧
    entry.production.Alike twin.production

/-- The symbols that derivations of a symbol can need. -/
abbrev Needs (g : Grammar) (root symbol : Symbol) : Prop :=
  Relation.ReflTransGen g.Refers root symbol

/-- The productions that define a symbol, in order and without their attributes. -/
def definitions (g : Grammar) (symbol : Symbol) : List (Option Production) :=
  (g.prodsFor symbol).map fun p => (g.prod? p).map fun entry => entry.production.plain

/-- The grammars define a symbol, and all that it needs, by the same productions in the same order,
up to attributes. -/
def SameRules (g other : Grammar) (root : Symbol) : Prop :=
  ∀ symbol : Symbol, g.Needs root symbol → g.definitions symbol = other.definitions symbol

/-- Two grammars whose tables are right, with the same rules for a symbol and all that it needs. -/
structure Interchangeable (g other : Grammar) (root : Symbol) : Prop where
  wired : g.Wired
  wiredOther : other.Wired
  numbered : g.Numbered
  numberedOther : other.Numbered
  same : SameRules g other root

variable {g other : Grammar} {p q : ProdId} {input : Input} {root symbol : Symbol}

/-! ## Twins -/

theorem Twins.symm (twins : Twins g other p q) : Twins other g q p := by
  obtain ⟨entry, twin, found, foundTwin, alike⟩ := twins
  exact ⟨twin, entry, foundTwin, found, alike.symm⟩

theorem Twins.lhs (twins : Twins g other p q) : other.lhs? q = g.lhs? p := by
  obtain ⟨entry, twin, found, foundTwin, alike⟩ := twins
  rw [lhs_of_prod found, lhs_of_prod foundTwin, alike.lhs]

theorem exists_twin_of_mem {first second : List ProdId}
    (all : List.Forall₂ (Twins g other) first second) (member : p ∈ first) :
    ∃ q ∈ second, Twins g other p q := by
  induction all with
  | nil => cases member
  | cons here _ ih =>
    rcases List.mem_cons.1 member with rfl | later
    · exact ⟨_, List.mem_cons_self, here⟩
    · obtain ⟨q, inRest, twins⟩ := ih later
      exact ⟨q, List.mem_cons_of_mem _ inRest, twins⟩

/-- Lists with the same keys are related one by one, if values with the same key are. -/
theorem forall₂_of_map_eq {α β γ : Type} {related : α → β → Prop} {key : α → γ}
    {keyOther : β → γ} {first : List α} {second : List β}
    (same : first.map key = second.map keyOther)
    (each : ∀ value ∈ first, ∀ opposite ∈ second, key value = keyOther opposite →
      related value opposite) : List.Forall₂ related first second := by
  induction first generalizing second with
  | nil =>
    obtain rfl := List.map_eq_nil_iff.1 same.symm
    exact .nil
  | cons value rest ih =>
    obtain ⟨opposite, others, rfl, here, further⟩ := List.map_eq_cons_iff.1 same.symm
    refine .cons (each value List.mem_cons_self opposite List.mem_cons_self here.symm) ?_
    exact ih further.symm fun value member opposite memberToo =>
      each value (List.mem_cons_of_mem _ member) opposite (List.mem_cons_of_mem _ memberToo)

/-- Where the definitions of a symbol are the same, its productions are twins, one by one. -/
theorem twins_of_definitions (wired : g.Wired) (wiredOther : other.Wired)
    (same : g.definitions symbol = other.definitions symbol) :
    List.Forall₂ (Twins g other) (g.prodsFor symbol) (other.prodsFor symbol) := by
  refine forall₂_of_map_eq same fun p member q memberToo plain_eq => ?_
  obtain ⟨entry, found, -⟩ := wired.mem_prodsFor.1 member
  obtain ⟨twin, foundTwin, -⟩ := wiredOther.mem_prodsFor.1 memberToo
  rw [found, foundTwin] at plain_eq
  exact ⟨entry, twin, found, foundTwin, Production.alike_of_plain (Option.some.inj plain_eq)⟩

/-- What one of the grammars needs, the other needs too. -/
theorem SameRules.needs (same : SameRules g other root) (wired : g.Wired)
    (wiredOther : other.Wired) (needs : other.Needs root symbol) : g.Needs root symbol := by
  induction needs with
  | refl => exact .refl
  | tail _ refers ih =>
    obtain ⟨q, twin, foundTwin, rfl, part⟩ := refers
    have defines := wiredOther.mem_prodsFor.2 ⟨twin, foundTwin, rfl⟩
    obtain ⟨p, -, twinToo, entry, foundToo, found, alike⟩ :=
      exists_twin_of_mem (twins_of_definitions wiredOther wired (same _ ih).symm) defines
    rw [foundTwin] at foundToo
    cases foundToo
    exact ih.tail ⟨p, entry, found, alike.lhs.symm, alike.rhs ▸ part⟩

theorem Interchangeable.symm (pair : Interchangeable g other root) :
    Interchangeable other g root where
  wired := pair.wiredOther
  wiredOther := pair.wired
  numbered := pair.numberedOther
  numberedOther := pair.numbered
  same symbol needs :=
    (pair.same symbol (pair.same.needs pair.wired pair.wiredOther needs)).symm

/-- The productions of a symbol that is needed are twins, one by one. -/
theorem Interchangeable.prodsFor (pair : Interchangeable g other root)
    (needs : g.Needs root symbol) :
    List.Forall₂ (Twins g other) (g.prodsFor symbol) (other.prodsFor symbol) :=
  twins_of_definitions pair.wired pair.wiredOther (pair.same symbol needs)

/-- Every production that is needed has a twin. -/
theorem Interchangeable.exists_twin (pair : Interchangeable g other root)
    {entry : WiredProduction} (found : g.prod? p = some entry)
    (needs : g.Needs root entry.production.lhs) : ∃ q, Twins g other p q := by
  have defines := pair.wired.mem_prodsFor.2 ⟨entry, found, rfl⟩
  obtain ⟨q, -, twins⟩ := exists_twin_of_mem (pair.prodsFor needs) defines
  exact ⟨q, twins⟩

/-! ## Places of twins -/

section Places

variable {d state : Dotted} {node : StackNode}

theorem Twins.exists_next (pair : Interchangeable g other root) (twins : Twins g other d.prod q)
    (due : d.next? g = some node) :
    ∃ twin, (d.under q).next? other = some twin ∧ twin.symbol = node.symbol := by
  obtain ⟨entry, twin, found, foundTwin, alike⟩ := twins
  have at_ := (pair.wired.rhs_of_next found due).1
  rw [alike.rhs] at at_
  exact pair.wiredOther.exists_next foundTwin at_

theorem Twins.mem_advance (pair : Interchangeable g other root) (twins : Twins g other d.prod q)
    (due : d.next? g = some node) (advances : state ∈ d.advance g) :
    state.under q ∈ (d.under q).advance other := by
  obtain ⟨entry, twin, found, foundTwin, alike⟩ := twins
  have bound : d.index < entry.production.arity := pair.wired.bound_of_next found due
  have next := ((pair.wired.mem_advance found bound).1 advances).2
  rw [alike.next] at next
  rw [alike.arity] at bound
  exact (pair.wiredOther.mem_advance foundTwin bound).2 ⟨rfl, next⟩

theorem Twins.isComplete (pair : Interchangeable g other root) (twins : Twins g other d.prod q) :
    (d.under q).isComplete other = d.isComplete g := by
  obtain ⟨entry, twin, found, foundTwin, alike⟩ := twins
  have here : d.isComplete g = true ↔ d.index = entry.production.arity :=
    pair.wired.isComplete_iff found
  have there : (d.under q).isComplete other = true ↔ d.index = twin.production.arity :=
    pair.wiredOther.isComplete_iff foundTwin
  rw [Bool.eq_iff_iff, here, there, alike.arity]

theorem Twins.allowsEmpty (twins : Twins g other d.prod q) :
    (d.under q).allowsEmpty other = d.allowsEmpty g := by
  obtain ⟨entry, twin, found, foundTwin, alike⟩ := twins
  have here : d.allowsEmpty g = true ↔ d.index = 0 ∧ entry.production.kind = .list .star :=
    allowsEmpty_iff found
  have there : (d.under q).allowsEmpty other = true ↔
      d.index = 0 ∧ twin.production.kind = .list .star :=
    allowsEmpty_iff foundTwin
  rw [Bool.eq_iff_iff, here, there, alike.kind]

theorem Twins.complete (pair : Interchangeable g other root) (twins : Twins g other p q) :
    Dotted.complete other q = (Dotted.complete g p).under q := by
  obtain ⟨entry, twin, found, foundTwin, alike⟩ := twins
  unfold Dotted.complete Dotted.under
  rw [pair.wired.slots_eq found, pair.wiredOther.slots_eq foundTwin, alike.arity]

end Places

/-! ## What is reached -/

/-- Only productions of symbols that are needed are recognized. -/
theorem Reached.exists_needs (wired : g.Wired) {item : Item} (reached : g.Reached input root item) :
    ∃ entry, g.prod? item.state.prod = some entry ∧ g.Needs root entry.production.lhs := by
  induction reached with
  | start defines =>
    obtain ⟨entry, found, lhs⟩ := wired.mem_prodsFor.1 defines
    exact ⟨entry, found, lhs ▸ .refl⟩
  | predict _ due defines ih =>
    obtain ⟨entry, found, needs⟩ := ih
    obtain ⟨part, foundPart, lhs⟩ := wired.mem_prodsFor.1 defines
    have at_ := (wired.rhs_of_next found due).1
    have refers : g.Refers entry.production.lhs part.production.lhs :=
      ⟨_, entry, found, rfl, lhs ▸ List.mem_of_getElem? at_⟩
    exact ⟨part, foundPart, needs.tail refers⟩
  | scan _ _ _ advances ih =>
    rw [Dotted.prod_of_mem_advance advances]
    exact ih
  | complete _ _ _ _ _ _ advances ih _ =>
    rw [Dotted.prod_of_mem_advance advances]
    exact ih
  | empty _ _ _ ih => exact ih

theorem Interchangeable.exists_twin_of_reached (pair : Interchangeable g other root) {item : Item}
    (reached : g.Reached input root item) : ∃ q, Twins g other item.state.prod q := by
  obtain ⟨entry, found, needs⟩ := reached.exists_needs pair.wired
  exact pair.exists_twin found needs

/-- What is reached is reached with twins. The induction is on the rules: the production of an item
that is reached on the way has a twin, since it is needed. -/
theorem Reached.under (pair : Interchangeable g other root) {item : Item}
    (reached : g.Reached input root item) :
    ∀ {q : ProdId}, Twins g other item.state.prod q → other.Reached input root (item.under q) := by
  have defines : ∀ {p q : ProdId} {symbol : Symbol}, p ∈ g.prodsFor symbol →
      Twins g other p q → q ∈ other.prodsFor symbol := by
    intro p q symbol member twins
    obtain ⟨entry, found, lhs⟩ := pair.wired.mem_prodsFor.1 member
    have same := twins.lhs
    rw [lhs_of_prod found, lhs] at same
    exact pair.wiredOther.mem_prodsFor.2 (exists_prod_of_lhs same)
  induction reached with
  | start member => exact fun twins => .start (defines member twins)
  | predict reached due member ih =>
    intro q twins
    obtain ⟨caller, twinsCaller⟩ := pair.exists_twin_of_reached reached
    obtain ⟨node, dueOther, symbol_eq⟩ := twinsCaller.exists_next pair due
    rw [← symbol_eq] at member
    have arrives := Reached.predict (ih twinsCaller) dueOther (defines member twins)
    exact arrives
  | scan _ due scanned advances ih =>
    intro q twins
    rw [Dotted.prod_of_mem_advance advances] at twins
    obtain ⟨node, dueOther, symbol_eq⟩ := twins.exists_next pair due
    rw [← symbol_eq] at scanned
    have arrives := Reached.scan (ih twins) dueOther scanned (twins.mem_advance pair due advances)
    exact arrives
  | complete _ due part complete lhs origin advances ih ihPart =>
    intro q twins
    rw [Dotted.prod_of_mem_advance advances] at twins
    obtain ⟨node, dueOther, symbol_eq⟩ := twins.exists_next pair due
    obtain ⟨partTwin, twinsPart⟩ := pair.exists_twin_of_reached part
    rw [← symbol_eq, ← twinsPart.lhs] at lhs
    rw [← twinsPart.isComplete pair] at complete
    have arrives := Reached.complete (ih twins) dueOther (ihPart twinsPart) complete lhs origin
      (twins.mem_advance pair due advances)
    exact arrives
  | @empty item _ allows here ih =>
    intro q (twins : Twins g other item.state.prod q)
    rw [← twins.allowsEmpty] at allows
    have arrives : other.Reached input root ⟨item.pos, .complete other q, item.origin⟩ :=
      .empty (ih twins) allows here
    rw [twins.complete pair] at arrives
    exact arrives

theorem Completed.under (pair : Interchangeable g other root) {constituent : Constituent}
    (completed : g.Completed input root p constituent) (twins : Twins g other p q) :
    other.Completed input root q constituent := by
  obtain ⟨lhs, reached⟩ := completed
  refine ⟨twins.lhs.trans lhs, ?_⟩
  rw [twins.complete pair]
  exact reached.under pair twins

theorem Interchangeable.exists_completed (pair : Interchangeable g other root)
    {constituent : Constituent} (completed : g.Completed input root p constituent) :
    ∃ q, other.Completed input root q constituent := by
  obtain ⟨q, twins⟩ := pair.exists_twin_of_reached completed.2
  exact ⟨q, completed.under pair twins⟩

theorem Covered.under (pair : Interchangeable g other root) {span : Span}
    (covered : g.Covered input root symbol span) : other.Covered input root symbol span := by
  rcases covered with scanned | ⟨p, completed⟩
  · exact .inl scanned
  · exact .inr (pair.exists_completed completed)

/-! ## Links -/

theorem Linked.under (pair : Interchangeable g other root) {item : Item} {link : Backlink}
    (linked : g.Linked input root item link) (twins : Twins g other item.state.prod q) :
    ∃ opposite, other.Linked input root (item.under q) opposite ∧
      opposite.nameless = link.nameless := by
  obtain ⟨prevPos, prevIndex, matched⟩ := link
  obtain ⟨reached, by_⟩ := linked
  dsimp only at reached by_
  have before := reached.under pair twins
  have twinsBefore : Twins g other (Dotted.mk item.state.prod prevIndex).prod q := twins
  cases matched with
  | none =>
    obtain ⟨incomplete, allows, here, eq⟩ := by_
    rw [← twinsBefore.isComplete pair] at incomplete
    rw [← twinsBefore.allowsEmpty] at allows
    refine ⟨⟨prevPos, prevIndex, none⟩, ⟨before, incomplete, allows, here, ?_⟩, rfl⟩
    have place : Dotted.complete other (item.state.under q).prod =
      (Dotted.complete g item.state.prod).under q := twins.complete pair
    have arrives := congrArg (Item.under · q) eq
    dsimp only [Item.under] at arrives ⊢
    rw [arrives, place]
  | some found =>
    obtain ⟨node, due, id_eq, span_eq, covered, advances⟩ := by_
    obtain ⟨twin, dueOther, symbol_eq⟩ := twinsBefore.exists_next pair due
    rw [← symbol_eq] at covered
    exact ⟨⟨prevPos, prevIndex, some ⟨twin.id, found.span⟩⟩, ⟨before, twin, dueOther, rfl,
      span_eq, covered.under pair, twinsBefore.mem_advance pair due advances⟩, rfl⟩

/-- Links to an item are told apart without the nodes of their matches. -/
theorem Linked.nameless_lt {item : Item} {link further : Backlink}
    (linked : g.Linked input root item link) (linkedToo : g.Linked input root item further)
    (less : compare link further = .lt) : compare link.nameless further.nameless = .lt := by
  obtain ⟨prevPos, prevIndex, matched⟩ := link
  obtain ⟨otherPos, otherIndex, otherMatched⟩ := further
  have split : ∀ {first second : Option Match},
      compare (Backlink.mk prevPos prevIndex first) ⟨otherPos, otherIndex, second⟩ =
        (compare prevPos otherPos).then
          ((compare prevIndex otherIndex).then (compare first second)) := rfl
  unfold Backlink.nameless
  rw [split, Ordering.then_eq_lt, Ordering.then_eq_lt] at less
  rw [split, Ordering.then_eq_lt, Ordering.then_eq_lt]
  rcases less with before | ⟨samePos, before | ⟨sameIndex, less⟩⟩
  · exact .inl before
  · exact .inr ⟨samePos, .inl before⟩
  refine .inr ⟨samePos, .inr ⟨sameIndex, ?_⟩⟩
  obtain rfl := Std.LawfulEqOrd.eq_of_compare samePos
  obtain rfl := Std.LawfulEqOrd.eq_of_compare sameIndex
  cases matched with
  | none =>
    cases otherMatched with
    | none => exact less
    | some found => rfl
  | some found =>
    cases otherMatched with
    | none => cases less
    | some foundToo =>
      -- The place tells the node, and the offsets tell the span.
      obtain ⟨-, node, due, id_eq, span_eq, -⟩ := linked
      obtain ⟨-, nodeToo, dueToo, id_eqToo, span_eqToo, -⟩ := linkedToo
      obtain rfl : node = nodeToo := Option.some.inj (due.symm.trans dueToo)
      have same : found = foundToo := by
        cases found
        cases foundToo
        rw [Match.mk.injEq]
        exact ⟨id_eq.trans id_eqToo.symm, span_eq.trans span_eqToo.symm⟩
      rw [same, Std.ReflOrd.compare_self] at less
      cases less

/-- Matches of the same symbol over the same span, each by a node of its own grammar. -/
def Counterparts (g other : Grammar) (root : Symbol) (found opposite : Match) : Prop :=
  found.span = opposite.span ∧ ∃ node twin, g.node? found.node = some node ∧
    other.node? opposite.node = some twin ∧ twin.symbol = node.symbol ∧ g.Needs root node.symbol

/-- Links that lead from the same place, with matches that are counterparts. -/
structure Parallel (g other : Grammar) (root : Symbol) (link opposite : Backlink) : Prop where
  prevPos : link.prevPos = opposite.prevPos
  prevIndex : link.prevIndex = opposite.prevIndex
  matched : Option.Rel (Counterparts g other root) link.matched opposite.matched

/-- The nodes that are due at the same place of twins make counterparts of matches over a span. -/
theorem Twins.counterparts (pair : Interchangeable g other root) {d : Dotted}
    (twins : Twins g other d.prod q) {entry : WiredProduction}
    (found : g.prod? d.prod = some entry) (needs : g.Needs root entry.production.lhs)
    {node twin : StackNode} (due : d.next? g = some node)
    (dueOther : (d.under q).next? other = some twin) (span : Span) :
    Counterparts g other root ⟨node.id, span⟩ ⟨twin.id, span⟩ := by
  obtain ⟨nodeOther, dueToo, symbol_eq⟩ := twins.exists_next pair due
  obtain rfl : nodeOther = twin := Option.some.inj (dueToo.symm.trans dueOther)
  obtain ⟨_, _, _, foundTwin, _⟩ := twins
  obtain ⟨at_, -, isNode⟩ := pair.wired.rhs_of_next found due
  have isTwin := (pair.wiredOther.rhs_of_next foundTwin dueOther).2.2
  have refers : g.Refers entry.production.lhs node.symbol :=
    ⟨_, entry, found, rfl, List.mem_of_getElem? at_⟩
  exact ⟨rfl, node, nodeOther, isNode, isTwin, symbol_eq, needs.tail refers⟩

theorem Linked.parallel (pair : Interchangeable g other root) {item : Item}
    {link opposite : Backlink} (linked : g.Linked input root item link)
    (linkedOther : other.Linked input root (item.under q) opposite)
    (twins : Twins g other item.state.prod q) (same : link.nameless = opposite.nameless) :
    Parallel g other root link opposite := by
  obtain ⟨prevPos, prevIndex, matched⟩ := link
  obtain ⟨otherPos, otherIndex, otherMatched⟩ := opposite
  unfold Backlink.nameless at same
  rw [Backlink.mk.injEq] at same
  obtain ⟨rfl, rfl, same⟩ := same
  refine ⟨rfl, rfl, ?_⟩
  cases matched with
  | none =>
    cases otherMatched with
    | none => exact .none
    | some found => cases same
  | some found =>
    cases otherMatched with
    | none => cases same
    | some foundOther =>
      obtain ⟨id, span⟩ := found
      obtain ⟨idOther, spanOther⟩ := foundOther
      obtain rfl : span = spanOther := by simpa using same
      obtain ⟨reached, node, due, id_eq, -⟩ := linked
      obtain ⟨-, twin, dueOther, id_eqOther, -⟩ := linkedOther
      dsimp only at id_eq id_eqOther
      rw [id_eq, id_eqOther]
      obtain ⟨entry, isEntry, needs⟩ := reached.exists_needs pair.wired
      have twinsBefore : Twins g other (Dotted.mk item.state.prod prevIndex).prod q := twins
      exact .some (twinsBefore.counterparts pair isEntry needs due dueOther span)

end Grammar

end Scannerless
