import Scannerless.Proofs.Outlines
import Scannerless.Proofs.SameRules

/-!
# Wiring is not observable

Two grammars with the same rules for a symbol, and for all that it needs, parse every text as that
symbol with the same result. Their charts are not the same, since items and links name productions
and nodes by ids; but what they list, they list in the same order, since productions are numbered in
the order in which they define a symbol and no two links to an item differ by a node alone. So the
walks through a pair of twins come in the same order, and a forest is packed in the same steps.
-/

namespace Scannerless

namespace Grammar

variable {g other : Grammar} {p q : ProdId} {input : Input} {root symbol : Symbol}
  {chart chartOther : Chart}

/-! ## What the charts list -/

theorem ascending_nameless (full : chart.Full g input root) (item : Item) :
    Ascending ((chart.links item).map Backlink.nameless) := by
  refine List.pairwise_map.2 (List.Pairwise.imp_of_mem ?_ (chart.ascending_links item))
  intro link further member memberToo less
  exact (full.mem_links_iff.1 member).nameless_lt (full.mem_links_iff.1 memberToo) less

/-- The links to the items of twins are parallel, one by one. -/
theorem Interchangeable.links (pair : Interchangeable g other root)
    (full : chart.Full g input root) (fullOther : chartOther.Full other input root) {item : Item}
    (twins : Twins g other item.state.prod q) :
    List.Forall₂ (Parallel g other root) (chart.links item) (chartOther.links (item.under q)) := by
  have same : (chart.links item).map Backlink.nameless =
      (chartOther.links (item.under q)).map Backlink.nameless := by
    apply (ascending_nameless full item).eq_of_mem_iff (ascending_nameless fullOther _)
    intro link
    rw [List.mem_map, List.mem_map]
    constructor
    · rintro ⟨link, member, rfl⟩
      obtain ⟨opposite, linked, eq⟩ := (full.mem_links_iff.1 member).under pair twins
      exact ⟨opposite, fullOther.mem_links_iff.2 linked, eq⟩
    · rintro ⟨opposite, member, rfl⟩
      have twinsBack : Twins other g (item.under q).state.prod item.state.prod := twins.symm
      obtain ⟨link, linked, eq⟩ := (fullOther.mem_links_iff.1 member).under pair.symm twinsBack
      exact ⟨link, full.mem_links_iff.2 linked, eq⟩
  refine forall₂_of_map_eq same fun link member opposite memberToo eq => ?_
  exact (full.mem_links_iff.1 member).parallel pair (fullOther.mem_links_iff.1 memberToo) twins eq

/-- The completed productions of a constituent are listed in the order in which its symbol is
defined. -/
theorem completed_eq_filter (wired : g.Wired) (numbered : g.Numbered)
    (full : chart.Full g input root) (constituent : Constituent) :
    chart.completed constituent = (g.prodsFor constituent.symbol).filter
      (· ∈ chart.completed constituent) := by
  apply (chart.ascending_completed constituent).eq_of_mem_iff
    ((numbered.ascending constituent.symbol).filter _)
  intro p
  rw [List.mem_filter, decide_eq_true_eq, iff_and_self]
  intro member
  exact wired.mem_prodsFor.2 (exists_prod_of_lhs (full.mem_completed_iff.1 member).1)

/-- The completed productions of a constituent that may be needed are twins, one by one. -/
theorem Interchangeable.completed (pair : Interchangeable g other root)
    (full : chart.Full g input root) (fullOther : chartOther.Full other input root)
    {constituent : Constituent} (needs : g.Needs root constituent.symbol) :
    List.Forall₂ (Twins g other) (chart.completed constituent)
      (chartOther.completed constituent) := by
  rw [completed_eq_filter pair.wired pair.numbered full,
    completed_eq_filter pair.wiredOther pair.numberedOther fullOther]
  refine List.rel_filter ?_ (pair.prodsFor needs)
  intro p q twins
  dsimp only
  rw [decide_eq_true_eq, decide_eq_true_eq, full.mem_completed_iff, fullOther.mem_completed_iff]
  exact ⟨fun completed => completed.under pair twins,
    fun completed => completed.under pair.symm twins.symm⟩

/-! ## Walks -/

/-- Of parallel links, both are kept or none is. -/
theorem Parallel.keeps {link opposite : Backlink} (parallel : Parallel g other root link opposite)
    (keepEmpty : Bool) : Walk.keeps keepEmpty link = Walk.keeps keepEmpty opposite := by
  obtain ⟨prevPos, prevIndex, matched⟩ := link
  obtain ⟨otherPos, otherIndex, matchedOther⟩ := opposite
  have counterparts : Option.Rel (Counterparts g other root) matched matchedOther :=
    parallel.matched
  unfold Walk.keeps
  cases counterparts with
  | none => rfl
  | some counterparts =>
    dsimp only
    rw [counterparts.1]

theorem Parallel.toList {link opposite : Backlink}
    (parallel : Parallel g other root link opposite) :
    List.Forall₂ (Counterparts g other root) link.matched.toList opposite.matched.toList := by
  obtain ⟨prevPos, prevIndex, matched⟩ := link
  obtain ⟨otherPos, otherIndex, matchedOther⟩ := opposite
  have counterparts : Option.Rel (Counterparts g other root) matched matchedOther :=
    parallel.matched
  cases counterparts with
  | none => exact .nil
  | some counterparts => exact .cons counterparts .nil

/-- The walks that end in the items of twins have counterparts as children. -/
theorem Interchangeable.endingIn (pair : Interchangeable g other root)
    (full : chart.Full g input root) (fullOther : chartOther.Full other input root)
    (twins : Twins g other p q) (origin : Nat) (keepEmpty : Bool) (steps : Nat) :
    ∀ {pos index : Nat} {visited : List (Nat × Nat)} {after afterOther : List Match},
      List.Forall₂ (Counterparts g other root) after afterOther →
        List.Forall₂ (List.Forall₂ (Counterparts g other root))
          (Walk.endingIn chart p origin keepEmpty steps pos index visited after)
          (Walk.endingIn chartOther q origin keepEmpty steps pos index visited afterOther) := by
  induction steps with
  | zero => exact fun _ => .nil
  | succ steps ih =>
    intro pos index visited after afterOther rest
    unfold Walk.endingIn
    split
    · exact .nil
    split
    · exact .cons rest .nil
    have twinsHere : Twins g other (Item.mk pos ⟨p, index⟩ origin).state.prod q := twins
    refine List.rel_flatMap (List.rel_filter ?_ (pair.links full fullOther twinsHere)) ?_
    · intro link opposite parallel
      dsimp only
      rw [parallel.keeps]
    · intro link opposite parallel
      dsimp only
      rw [parallel.prevPos, parallel.prevIndex]
      exact ih (List.rel_append parallel.toList rest)

/-- The ways to complete twins over a span have counterparts as children. -/
theorem Interchangeable.derivations (pair : Interchangeable g other root)
    (full : chart.Full g input root) (fullOther : chartOther.Full other input root)
    (twins : Twins g other p q) (span : Span) :
    List.Forall₂ (List.Forall₂ (Counterparts g other root))
      (chart.derivations g p span) (chartOther.derivations other q span) := by
  have walks := pair.endingIn full fullOther twins span.start
  obtain ⟨entry, twin, found, foundTwin, alike⟩ := twins
  have keepsEmpty : Walk.keepsEmpty entry.production span =
      Walk.keepsEmpty twin.production span := by
    unfold Walk.keepsEmpty
    rw [alike.kind, alike.separatorArity]
  unfold Chart.derivations
  rw [found, foundTwin]
  dsimp only
  rw [pair.wired.slots_eq found, pair.wiredOther.slots_eq foundTwin, alike.arity, keepsEmpty]
  exact walks _ _ .nil

/-- Reductions by productions that are the same up to attributes, with counterparts as
children. -/
structure SameReduction (g other : Grammar) (root : Symbol)
    (reduction opposite : Production × List Match) : Prop where
  alike : reduction.1.Alike opposite.1
  children : List.Forall₂ (Counterparts g other root) reduction.2 opposite.2

theorem Interchangeable.reductions (pair : Interchangeable g other root)
    (full : chart.Full g input root) (fullOther : chartOther.Full other input root)
    {constituent : Constituent} (needs : g.Needs root constituent.symbol) :
    List.Forall₂ (SameReduction g other root) (Packing.reductions g chart constituent)
      (Packing.reductions other chartOther constituent) := by
  rw [Packing.reductions_eq, Packing.reductions_eq]
  refine List.rel_flatMap (pair.completed full fullOther needs) ?_
  intro p q twins
  have derivations := pair.derivations full fullOther twins constituent.span
  obtain ⟨entry, twin, found, foundTwin, alike⟩ := twins
  unfold Packing.reductionsBy
  rw [found, foundTwin]
  refine List.rel_map ?_ derivations
  exact fun _ _ children => ⟨alike, children⟩

/-! ## Packing -/

/-- Two ways of packing agree on all constituents that may be needed. -/
def PacksAlike (g : Grammar) (root : Symbol) (pack packOther : Packing.Pack) : Prop :=
  ∀ (constituent : Constituent) (packing : Packing), g.Needs root constituent.symbol →
    pack constituent packing = packOther constituent packing

section Packing

variable {pack packOther : Packing.Pack}

theorem Counterparts.childNode {child childOther : Match}
    (counterparts : Counterparts g other root child childOther)
    (alike : PacksAlike g root pack packOther) (packing : Packing) :
    Packing.childNode g input pack child packing =
      Packing.childNode other input packOther childOther packing := by
  obtain ⟨span_eq, node, twin, isNode, isTwin, symbol_eq, needs⟩ := counterparts
  unfold Packing.childNode StackNode.isTerminal
  rw [isNode, isTwin]
  dsimp only
  rw [symbol_eq, span_eq, alike _ _ needs]

theorem childNodes_eq (alike : PacksAlike g root pack packOther) {children others : List Match}
    (counterparts : List.Forall₂ (Counterparts g other root) children others) :
    ∀ packing : Packing, Packing.childNodes g input pack children packing =
      Packing.childNodes other input packOther others packing := by
  induction counterparts with
  | nil => exact fun _ => rfl
  | cons first _ ih =>
    intro packing
    unfold Packing.childNodes
    simp only [first.childNode alike, ih]

theorem SameReduction.reduce {reduction opposite : Production × List Match}
    (same : SameReduction g other root reduction opposite)
    (alike : PacksAlike g root pack packOther) (span : Span) (packing : Packing) :
    Packing.reduce g input pack span reduction.1 reduction.2 packing =
      Packing.reduce other input packOther span opposite.1 opposite.2 packing := by
  have reductionNode : Packing.reductionNode reduction.1 = Packing.reductionNode opposite.1 := by
    unfold Packing.reductionNode Production.isList
    rw [same.alike.kind, same.alike.label, same.alike.lhs, same.alike.separatorArity]
  unfold Packing.reduce
  rw [childNodes_eq alike same.children, reductionNode]

theorem reduceAll_eq (alike : PacksAlike g root pack packOther) (span : Span)
    {reductions others : List (Production × List Match)}
    (same : List.Forall₂ (SameReduction g other root) reductions others) :
    ∀ packing : Packing, Packing.reduceAll g input pack span reductions packing =
      Packing.reduceAll other input packOther span others packing := by
  induction same with
  | nil => exact fun _ => rfl
  | cons first _ ih =>
    intro packing
    unfold Packing.reduceAll
    simp only [first.reduce alike, ih]

end Packing

/-- The same constituents are packed in the same steps. -/
theorem Interchangeable.packWithin (pair : Interchangeable g other root)
    (full : chart.Full g input root) (fullOther : chartOther.Full other input root) (limit : Nat) :
    PacksAlike g root (Packing.packWithin g input chart limit)
      (Packing.packWithin other input chartOther limit) := by
  induction limit with
  | zero => exact fun _ _ _ => rfl
  | succ limit ih =>
    intro constituent packing needs
    unfold Packing.packWithin
    rw [reduceAll_eq ih constituent.span (pair.reductions full fullOther needs)]

end Grammar

/-! ## The tables as a whole -/

/-- Every constituent that is put down has been completed by some production. -/
def Chart.Substantial (chart : Chart) : Prop :=
  ∀ constituent : Constituent, chart.completions.contains constituent = true →
    ∃ p, p ∈ chart.completed constituent

theorem Chart.keeps_substantial : Chart.Keeps Chart.Substantial where
  addItem _ _ substantial := substantial
  setCall _ _ substantial := substantial
  addCompletion := by
    intro chart constituent p substantial asked known
    have cases_ : asked = constituent ∨ chart.completions.contains asked = true := by
      unfold Chart.addCompletion at known
      rw [Std.TreeMap.contains_insert, Bool.or_eq_true, beq_iff_eq] at known
      exact known.imp_left fun same => (Std.LawfulEqOrd.eq_of_compare same).symm
    rcases cases_ with rfl | old
    · exact ⟨p, Chart.mem_completed_addCompletion.2 (.inr ⟨rfl, rfl⟩)⟩
    · obtain ⟨q, member⟩ := substantial asked old
      exact ⟨q, Chart.mem_completed_addCompletion.2 (.inl member)⟩

theorem Chart.substantial_recognize (g : Grammar) (input : Input) (root : Symbol) :
    (g.recognize input root).value.Substantial :=
  keeps_substantial.recognize (fun constituent known => by simp at known) root

namespace Grammar

variable {g other : Grammar} {input : Input} {root : Symbol} {chart chartOther : Chart}

theorem mem_completions_iff (full : chart.Full g input root) (substantial : chart.Substantial)
    {constituent : Constituent} :
    constituent ∈ chart.completions.keys ↔ ∃ p, g.Completed input root p constituent := by
  rw [Std.TreeMap.mem_keys, Std.TreeMap.mem_iff_contains]
  constructor
  · intro known
    obtain ⟨p, member⟩ := substantial constituent known
    exact ⟨p, full.mem_completed_iff.1 member⟩
  · rintro ⟨p, completed⟩
    obtain ⟨prods, known, -⟩ := Chart.mem_completed_iff.1 (full.mem_completed_iff.2 completed)
    rw [Std.TreeMap.contains_eq_isSome_getElem?, known]
    rfl

/-- As many constituents are completed in both grammars. -/
theorem Interchangeable.size_completions (pair : Interchangeable g other root) (input : Input) :
    (g.recognize input root).value.completions.size =
      (other.recognize input root).value.completions.size := by
  have full := pair.wired.full_recognize input root
  have fullOther := pair.wiredOther.full_recognize input root
  have substantial := Chart.substantial_recognize g input root
  have substantialOther := Chart.substantial_recognize other input root
  have keys : (g.recognize input root).value.completions.keys =
      (other.recognize input root).value.completions.keys := by
    have ascending : ∀ chart : Chart, Ascending chart.completions.keys :=
      fun chart => Std.TreeMap.ordered_keys
    apply (ascending _).eq_of_mem_iff (ascending _)
    intro constituent
    rw [mem_completions_iff full substantial, mem_completions_iff fullOther substantialOther]
    exact ⟨fun ⟨p, completed⟩ => pair.exists_completed completed,
      fun ⟨q, completed⟩ => pair.symm.exists_completed completed⟩
  rw [← Std.TreeMap.length_keys, keys, Std.TreeMap.length_keys]

/-- An item of one chart has a twin in the other. -/
theorem Interchangeable.hasItem (pair : Interchangeable g other root)
    (full : chart.Full g input root) (fullOther : chartOther.Full other input root) {item : Item}
    (has : chart.hasItem item = true) :
    ∃ q, Twins g other item.state.prod q ∧ chartOther.hasItem (item.under q) = true := by
  have reached := full.hasItem_iff.1 has
  obtain ⟨q, twins⟩ := pair.exists_twin_of_reached reached
  exact ⟨q, twins, fullOther.hasItem_iff.2 (reached.under pair twins)⟩

theorem Interchangeable.furthest_le (pair : Interchangeable g other root) (input : Input) :
    (g.recognize input root).value.furthest ≤ (other.recognize input root).value.furthest := by
  have full := pair.wired.full_recognize input root
  have fullOther := pair.wiredOther.full_recognize input root
  rcases (Chart.marked_recognize g input root).attained with start | ⟨item, has, pos_eq⟩
  · rw [start]
    exact Nat.zero_le _
  · obtain ⟨q, -, hasOther⟩ := pair.hasItem full fullOther has
    have bound : (item.under q).pos ≤ _ := (Chart.marked_recognize other input root).le hasOther
    rw [← pos_eq]
    exact bound

theorem Interchangeable.furthest (pair : Interchangeable g other root) (input : Input) :
    (g.recognize input root).value.furthest = (other.recognize input root).value.furthest :=
  Nat.le_antisymm (pair.furthest_le input) (pair.symm.furthest_le input)

theorem Interchangeable.awaited (pair : Interchangeable g other root)
    (full : chart.Full g input root) (fullOther : chartOther.Full other input root)
    {symbol : Symbol} {offset : Nat} (awaited : symbol ∈ chart.expectedAt g offset) :
    symbol ∈ chartOther.expectedAt other offset := by
  obtain ⟨terminal, item, node, has, pos_eq, due, rfl⟩ := Chart.mem_expectedAt_iff.1 awaited
  obtain ⟨q, twins, hasOther⟩ := pair.hasItem full fullOther has
  obtain ⟨twin, dueOther, symbol_eq⟩ := twins.exists_next pair due
  exact Chart.mem_expectedAt_iff.2
    ⟨terminal, item.under q, twin, hasOther, pos_eq, dueOther, symbol_eq⟩

/-- Both charts give the same rejection. -/
theorem Interchangeable.rejection (pair : Interchangeable g other root) (input : Input) :
    (g.recognize input root).value.rejection g root =
      (other.recognize input root).value.rejection other root := by
  have full := pair.wired.full_recognize input root
  have fullOther := pair.wiredOther.full_recognize input root
  have expected : ∀ offset : Nat, (g.recognize input root).value.expectedAt g offset =
      (other.recognize input root).value.expectedAt other offset := by
    intro offset
    apply (Chart.ascending_expectedAt _ _ _).eq_of_mem_iff (Chart.ascending_expectedAt _ _ _)
    exact fun symbol => ⟨pair.awaited full fullOther, pair.symm.awaited fullOther full⟩
  unfold Chart.rejection
  rw [pair.furthest, expected]

theorem Interchangeable.accepts (pair : Interchangeable g other root) (input : Input)
    (length : Nat) : (g.recognize input root).value.accepts root length =
      (other.recognize input root).value.accepts root length := by
  have full := pair.wired.full_recognize input root
  have fullOther := pair.wiredOther.full_recognize input root
  unfold Chart.accepts
  rw [Bool.eq_iff_iff, ← Std.TreeSet.mem_iff_contains, ← Std.TreeSet.mem_iff_contains,
    full.mem_results_iff, fullOther.mem_results_iff]
  exact ⟨fun ⟨p, completed⟩ => pair.exists_completed completed,
    fun ⟨q, completed⟩ => pair.symm.exists_completed completed⟩

theorem Interchangeable.isDefined (pair : Interchangeable g other root)
    (defined : g.isDefined root = true) : other.isDefined root = true := by
  obtain ⟨p, entry, found, lhs⟩ := pair.wired.isDefined_iff.1 defined
  obtain ⟨q, twins⟩ := pair.exists_twin found (lhs ▸ .refl)
  have same := twins.lhs
  rw [lhs_of_prod found, lhs] at same
  obtain ⟨twin, foundTwin, lhsTwin⟩ := exists_prod_of_lhs same
  exact pair.wiredOther.isDefined_iff.2 ⟨q, twin, foundTwin, lhsTwin⟩

/-- The forest of the symbol is packed in the same steps. -/
theorem Interchangeable.pack (pair : Interchangeable g other root) (input : Input) (span : Span) :
    Packing.pack g input (g.recognize input root).value ⟨root, span⟩ {} =
      Packing.pack other input (other.recognize input root).value ⟨root, span⟩ {} := by
  have full := pair.wired.full_recognize input root
  have fullOther := pair.wiredOther.full_recognize input root
  have defined : g.isDefined root = other.isDefined root :=
    Bool.eq_iff_iff.2 ⟨pair.isDefined, pair.symm.isDefined⟩
  unfold Packing.pack
  dsimp only
  rw [defined, pair.size_completions, pair.packWithin full fullOther _ _ _ .refl]

theorem Interchangeable.parseSymbol (pair : Interchangeable g other root) (policy : OnAmbiguity)
    (text : String) :
    (g.parseSymbol policy root text).value = (other.parseSymbol policy root text).value := by
  have accepts_eq := pair.accepts (Input.ofString text) (Input.ofString text).length
  cases accepts : (g.recognize (Input.ofString text) root).value.accepts root
      (Input.ofString text).length with
  | false =>
    rw [parseSymbol_of_rejected accepts, parseSymbol_of_rejected (accepts_eq.symm.trans accepts),
      pair.rejection]
  | true =>
    rw [parseSymbol_eq_forestOf accepts, parseSymbol_eq_forestOf (accepts_eq.symm.trans accepts)]
    unfold forestOf
    rw [pair.pack, pair.rejection]

/-- What a grammar parses as a symbol depends on nothing but the productions of that symbol and of
all symbols that it needs, in their order and without their attributes. Neither the ids of nodes nor
which productions share them can be told from the result, nor the start symbol, nor any rule for
another symbol. -/
theorem parseSymbol_eq_of_sameRules {start startOther : Symbol}
    {script scriptOther : List Declaration} {g other : Grammar}
    (built : (Grammar.ofScript start script).value = .ok g)
    (builtOther : (Grammar.ofScript startOther scriptOther).value = .ok other) {symbol : Symbol}
    (same : g.SameRules other symbol) (policy : OnAmbiguity) (text : String) :
    (g.parseSymbol policy symbol text).value = (other.parseSymbol policy symbol text).value := by
  have pair : Interchangeable g other symbol :=
    { wired := .of_script built
      wiredOther := .of_script builtOther
      numbered := .of_script built
      numberedOther := .of_script builtOther
      same }
  exact pair.parseSymbol policy text

/-- The rules are the same if they are the same for the symbols of a set that refer to no others. -/
theorem sameRules_of_closed {symbols : List Symbol} (rooted : root ∈ symbols)
    (closed : ∀ p ∈ g.prodIds, ∀ entry, g.prod? p = some entry → entry.production.lhs ∈ symbols →
      ∀ part ∈ entry.production.rhs, part ∈ symbols)
    (each : ∀ symbol ∈ symbols, g.definitions symbol = other.definitions symbol) :
    g.SameRules other root := by
  intro symbol needs
  refine each symbol ?_
  induction needs with
  | refl => exact rooted
  | tail _ refers ih =>
    obtain ⟨p, entry, found, rfl, part⟩ := refers
    have inGrammar : p ∈ g.prodIds := List.mem_range.2 (Array.getElem?_eq_some_iff.1 found).1
    exact closed p inGrammar entry found ih _ part

end Grammar

/-- The rules of the ambiguous grammar `S ::= A | B`, `A ::= "a"` and `B ::= "a"` once more, below
another start symbol: in another order, with attributes, and with one node for both literals. -/
def Example.ambiguousByHand : List Declaration :=
  [.literal 7 "a", .nonTerminal 5 "A", .nonTerminal 3 "B",
    .rule (.nonTerminal "T") [.sequence "T" [.nonTerminal "S", .literal "x"] []],
    .wired { label := "B", lhs := .nonTerminal "B", rhs := [.literal "a"] } [7],
    .wired
      { label := "ViaA"
        lhs := .nonTerminal "S"
        rhs := [.nonTerminal "A"]
        attributes := { bracket := true } }
      [5],
    .wired
      { label := "A"
        lhs := .nonTerminal "A"
        rhs := [.literal "a"]
        attributes := { lexical := true } }
      [7],
    .wired { label := "ViaB", lhs := .nonTerminal "S", rhs := [.nonTerminal "B"] } [3]]

namespace Grammar

/-- `S ::= A | B`, `A ::= "a"` and `B ::= "a"`: wired by hand and below another start symbol, they
give the text `a` the same ambiguous forest. -/
theorem parseSymbol_eq_of_sameRules_ambiguous : ∃ (g other : Grammar) (root : Node),
    (Grammar.ofScript (.nonTerminal "S") Example.ambiguous).value = .ok g ∧
    (Grammar.ofScript (.nonTerminal "T") Example.ambiguousByHand).value = .ok other ∧
    g.SameRules other (.nonTerminal "S") ∧ root.isAmbiguous = true ∧
    (g.parseSymbol .keep (.nonTerminal "S") "a").value = .ok root ∧
    (other.parseSymbol .keep (.nonTerminal "S") "a").value = .ok root := by
  let symbols : List Symbol :=
    [.nonTerminal "S", .nonTerminal "A", .nonTerminal "B", .literal "a"]
  obtain ⟨g, built, tested⟩ := exists_of_script (.nonTerminal "S") Example.ambiguous
    (fun g =>
      (Grammar.ofScript (.nonTerminal "T") Example.ambiguousByHand).value.toOption.any
        (fun other : Grammar =>
          symbols.all fun symbol => decide (g.definitions symbol = other.definitions symbol)) &&
      g.prodIds.all (fun p => (g.prod? p).all fun entry : WiredProduction =>
        decide (entry.production.lhs ∈ symbols →
          ∀ part ∈ entry.production.rhs, part ∈ symbols)) &&
      (g.parseSymbol .keep (.nonTerminal "S") "a").value.toOption.any Node.isAmbiguous)
    (by decide +kernel)
  rw [Bool.and_eq_true, Bool.and_eq_true] at tested
  obtain ⟨⟨sameRules, closed⟩, parses⟩ := tested
  obtain ⟨other, builtOther, sameRules⟩ := exists_ok_of_any sameRules
  obtain ⟨root, parsed, ambiguous⟩ := exists_ok_of_any parses
  simp only [List.all_eq_true, Option.all_eq_true, decide_eq_true_eq] at sameRules closed
  have same : g.SameRules other (.nonTerminal "S") :=
    sameRules_of_closed List.mem_cons_self closed sameRules
  have both := parseSymbol_eq_of_sameRules built builtOther same .keep "a"
  exact ⟨g, other, root, built, builtOther, same, ambiguous, parsed, both.symm.trans parsed⟩

end Grammar

end Scannerless
