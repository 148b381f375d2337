import Mathlib.Data.List.Induction
import Scannerless.Parsing
import Scannerless.Proofs.Forests

/-!
# Cycles

A cut leaves out a derivation that needs the very constituent in progress. But a result that is
shared brings its own derivations along, and these may use a constituent that is in progress by
then. So a forest can hold trees that meet a constituent twice on the way down.

`Grammar.OnlyDirectCycles` is what keeps all forests of a chart free of them, in whatever order they
are packed: that what a constituent is reduced from comes back to it only directly.
-/

namespace Scannerless

/-- What a constituent is reduced from does not come back to it, unless directly. -/
def Grammar.OnlyDirectCycles (g : Grammar) (input : Input) (root : Symbol) : Prop :=
  ∀ tree : Tree, tree.Derivation g input Production.Tight →
    g.Called input root ⟨tree.symbol, tree.span.start⟩ →
    (∀ child ∈ tree.children, child.Reduced g input ∧ child.constituent ≠ tree.constituent) →
      tree.Acyclic

theorem Match.exists_standsFor {g : Grammar} {input : Input} {root : Symbol}
    {founds : List Match} {parts : List Constituent}
    (stand : List.Forall₂ (Match.StandsFor g input root) founds parts) :
    ∀ part ∈ parts, ∃ found : Match, found.StandsFor g input root part := by
  induction stand with
  | nil => exact fun _ member => absurd member List.not_mem_nil
  | cons stands _ ih =>
    intro part member
    rcases List.mem_cons.1 member with rfl | inRest
    · exact ⟨_, stands⟩
    · exact ih part inRest

/-! ## Forests without cycles -/

section Direct

variable {g : Grammar} {input : Input} {root : Symbol} {chart : Chart} {node : Node}

/-- The parts of a tree of a forest are trees of the forest, and none is of the same constituent. -/
theorem Node.FaithfulTo.exists_part (wired : g.Wired) : ∀ {constituent : Constituent},
    node.FaithfulTo g input constituent → ∀ tree ∈ node.trees, ∀ child ∈ tree.children,
      child.constituent ≠ constituent ∧
        ∃ part : Node, part.FaithfulTo g input child.constituent ∧ child ∈ part.trees := by
  induction node using induction_parts with
  | step node ih =>
    intro constituent faithful tree inTrees child isChild
    rw [← faithful.constituent_eq]
    have proper_part : (∀ part ∈ node.parts, part.constituent ≠ node.constituent) →
        node.isAmbiguous = false → child.constituent ≠ node.constituent ∧
          ∃ part : Node, part.FaithfulTo g input child.constituent ∧ child ∈ part.trees := by
      intro proper plain
      obtain ⟨part, member, inPart⟩ := exists_part_of_child plain inTrees isChild
      have below := faithful.part member
      have same := (below.derivation wired child inPart).1
      exact ⟨same ▸ proper part member, part, same ▸ below, inPart⟩
    have whole := faithful.sound (.root node)
    cases whole with
    | leaf => exact proper_part (fun _ member => absurd member List.not_mem_nil) rfl
    | branch _ _ _ _ reduces => exact proper_part reduces.proper rfl
    | list _ _ _ _ reduces => exact proper_part reduces.proper rfl
    | ambiguity _ _ _ alike =>
      obtain ⟨alternative, member, inAlternative⟩ := mem_treesOfAny_iff.1 inTrees
      have below := ih alternative member (faithful.part member) tree inAlternative child isChild
      rwa [alike alternative member] at below

/-- If all cycles are direct, forests have none. -/
theorem Node.FaithfulTo.acyclic (wired : g.Wired) (full : chart.Full g input root)
    (direct : g.OnlyDirectCycles input root) {tree : Tree}
    (derivation : tree.Derivation g input Production.Tight) : ∀ {node : Node},
      node.FaithfulTo g input tree.constituent → tree ∈ node.trees →
      (tree.symbol.isTerminal = false → g.Called input root ⟨tree.symbol, tree.span.start⟩) →
        tree.Acyclic := by
  induction derivation with
  | leaf =>
    intros
    exact Tree.acyclic_iff.2 fun _ member => absurd member List.not_mem_nil
  | @reduction p entry span children found expands tiles tight each ih =>
    intro node faithful inTrees called
    have isCalled := called (wired.isTerminal_of_lhs found)
    have derivation := Tree.Derivation.reduction found expands tiles tight each
    refine direct _ derivation isCalled fun child isChild => ?_
    obtain ⟨proper, part, below, inPart⟩ := faithful.exists_part wired _ inTrees child isChild
    obtain ⟨production, founds, -, -, stand⟩ :=
      derivation.exists_mem_reductions wired full isCalled
    obtain ⟨found, stands⟩ :=
      Match.exists_standsFor stand child.constituent (List.mem_map.2 ⟨child, isChild, rfl⟩)
    exact ⟨⟨each child isChild, ih child isChild below inPart stands.called⟩, proper⟩

end Direct

/-! ## Results that are shared -/

namespace Packing

section Idle

variable {g : Grammar} {input : Input} {root : Symbol} {chart : Chart} {packing : Packing}
  {constituent other : Constituent}

theorem pack_of_unknown (wired : g.Wired) (full : chart.Full g input root)
    (defined : g.isDefined constituent.symbol = true) (intact : Intact g input root packing)
    (idle : packing.inProgress = []) (unknown : packing.memo[constituent]? = none) :
    ∃ nodes last,
      ReductionsOutcome g input root chart constituent (reductions g chart constituent)
        (packing.enter constituent) (nodes, last) ∧
      (pack g input chart constituent packing).1 = (last.merge constituent nodes).1 ∧
      (pack g input chart constituent packing).2.memo =
        ((last.merge constituent nodes).2.leave packing.cut 0 constituent
          (last.merge constituent nodes).1).memo := by
  have nonTerminal : constituent.symbol.isTerminal = false :=
    wired.isTerminal_of_isDefined defined
  have outside : constituent ∉ packing.inProgress := by
    rw [idle]
    exact List.not_mem_nil
  have room : Room chart (chart.completions.size + 1) packing.inProgress := idle ▸ .idle chart
  obtain ⟨nodes, last, reductions, eq⟩ := packWithin_of_unknown wired full
    (fun some_ => packWithin_delivers wired full (room.enter outside some_))
    intact nonTerminal unknown outside
  obtain ⟨after, pack_eq, memo, -, -⟩ := pack_of_defined input chart packing defined
  rw [pack_eq, memo, eq, idle]
  exact ⟨nodes, last, reductions, rfl, rfl⟩

theorem pack_of_known (known : packing.memo.contains constituent = true) :
    (pack g input chart constituent packing).2.memo = packing.memo := by
  cases defined : g.isDefined constituent.symbol with
  | false => rw [pack_of_undefined defined]
  | true =>
    obtain ⟨result, eq⟩ : ∃ result, packing.memo[constituent]? = some result := by
      rwa [Std.TreeMap.contains_eq_isSome_getElem?, Option.isSome_iff_exists] at known
    obtain ⟨after, pack_eq, memo, -, -⟩ := pack_of_defined input chart packing defined
    rw [pack_eq, memo, packWithin, eq]

/-- What is packed while nothing else is in progress is shared. -/
theorem contains_pack (wired : g.Wired) (full : chart.Full g input root)
    (defined : g.isDefined constituent.symbol = true) (intact : Intact g input root packing)
    (idle : packing.inProgress = []) :
    (pack g input chart constituent packing).2.memo.contains constituent = true := by
  cases known : packing.memo.contains constituent with
  | true => exact (pack_onward wired full intact idle).contains known
  | false =>
    rw [Std.TreeMap.contains_eq_isSome_getElem?, Option.isSome_eq_false_iff,
      Option.isNone_iff_eq_none] at known
    obtain ⟨nodes, last, -, -, memo⟩ := pack_of_unknown wired full defined intact idle known
    have uncut : (last.merge constituent nodes).2.cut.filter (· < 0) = none := by
      cases (last.merge constituent nodes).2.cut <;> rfl
    rw [memo]
    unfold leave
    dsimp only
    rw [uncut]
    exact Std.TreeMap.contains_insert_self

/-- What is cut at a constituent is not shared while that constituent is packed. -/
theorem unshared_pack (wired : g.Wired) (full : chart.Full g input root)
    (intact : Intact g input root packing) (idle : packing.inProgress = [])
    (barred : Barred g input root chart (packing.enter constituent) other)
    (different : other ≠ constituent) :
    (pack g input chart constituent packing).2.memo[other]? = none := by
  cases known : packing.memo.contains constituent with
  | true =>
    rw [pack_of_known known]
    exact barred.1
  | false =>
    cases defined : g.isDefined constituent.symbol with
    | false =>
      rw [pack_of_undefined defined]
      exact barred.1
    | true =>
      rw [Std.TreeMap.contains_eq_isSome_getElem?, Option.isSome_eq_false_iff,
        Option.isNone_iff_eq_none] at known
      obtain ⟨nodes, last, reductions, -, memo⟩ :=
        pack_of_unknown wired full defined intact idle known
      have merged := merge_reductions reductions
      have stack_eq : (last.merge constituent nodes).2.inProgress = [constituent] := by
        rw [merged.onward.inProgress, ← idle]
        rfl
      refine Option.eq_none_iff_forall_ne_some.2 fun result shared => ?_
      rw [memo] at shared
      rcases memo_leave stack_eq shared with before | ⟨same, -, -⟩
      · rw [merged.onward.barred barred] at before
        cases before
      · exact different same

/-- A derivation from parts that are all known is packed, if its constituent is not known. -/
theorem exists_mem_trees_pack (wired : g.Wired) (full : chart.Full g input root)
    (intact : Intact g input root packing) (idle : packing.inProgress = []) {tree : Tree}
    (unknown : packing.memo[tree.constituent]? = none)
    (derivation : tree.Derivation g input Production.Tight)
    (called : g.Called input root ⟨tree.symbol, tree.span.start⟩)
    (reduced : ∀ child ∈ tree.children, child.Reduced g input)
    (known : ∀ child ∈ tree.children, child.symbol.isTerminal = false →
      packing.memo.contains child.constituent = true) :
    ∃ node, (pack g input chart tree.constituent packing).1 = some node ∧ tree ∈ node.trees := by
  have defined : g.isDefined tree.constituent.symbol = true := by
    cases derivation with
    | leaf scanned =>
      have terminal := Symbol.isTerminal_of_scan scanned
      exact absurd terminal (Bool.eq_false_iff.1 (called.isTerminal wired))
    | reduction found => exact wired.isDefined_iff.2 ⟨_, _, found, rfl⟩
  obtain ⟨nodes, last, reductions, eq, -⟩ := pack_of_unknown wired full defined intact idle unknown
  obtain ⟨merged, merge_eq, -⟩ := merge_eq last tree.constituent nodes
  rw [eq, merge_eq]
  exact exists_mem_trees_merge wired full reductions called derivation rfl reduced
    (fun child isChild => .inl (known child isChild)) _

theorem packed_concat (earlier : List Constituent) (constituent : Constituent) :
    packed g input chart (earlier ++ [constituent]) =
      (pack g input chart constituent (packed g input chart earlier)).2 := by
  unfold packed
  rw [List.foldl_append]
  rfl

/-- If the parts of a reduction are packed in order, all of them are shared. But what they are parts
of is not, since it is always cut at the part that is being packed. -/
theorem packed_parts (wired : g.Wired) (full : chart.Full g input root) {production : Production}
    {founds : List Match} {parts : List Constituent}
    (member : (production, founds) ∈ reductions g chart constituent)
    (stand : List.Forall₂ (Match.StandsFor g input root) founds parts)
    (proper : constituent ∉ parts) : ∀ {before after : List Constituent}, parts = before ++ after →
      (packed g input chart before).memo[constituent]? = none ∧
      ∀ part ∈ before, part.symbol.isTerminal = false →
        (packed g input chart before).memo.contains part = true := by
  intro before
  induction before using List.reverseRecOn with
  | nil =>
    intro after _
    exact ⟨by simp [packed], fun _ isBefore => absurd isBefore List.not_mem_nil⟩
  | append_singleton before part ih =>
    intro after eq
    rw [List.append_assoc, List.singleton_append] at eq
    obtain ⟨unknown, known⟩ := ih eq
    obtain ⟨intact, idle⟩ := packed_intact wired full before
    have isPart : part ∈ parts := by simp [eq]
    have barred : Barred g input root chart ((packed g input chart before).enter part)
        constituent :=
      ⟨unknown, production, founds, before, part, after, member, eq ▸ stand, known,
        List.mem_cons_self⟩
    rw [packed_concat]
    refine ⟨unshared_pack wired full intact idle barred fun same => proper (same ▸ isPart), ?_⟩
    intro other isBefore nonTerminal
    rcases List.mem_append.1 isBefore with earlier | here
    · exact (pack_onward wired full intact idle).contains (known other earlier nonTerminal)
    · obtain rfl := List.mem_singleton.1 here
      obtain ⟨found, stands⟩ := Match.exists_standsFor stand other isPart
      refine contains_pack wired full ?_ intact idle
      rcases stands.covered with scanned | ⟨p, lhs, -⟩
      · have terminal := Symbol.isTerminal_of_scan scanned
        exact absurd terminal (Bool.eq_false_iff.1 nonTerminal)
      · obtain ⟨entry, isProd, lhs_eq⟩ := Grammar.exists_prod_of_lhs lhs
        exact wired.isDefined_iff.2 ⟨p, entry, isProd, lhs_eq⟩

/-- A derivation from reduced parts of other constituents is packed in some order: after its
parts. -/
theorem exists_pack_of_parts (wired : g.Wired) (full : chart.Full g input root) {tree : Tree}
    (derivation : tree.Derivation g input Production.Tight)
    (called : g.Called input root ⟨tree.symbol, tree.span.start⟩)
    (parts : ∀ child ∈ tree.children,
      child.Reduced g input ∧ child.constituent ≠ tree.constituent) :
    ∃ (earlier : List Constituent) (node : Node),
      (pack g input chart tree.constituent (packed g input chart earlier)).1 = some node ∧
        tree ∈ node.trees := by
  obtain ⟨production, founds, -, member, stand⟩ :=
    derivation.exists_mem_reductions wired full called
  have proper : tree.constituent ∉ tree.children.map Tree.constituent := by
    intro isPart
    obtain ⟨child, isChild, same⟩ := List.mem_map.1 isPart
    exact (parts child isChild).2 same
  obtain ⟨unknown, known⟩ := packed_parts wired full member stand proper (List.append_nil _).symm
  obtain ⟨intact, idle⟩ := packed_intact wired full (tree.children.map Tree.constituent)
  exact ⟨_, exists_mem_trees_pack wired full intact idle unknown derivation called
    (fun child isChild => (parts child isChild).1) fun child isChild =>
      known child.constituent (List.mem_map.2 ⟨child, isChild, rfl⟩)⟩

end Idle

end Packing

/-! ## Parsing -/

namespace Grammar

variable {g : Grammar}

theorem onlyDirectCycles_iff (wired : g.Wired) (input : Input) (root : Symbol) :
    g.OnlyDirectCycles input root ↔
      ∀ (earlier : List Constituent) (constituent : Constituent) (node : Node),
        (g.recognize input root).value.calls.contains
          ⟨constituent.symbol, constituent.span.start⟩ = true →
        (Packing.pack g input (g.recognize input root).value constituent
          (Packing.packed g input (g.recognize input root).value earlier)).1 = some node →
        ∀ tree ∈ node.trees, tree.Acyclic := by
  have full := wired.full_recognize input root
  constructor
  · intro direct earlier constituent node called eq tree inTrees
    have faithful := Packing.faithful_of_pack wired full earlier eq
    obtain ⟨rfl, derivation⟩ := faithful.derivation wired tree inTrees
    exact faithful.acyclic wired full direct derivation inTrees fun _ => full.contains_iff.1 called
  · intro acyclic tree derivation called parts
    obtain ⟨earlier, node, eq, inTrees⟩ :=
      Packing.exists_pack_of_parts wired full derivation called parts
    exact acyclic _ _ node (full.contains_iff.2 called) eq tree inTrees

theorem parseSymbol_keep_iff {symbol : Symbol} {text : String} {node : Node} :
    (g.parseSymbol .keep symbol text).value = .ok node ↔
      (g.recognize (Input.ofString text) symbol).value.accepts symbol
        (Input.ofString text).length = true ∧
      (Packing.pack g (Input.ofString text) (g.recognize (Input.ofString text) symbol).value
        ⟨symbol, ⟨0, (Input.ofString text).length⟩⟩ {}).1 = some node := by
  unfold parseSymbol recognizeAll forestOf
  simp only [bind, pure]
  cases (g.recognize (Input.ofString text) symbol).value.accepts symbol
      (Input.ofString text).length with
  | false => simp
  | true =>
    simp only [if_true, true_and]
    cases (Packing.pack g (Input.ofString text)
      (g.recognize (Input.ofString text) symbol).value
      ⟨symbol, ⟨0, (Input.ofString text).length⟩⟩ {}).1 <;> simp

/-- No tree of a parsed text goes round in a circle just if the forest holds the reduced trees of
the symbol over the text and no others. This is so if all cycles of the grammar over the text are
direct, which is just what keeps all forests of the chart free of cycles, whatever has been packed
before. -/
theorem parseSymbol_acyclic_iff {start : Symbol} {script : List Declaration} {g : Grammar}
    (built : (Grammar.ofScript start script).value = .ok g) (symbol : Symbol) (text : String)
    {node : Node} (parsed : (g.parseSymbol .keep symbol text).value = .ok node) :
    ((∀ tree ∈ node.trees, tree.Acyclic) ↔
      ∀ tree : Tree, tree ∈ node.trees ↔ tree.Reduced g (Input.ofString text) ∧
        tree.constituent = ⟨symbol, ⟨0, (Input.ofString text).length⟩⟩) ∧
    (g.OnlyDirectCycles (Input.ofString text) symbol → ∀ tree ∈ node.trees, tree.Acyclic) ∧
    (g.OnlyDirectCycles (Input.ofString text) symbol ↔
      ∀ (earlier : List Constituent) (constituent : Constituent) (other : Node),
        (g.recognize (Input.ofString text) symbol).value.calls.contains
          ⟨constituent.symbol, constituent.span.start⟩ = true →
        (Packing.pack g (Input.ofString text) (g.recognize (Input.ofString text) symbol).value
          constituent (Packing.packed g (Input.ofString text)
            (g.recognize (Input.ofString text) symbol).value earlier)).1 = some other →
        ∀ tree ∈ other.trees, tree.Acyclic) := by
  have wired := Wired.of_script built
  have full := wired.full_recognize (Input.ofString text) symbol
  obtain ⟨accepts, eq⟩ := parseSymbol_keep_iff.1 parsed
  have called : g.Called (Input.ofString text) symbol ⟨symbol, 0⟩ := by
    unfold Chart.accepts at accepts
    rw [← Std.TreeSet.mem_iff_contains] at accepts
    obtain ⟨p, lhs, reached⟩ := full.mem_results_iff.1 accepts
    exact reached.called wired lhs
  have packs : Packs g (Input.ofString text) symbol (fun _ => False)
      ⟨symbol, ⟨0, (Input.ofString text).length⟩⟩
      (Packing.pack g (Input.ofString text) (g.recognize (Input.ofString text) symbol).value
        ⟨symbol, ⟨0, (Input.ofString text).length⟩⟩ {}).1 :=
    Packing.packs_of_called wired full [] called
  have faithful := Packing.faithful_of_pack wired full [] eq
  have direct := onlyDirectCycles_iff wired (Input.ofString text) symbol
  refine ⟨⟨fun acyclic tree => ⟨fun inTrees => ?_, fun ⟨reduced, constituent_eq⟩ => ?_⟩,
    fun same tree inTrees => ((same tree).1 inTrees).1.acyclic⟩, fun only => ?_, direct⟩
  · obtain ⟨constituent_eq, derivation⟩ := faithful.derivation wired tree inTrees
    exact ⟨⟨derivation, acyclic tree inTrees⟩, constituent_eq⟩
  · obtain ⟨other, some_, inTrees⟩ :=
      packs.complete (fun _ => called) reduced constituent_eq fun isCut => isCut.elim
    rw [eq] at some_
    cases some_
    exact inTrees
  · exact direct.1 only [] _ node (full.contains_iff.2 called) eq

end Grammar

/-- `S ::= A | B`, `A ::= B | "a"` and `B ::= A | "a"`. -/
def Example.crossed : List Declaration :=
  [.rule (.nonTerminal "S")
      [.sequence "SA" [.nonTerminal "A"] [], .sequence "SB" [.nonTerminal "B"] []],
    .rule (.nonTerminal "A")
      [.sequence "AB" [.nonTerminal "B"] [], .sequence "Aa" [.literal "a"] []],
    .rule (.nonTerminal "B")
      [.sequence "BA" [.nonTerminal "A"] [], .sequence "Ba" [.literal "a"] []]]

namespace Grammar

/-- `S ::= S | "a"`: the forest of the text `a` holds just its reduced trees. -/
theorem parseSymbol_acyclic_iff_cyclic : ∃ (g : Grammar) (node : Node),
    (Grammar.ofScript (.nonTerminal "S") Example.cyclic).value = .ok g ∧
      (g.parseSymbol .keep (.nonTerminal "S") "a").value = .ok node ∧
      ∀ tree : Tree, tree ∈ node.trees ↔ tree.Reduced g (Input.ofString "a") ∧
        tree.constituent = ⟨.nonTerminal "S", ⟨0, 1⟩⟩ := by
  obtain ⟨g, built, tested⟩ := exists_of_script (.nonTerminal "S") Example.cyclic
    (fun g =>
      match (g.parseSymbol .keep (.nonTerminal "S") "a").value with
      | .ok node => node.trees.all fun tree => tree.isAcyclic
      | .error _ => false)
    (by decide +kernel)
  cases parsed : (g.parseSymbol .keep (.nonTerminal "S") "a").value with
  | error =>
    rw [parsed] at tested
    cases tested
  | ok node =>
    rw [parsed] at tested
    refine ⟨g, node, built, parsed, (parseSymbol_acyclic_iff built _ _ parsed).1.1 ?_⟩
    exact fun tree inTrees =>
      (Tree.isAcyclic_eq_true_iff tree).1 (List.all_eq_true.1 tested tree inTrees)

/-- `S ::= A | B`, `A ::= B | "a"` and `B ::= A | "a"`: the forest of the text `a` has a tree in
which `B` is reduced from itself by way of `A`. -/
theorem parseSymbol_not_acyclic : ∃ (g : Grammar) (node : Node),
    (Grammar.ofScript (.nonTerminal "S") Example.crossed).value = .ok g ∧
      (g.parseSymbol .keep (.nonTerminal "S") "a").value = .ok node ∧
      ∃ tree ∈ node.trees, ¬ tree.Acyclic := by
  obtain ⟨g, built, tested⟩ := exists_of_script (.nonTerminal "S") Example.crossed
    (fun g =>
      match (g.parseSymbol .keep (.nonTerminal "S") "a").value with
      | .ok node => node.trees.any fun tree => !tree.isAcyclic
      | .error _ => false)
    (by decide +kernel)
  cases parsed : (g.parseSymbol .keep (.nonTerminal "S") "a").value with
  | error =>
    rw [parsed] at tested
    cases tested
  | ok node =>
    rw [parsed] at tested
    obtain ⟨tree, inTrees, cyclic⟩ := List.any_eq_true.1 tested
    refine ⟨g, node, built, parsed, tree, inTrees, fun acyclic => ?_⟩
    rw [(Tree.isAcyclic_eq_true_iff tree).2 acyclic] at cyclic
    cases cyclic

end Grammar

end Scannerless
