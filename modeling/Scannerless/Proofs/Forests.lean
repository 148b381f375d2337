import Scannerless.Proofs.Packing

/-!
# Forests

What is packed of a chart, whatever has been packed before: `Grammar.pack_reduced_trees` says that
no reduced tree is lost, and `Grammar.pack_sound` that nothing is packed that the grammar and the
input do not bear out.
-/

namespace Scannerless

namespace Packing

/-- What is left behind by packing constituents one after another. -/
def packed (g : Grammar) (input : Input) (chart : Chart) (earlier : List Constituent) : Packing :=
  earlier.foldl (fun packing constituent => (pack g input chart constituent packing).2) {}

section Idle

variable {g : Grammar} {input : Input} {root : Symbol} {chart : Chart} {packing : Packing}
  {constituent : Constituent}

/-- What holds at first and is kept by packing holds of whatever is left behind. -/
theorem packed_keeps (holds : Packing → Prop) (first : holds {})
    (keeps : ∀ (constituent : Constituent) {packing : Packing}, holds packing →
      holds (pack g input chart constituent packing).2) (earlier : List Constituent) :
    holds (packed g input chart earlier) := by
  unfold packed
  exact List.foldlRecOn earlier _ first fun _ before constituent _ => keeps constituent before

theorem pack_of_undefined (undefined : g.isDefined constituent.symbol = false) :
    pack g input chart constituent packing = (none, packing) := by
  unfold pack
  rw [undefined]
  rfl

theorem pack_of_defined (input : Input) (chart : Chart) (packing : Packing)
    (defined : g.isDefined constituent.symbol = true) : ∃ last : Packing,
      pack g input chart constituent packing =
        ((packWithin g input chart (chart.completions.size + 1) constituent packing).1, last) ∧
      last.memo =
        (packWithin g input chart (chart.completions.size + 1) constituent packing).2.memo ∧
      last.inProgress =
        (packWithin g input chart (chart.completions.size + 1) constituent packing).2.inProgress ∧
      last.cut =
        (packWithin g input chart (chart.completions.size + 1) constituent packing).2.cut := by
  unfold pack
  rw [if_pos defined]
  exact ⟨_, rfl, rfl, rfl, rfl⟩

/-- Nothing has been cut when nothing is in progress. -/
theorem not_cut_of_idle (idle : packing.inProgress = []) : ¬ packing.Cut constituent := by
  rintro ⟨cut, depth, -, inside, -⟩
  rw [idle] at inside
  cases inside

theorem pack_outcome (wired : g.Wired) (full : chart.Full g input root)
    (defined : g.isDefined constituent.symbol = true) (intact : Intact g input root packing)
    (idle : packing.inProgress = []) :
    Outcome g input root chart constituent packing (pack g input chart constituent packing) := by
  have nonTerminal : constituent.symbol.isTerminal = false :=
    wired.isTerminal_of_isDefined defined
  have outcome := packWithin_delivers wired full (.idle chart) constituent packing nonTerminal
    intact idle
  obtain ⟨last, eq, memo, inProgress, cut⟩ := pack_of_defined input chart packing defined
  have isCut {other : Constituent} : last.Cut other ↔
      (packWithin g input chart (chart.completions.size + 1) constituent packing).2.Cut other := by
    unfold Cut
    rw [cut, inProgress]
  rw [eq]
  exact ⟨outcome.onward.trans (.of_eq outcome.onward.intact memo inProgress cut),
    outcome.packs.imp isCut.2, outcome.settled,
    fun inside => ⟨(outcome.open_ inside).1, isCut.2 (outcome.open_ inside).2⟩⟩

theorem pack_onward (wired : g.Wired) (full : chart.Full g input root)
    (intact : Intact g input root packing) (idle : packing.inProgress = []) :
    Onward g input root chart packing (pack g input chart constituent packing).2 := by
  cases defined : g.isDefined constituent.symbol with
  | false =>
    rw [pack_of_undefined defined]
    exact .refl intact
  | true => exact (pack_outcome wired full defined intact idle).onward

/-- Packing constituents one after another leaves the packing in order, with nothing in progress. -/
theorem packed_intact (wired : g.Wired) (full : chart.Full g input root)
    (earlier : List Constituent) : Intact g input root (packed g input chart earlier) ∧
      (packed g input chart earlier).inProgress = [] := by
  refine packed_keeps (fun packing => Intact g input root packing ∧ packing.inProgress = [])
    ⟨⟨?_, ?_, ?_⟩, rfl⟩ (fun constituent {packing} before => ?_) earlier
  · exact fun member => absurd member List.not_mem_nil
  · exact fun member => absurd member List.not_mem_nil
  · intro constituent result known
    simp at known
  · obtain ⟨intact, idle⟩ := before
    have onward : Onward g input root chart packing (pack g input chart constituent packing).2 :=
      pack_onward wired full intact idle
    exact ⟨onward.intact, onward.inProgress.trans idle⟩

/-- What is packed after earlier constituents has all reduced trees of a call. -/
theorem packs_of_called (wired : g.Wired) (full : chart.Full g input root)
    (earlier : List Constituent)
    (called : g.Called input root ⟨constituent.symbol, constituent.span.start⟩) :
    Packs g input root (fun _ => False) constituent
      (pack g input chart constituent (packed g input chart earlier)).1 := by
  obtain ⟨intact, idle⟩ := packed_intact wired full earlier
  cases defined : g.isDefined constituent.symbol with
  | true =>
    have outcome := pack_outcome wired full defined intact idle
    exact outcome.packs.imp fun isCut =>
      not_cut_of_idle (outcome.onward.inProgress.trans idle) isCut
  | false =>
    rw [pack_of_undefined defined]
    refine ⟨nofun, fun _ {tree} reduced constituent_eq _ => ?_⟩
    subst constituent_eq
    have nonTerminal := called.isTerminal wired
    have derivation := reduced.derivation
    cases derivation with
    | leaf scanned =>
      have terminal := Symbol.isTerminal_of_scan scanned
      exact absurd terminal (Bool.eq_false_iff.1 nonTerminal)
    | reduction found =>
      have isDefined := wired.isDefined_iff.2 ⟨_, _, found, rfl⟩
      exact absurd isDefined (Bool.eq_false_iff.1 defined)

theorem faithful_of_pack (wired : g.Wired) (full : chart.Full g input root)
    (earlier : List Constituent) {node : Node}
    (some_ : (pack g input chart constituent (packed g input chart earlier)).1 = some node) :
    node.FaithfulTo g input constituent := by
  obtain ⟨intact, idle⟩ := packed_intact wired full earlier
  cases defined : g.isDefined constituent.symbol with
  | true => exact (pack_outcome wired full defined intact idle).packs.faithful some_
  | false =>
    rw [pack_of_undefined defined] at some_
    cases some_

end Idle

end Packing

namespace Grammar

/-- Whatever has been packed before, a forest packed of the chart has every reduced tree of a
constituent that was called, and there is one just if the constituent was completed. -/
theorem pack_reduced_trees {start : Symbol} {script : List Declaration} {g : Grammar}
    (built : (Grammar.ofScript start script).value = .ok g) (input : Input) (root : Symbol)
    (earlier : List Constituent) {constituent : Constituent}
    (called : (g.recognize input root).value.calls.contains
      ⟨constituent.symbol, constituent.span.start⟩ = true) :
    let chart := (g.recognize input root).value
    let result := (Packing.pack g input chart constituent (Packing.packed g input chart earlier)).1
    (∀ tree : Tree, tree.Reduced g input → tree.constituent = constituent →
      ∃ node, result = some node ∧ tree ∈ node.trees) ∧
    (result.isSome = true ↔ chart.completed constituent ≠ []) := by
  intro chart result
  have wired := Wired.of_script built
  have full : chart.Full g input root := wired.full_recognize input root
  have isCalled := full.contains_iff.1 called
  have packs := Packing.packs_of_called wired full earlier isCalled
  have whole : ∀ tree : Tree, tree.Reduced g input → tree.constituent = constituent →
      ∃ node, result = some node ∧ tree ∈ node.trees :=
    fun tree reduced constituent_eq =>
      packs.complete (fun _ => isCalled) reduced constituent_eq fun isCut => isCut.elim
  refine ⟨whole, ?_, ?_⟩
  · intro some_
    obtain ⟨node, eq⟩ := Option.isSome_iff_exists.1 some_
    have faithful := Packing.faithful_of_pack wired full earlier eq
    obtain ⟨tree, inTrees⟩ := faithful.exists_tree
    obtain ⟨rfl, derivation⟩ := faithful.derivation wired tree inTrees
    have spans := derivation.spans (isCalled.offset_le wired)
    obtain ⟨p, completed⟩ := (isCalled.completed_iff wired).2 spans
    exact List.ne_nil_of_mem (full.mem_completed_iff.2 completed)
  · intro some_
    obtain ⟨p, member⟩ := List.exists_mem_of_ne_nil _ some_
    obtain ⟨tree, reduced, constituent_eq⟩ :=
      isCalled.exists_reduced wired ⟨p, full.mem_completed_iff.1 member⟩
    obtain ⟨node, eq, -⟩ := whole tree reduced constituent_eq
    rw [eq]
    rfl

/-- `S ::= S | "a"` still packs the text `a` after it has been packed once. -/
theorem pack_reduced_trees_cyclic : ∃ g : Grammar,
    (Grammar.ofScript (.nonTerminal "S") Example.cyclic).value = .ok g ∧
      (Packing.pack g (Input.ofString "a")
        (g.recognize (Input.ofString "a") (.nonTerminal "S")).value ⟨.nonTerminal "S", ⟨0, 1⟩⟩
        (Packing.packed g (Input.ofString "a")
          (g.recognize (Input.ofString "a") (.nonTerminal "S")).value
          [⟨.nonTerminal "S", ⟨0, 1⟩⟩])).1.isSome = true := by
  obtain ⟨g, built, tested⟩ := exists_of_script (.nonTerminal "S") Example.cyclic
    (fun g =>
      let chart := (g.recognize (Input.ofString "a") (.nonTerminal "S")).value
      chart.calls.contains ⟨.nonTerminal "S", 0⟩ &&
        !(chart.completed ⟨.nonTerminal "S", ⟨0, 1⟩⟩).isEmpty)
    (by decide +kernel)
  rw [Bool.and_eq_true, Bool.not_eq_true', List.isEmpty_eq_false_iff] at tested
  exact ⟨g, built, (pack_reduced_trees built (Input.ofString "a") (.nonTerminal "S")
    [⟨.nonTerminal "S", ⟨0, 1⟩⟩] tested.1).2.2 tested.2⟩

/-- Whatever has been packed before, a forest packed of the chart is of the symbol and the span, and
all of its nodes are sound. The text under each node is that of its span, whichever alternatives are
followed. -/
theorem pack_sound {start : Symbol} {script : List Declaration} {g : Grammar}
    (built : (Grammar.ofScript start script).value = .ok g) (input : Input) (root : Symbol)
    (earlier : List Constituent) {constituent : Constituent} {node : Node}
    (packed : (Packing.pack g input (g.recognize input root).value constituent
      (Packing.packed g input (g.recognize input root).value earlier)).1 = some node) :
    node.symbol = constituent.symbol ∧ node.span = constituent.span ∧
      ∀ other : Node, node.Reaches other → other.Sound g input ∧
        other.yieldText = input.slice other.span ∧
        ∀ tree ∈ other.trees, tree.yield = input.slice other.span := by
  have wired := Wired.of_script built
  have faithful :=
    Packing.faithful_of_pack wired (wired.full_recognize input root) earlier packed
  refine ⟨congrArg Constituent.symbol faithful.constituent_eq,
    congrArg Constituent.span faithful.constituent_eq, fun other reaches => ?_⟩
  have below := faithful.reaches reaches
  refine ⟨faithful.sound reaches, below.yieldText_eq, fun tree inTrees => ?_⟩
  obtain ⟨same, derivation⟩ := below.derivation wired tree inTrees
  rw [derivation.yield_eq]
  exact congrArg (fun part => input.slice part.span) same

/-- `S ::= A | B`, `A ::= "a"` and `B ::= "a"`: either way, the text under the forest is `a`. -/
theorem pack_sound_ambiguous : ∃ (g : Grammar) (node : Node),
    (Grammar.ofScript (.nonTerminal "S") Example.ambiguous).value = .ok g ∧
      (Packing.pack g (Input.ofString "a")
        (g.recognize (Input.ofString "a") (.nonTerminal "S")).value ⟨.nonTerminal "S", ⟨0, 1⟩⟩
        (Packing.packed g (Input.ofString "a")
          (g.recognize (Input.ofString "a") (.nonTerminal "S")).value
          [⟨.nonTerminal "A", ⟨0, 1⟩⟩])).1 = some node ∧
      node.yieldText = "a" := by
  obtain ⟨g, built, tested⟩ := exists_of_script (.nonTerminal "S") Example.ambiguous
    (fun g =>
      let chart := (g.recognize (Input.ofString "a") (.nonTerminal "S")).value
      (Packing.pack g (Input.ofString "a") chart ⟨.nonTerminal "S", ⟨0, 1⟩⟩
        (Packing.packed g (Input.ofString "a") chart [⟨.nonTerminal "A", ⟨0, 1⟩⟩])).1.isSome)
    (by decide +kernel)
  obtain ⟨node, packed⟩ := Option.isSome_iff_exists.1 tested
  obtain ⟨-, span_eq, each⟩ := pack_sound built (Input.ofString "a") (.nonTerminal "S")
    [⟨.nonTerminal "A", ⟨0, 1⟩⟩] packed
  refine ⟨g, node, built, packed, ?_⟩
  rw [(each node (.root node)).2.1, span_eq]
  decide +kernel

end Grammar

end Scannerless
