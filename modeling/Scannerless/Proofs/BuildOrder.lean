import Scannerless.Proofs.CanonicalForests
import Scannerless.Proofs.Cycles

/-!
# The order of packing

Whether what has been packed before shows in a forest. A constituent that is packed first of all is
in progress as long as anything is packed, so that no tree of its forest comes back to it. After its
parts have been packed, they may bring along trees that do.

If all cycles are direct, a forest holds the reduced trees whenever it is packed, and these tell its
structure. So `Grammar.OnlyDirectCycles` is also what keeps the order of packing from showing.
-/

namespace Scannerless

namespace Node

section Trees

variable {g : Grammar} {input : Input} {node : Node}

/-- Of what a tree of a forest uses, there is a node in the forest. -/
theorem FaithfulTo.exists_reaches_of_uses (wired : g.Wired) {used : Constituent} :
    ∀ {constituent : Constituent} {tree : Tree}, node.FaithfulTo g input constituent →
      tree ∈ node.trees → tree.Uses used →
        ∃ other, node.Reaches other ∧ other.constituent = used := by
  induction node using induction_parts with
  | step node ih =>
    intro constituent tree faithful inTrees uses
    have below : ∀ part ∈ node.parts, ∀ {tree : Tree}, tree ∈ part.trees → tree.Uses used →
        ∃ other, node.Reaches other ∧ other.constituent = used := by
      intro part member tree inPart uses
      obtain ⟨other, reaches, constituent_eq⟩ := ih part member (faithful.part member) inPart uses
      exact ⟨other, .part member reaches, constituent_eq⟩
    cases plain : node.isAmbiguous with
    | true =>
      cases node with
      | ambiguity =>
        obtain ⟨alternative, member, inAlternative⟩ := mem_treesOfAny_iff.1 inTrees
        exact below alternative member inAlternative uses
      | _ => cases plain
    | false =>
      rcases Tree.uses_iff.1 uses with rfl | ⟨child, isChild, usesBelow⟩
      · have same := (faithful.derivation wired tree inTrees).1
        exact ⟨node, .root node, faithful.constituent_eq.trans same.symm⟩
      · obtain ⟨part, member, inPart⟩ := exists_part_of_child plain inTrees isChild
        exact below part member inPart usesBelow

/-- Forests of the same structure hold equally many trees. -/
theorem numTrees_eq_of_erase {first second : Option Node}
    (same : first.map erase = second.map erase) :
    first.map (fun node => node.trees.length) = second.map fun node => node.trees.length := by
  have of_erased : ∀ found : Option Node, found.map (fun node => node.trees.length) =
      (found.map erase).map fun node => node.trees.length := by
    intro found
    rw [Option.map_map]
    exact Option.map_congr fun node _ => congrArg List.length (trees_erase node).symm
  rw [of_erased first, of_erased second, same]

end Trees

end Node

namespace Packing

section Order

variable {g : Grammar} {input : Input} {root : Symbol} {chart : Chart} {node : Node}
  {constituent : Constituent}

theorem isDefined_of_pack {packing : Packing}
    (some_ : (pack g input chart constituent packing).1 = some node) :
    g.isDefined constituent.symbol = true := by
  cases defined : g.isDefined constituent.symbol with
  | true => rfl
  | false =>
    rw [pack_of_undefined defined] at some_
    cases some_

/-! ## What is packed first -/

/-- Below the reductions of what is packed first of all, it does not come again. -/
theorem parts_of_fresh (wired : g.Wired) (full : chart.Full g input root)
    (some_ : (pack g input chart constituent {}).1 = some node) :
    ∀ alternative ∈ node.alternatives, ∀ part ∈ alternative.parts,
      part.All fun other => other.constituent ≠ constituent := by
  have defined := isDefined_of_pack some_
  have nonTerminal := wired.isTerminal_of_isDefined defined
  have kept : Kept g chart (· = constituent) ⟨0, fun _ => default⟩
      (({} : Packing).enter constituent) := by
    refine ⟨rfl, ?_, fun shared => ?_⟩
    · rintro _ rfl
      exact ⟨List.mem_cons_self, nonTerminal⟩
    · simp [enter] at shared
  obtain ⟨later, -, each, -⟩ := reduceAll_supplies input
    (lhs_of_mem_reductions wired full constituent)
    (packWithin_supplies wired full chart.completions.size _) kept
  obtain ⟨last, eq, -⟩ := pack_of_defined input chart {} defined
  have unknown : ({} : Packing).memo[constituent]? = none := by simp
  rw [eq, packWithin, unknown] at some_
  dsimp only [depthIn] at some_
  generalize reduceAll g input (packWithin g input chart chart.completions.size) constituent.span
    (reductions g chart constituent) (({} : Packing).enter constituent) = outcome at each some_
  obtain ⟨nodes, last⟩ := outcome
  obtain ⟨merged, merge_eq, -⟩ := merge_eq last constituent nodes
  dsimp only at each some_
  rw [merge_eq] at some_
  have avoids : ∀ alternative ∈ nodes, alternative.isAmbiguous = false ∧
      ∀ part ∈ alternative.parts, part.All fun other => other.constituent ≠ constituent := by
    intro alternative member
    obtain ⟨reduction, -, assembled⟩ := each alternative member
    exact ⟨assembled.isAmbiguous_eq,
      fun part isPart => (assembled.parts part isPart).imp fun regular => regular.allowed⟩
  intro alternative member
  rcases Node.shape_merge? some_ fun node member => (avoids node member).1 with
    inNodes | ⟨alternatives, rfl, -, -, whole⟩
  · obtain ⟨plain, parts⟩ := avoids node inNodes
    rw [Node.alternatives_of_plain plain, List.mem_singleton] at member
    exact member ▸ parts
  · exact (avoids alternative (whole alternative member)).2

/-- No tree of what is packed first of all comes back to the constituent. -/
theorem unused_of_fresh (wired : g.Wired) (full : chart.Full g input root)
    (some_ : (pack g input chart constituent {}).1 = some node) {tree : Tree}
    (inTrees : tree ∈ node.trees) : ∀ child ∈ tree.children, ¬ child.Uses constituent := by
  intro child isChild uses
  have faithful : node.FaithfulTo g input constituent := faithful_of_pack wired full [] some_
  obtain ⟨-, registry, all⟩ := regular_of_pack wired full [] some_
  obtain ⟨alternative, member, inAlternative⟩ := Node.exists_alternative_iff.2 inTrees
  obtain ⟨plain, faithfulHere, -⟩ :=
    (faithful.alternatives_apart (all.imp fun regular => regular.made)).1 alternative member
  obtain ⟨part, isPart, inPart⟩ := Node.exists_part_of_child plain inAlternative isChild
  obtain ⟨other, reaches, same⟩ :=
    (faithfulHere.part isPart).exists_reaches_of_uses wired inPart uses
  exact (parts_of_fresh wired full some_ alternative member part isPart).of_reaches reaches same

/-! ## What is packed later -/

/-- Only what has been called can be packed. -/
theorem called_of_pack (wired : g.Wired) (full : chart.Full g input root)
    (earlier : List Constituent)
    (some_ : (pack g input chart constituent (packed g input chart earlier)).1 = some node) :
    g.Called input root ⟨constituent.symbol, constituent.span.start⟩ := by
  have nonTerminal := wired.isTerminal_of_isDefined (isDefined_of_pack some_)
  have of_listed : ∀ {outline : Outline},
      outline ∈ (reductions g chart constituent).map Packing.outline →
        g.Called input root ⟨constituent.symbol, constituent.span.start⟩ := by
    intro outline listed
    obtain ⟨reduction, member, -⟩ := List.mem_map.1 listed
    obtain ⟨p, completed, -⟩ := List.mem_flatMap.1 member
    have known := full.mem_completed_iff.1 completed
    exact known.2.called wired known.1
  obtain ⟨rfl, registry, all⟩ := regular_of_pack wired full earlier some_
  have made := all.here.made
  cases made with
  | leaf terminal => exact absurd terminal (Bool.eq_false_iff.1 nonTerminal)
  | reduction listed => exact of_listed listed
  | ambiguity several _ _ listed =>
    obtain ⟨alternative, member⟩ :=
      List.exists_mem_of_length_pos (Nat.lt_of_lt_of_le Nat.two_pos several)
    exact of_listed (listed alternative member).2

/-- If all cycles are direct, what can be packed at some time can be packed at any other, and no
tree is lost. -/
theorem exists_pack_of_direct (wired : g.Wired) (full : chart.Full g input root)
    (direct : g.OnlyDirectCycles input root) (earlier others : List Constituent)
    (some_ : (pack g input chart constituent (packed g input chart earlier)).1 = some node) :
    ∃ other, (pack g input chart constituent (packed g input chart others)).1 = some other ∧
      ∀ tree ∈ node.trees, tree ∈ other.trees := by
  have called := called_of_pack wired full earlier some_
  have faithful := faithful_of_pack wired full earlier some_
  have packs := packs_of_called wired full others called
  have kept : ∀ tree ∈ node.trees, ∃ other,
      (pack g input chart constituent (packed g input chart others)).1 = some other ∧
        tree ∈ other.trees := by
    intro tree inTrees
    obtain ⟨rfl, derivation⟩ := faithful.derivation wired tree inTrees
    have acyclic := faithful.acyclic wired full direct derivation inTrees fun _ => called
    exact packs.complete (fun _ => called) ⟨derivation, acyclic⟩ rfl fun isCut => isCut.elim
  obtain ⟨first, inFirst⟩ := faithful.exists_tree
  obtain ⟨other, eq, -⟩ := kept first inFirst
  refine ⟨other, eq, fun tree inTrees => ?_⟩
  obtain ⟨same, eqToo, inSame⟩ := kept tree inTrees
  rw [eq] at eqToo
  cases eqToo
  exact inSame

/-- If all cycles are direct, what is packed has the same structure whenever it is packed. -/
theorem erase_pack_of_direct (wired : g.Wired) (full : chart.Full g input root)
    (direct : g.OnlyDirectCycles input root) (earlier others : List Constituent)
    (constituent : Constituent) :
    (pack g input chart constituent (packed g input chart earlier)).1.map Node.erase =
      (pack g input chart constituent (packed g input chart others)).1.map Node.erase := by
  cases first : (pack g input chart constituent (packed g input chart earlier)).1 with
  | none =>
    cases second : (pack g input chart constituent (packed g input chart others)).1 with
    | none => rfl
    | some other =>
      obtain ⟨node, eq, -⟩ := exists_pack_of_direct wired full direct others earlier second
      rw [first] at eq
      cases eq
  | some node =>
    obtain ⟨other, second, forth⟩ :=
      exists_pack_of_direct wired full direct earlier others first
    obtain ⟨same, eq, back⟩ := exists_pack_of_direct wired full direct others earlier second
    rw [first] at eq
    cases eq
    obtain ⟨-, registry, all⟩ := regular_of_pack wired full earlier first
    obtain ⟨-, registryToo, allToo⟩ := regular_of_pack wired full others second
    rw [second, Option.map_some, Option.map_some]
    exact congrArg some ((faithful_of_pack wired full earlier first).erase_eq_of_trees wired
      (faithful_of_pack wired full others second) (all.imp fun regular => regular.made)
      (allToo.imp fun regular => regular.made) fun tree => ⟨forth tree, back tree⟩)

end Order

end Packing

namespace Grammar

/-- Over the text `a`, the forest of `B` packs three trees after `A` has been packed, and two
without it. -/
def crossedCounts (g : Grammar) : Bool :=
  let input := Input.ofString "a"
  let chart := (g.recognize input (.nonTerminal "S")).value
  let b : Constituent := ⟨.nonTerminal "B", ⟨0, 1⟩⟩
  let later := Packing.packed g input chart [⟨.nonTerminal "A", ⟨0, 1⟩⟩]
  (Packing.pack g input chart b later).1.map (fun node => node.trees.length) == some 3 &&
    (Packing.pack g input chart b {}).1.map (fun node => node.trees.length) == some 2

theorem erase_ne_of_crossedCounts {g : Grammar} (counts : crossedCounts g = true) :
    let input := Input.ofString "a"
    let chart := (g.recognize input (.nonTerminal "S")).value
    let b : Constituent := ⟨.nonTerminal "B", ⟨0, 1⟩⟩
    let later := Packing.packed g input chart [⟨.nonTerminal "A", ⟨0, 1⟩⟩]
    (Packing.pack g input chart b later).1.map Node.erase ≠
      (Packing.pack g input chart b {}).1.map Node.erase := by
  intro input chart b later same
  obtain ⟨three, two⟩ := Bool.and_eq_true_iff.1 counts
  have equal := Node.numTrees_eq_of_erase same
  have : some 3 = some 2 := (eq_of_beq three).symm.trans (equal.trans (eq_of_beq two))
  cases this

/-- What has been packed before never shows in the structure of a forest just if all cycles of the
grammar over the input are direct. -/
theorem pack_independent_iff {start : Symbol} {script : List Declaration} {g : Grammar}
    (built : (Grammar.ofScript start script).value = .ok g) (input : Input) (root : Symbol) :
    let chart := (g.recognize input root).value
    (∀ (earlier : List Constituent) (constituent : Constituent),
      (Packing.pack g input chart constituent (Packing.packed g input chart earlier)).1.map
          Node.erase =
        (Packing.pack g input chart constituent {}).1.map Node.erase) ↔
      g.OnlyDirectCycles input root := by
  intro chart
  have wired := Wired.of_script built
  have full : chart.Full g input root := wired.full_recognize input root
  constructor
  · intro independent tree derivation called parts
    obtain ⟨earlier, node, packed, inTrees⟩ :=
      Packing.exists_pack_of_parts wired full derivation called parts
    have same := independent earlier tree.constituent
    rw [packed] at same
    obtain ⟨fresh, packedFresh, eq⟩ := Option.map_eq_some_iff.1 same.symm
    have inFresh : tree ∈ fresh.trees := by
      rwa [Node.trees_eq_of_erase eq]
    refine Tree.acyclic_iff.2 fun child isChild => ⟨(parts child isChild).1.acyclic, ?_⟩
    exact Packing.unused_of_fresh wired full packedFresh inFresh child isChild
  · exact fun direct earlier constituent =>
      Packing.erase_pack_of_direct wired full direct earlier [] constituent

/-- `S ::= A | B`, `A ::= B | "a"` and `B ::= A | "a"`: over the text `a`, `B` comes back to itself
by way of `A`, since its forest packs three trees after `A` has been packed, and two of its own. -/
theorem pack_independent_iff_crossed : ∃ g : Grammar,
    (Grammar.ofScript (.nonTerminal "S") Example.crossed).value = .ok g ∧
      ¬ g.OnlyDirectCycles (Input.ofString "a") (.nonTerminal "S") := by
  obtain ⟨g, built, tested⟩ := exists_of_script (.nonTerminal "S") Example.crossed crossedCounts
    (by decide +kernel)
  refine ⟨g, built, fun direct => ?_⟩
  have same := (pack_independent_iff built (Input.ofString "a") (.nonTerminal "S")).2 direct
    [⟨.nonTerminal "A", ⟨0, 1⟩⟩] ⟨.nonTerminal "B", ⟨0, 1⟩⟩
  exact erase_ne_of_crossedCounts tested same

/-- What has been packed before shows: over the text `a`, packing `A` first changes the forest of
`B`. -/
theorem pack_depends_on_order : ∃ g : Grammar,
    (Grammar.ofScript (.nonTerminal "S") Example.crossed).value = .ok g ∧
      let input := Input.ofString "a"
      let chart := (g.recognize input (.nonTerminal "S")).value
      let b : Constituent := ⟨.nonTerminal "B", ⟨0, 1⟩⟩
      let earlier := Packing.packed g input chart [⟨.nonTerminal "A", ⟨0, 1⟩⟩]
      (Packing.pack g input chart b earlier).1.map Node.erase ≠
        (Packing.pack g input chart b {}).1.map Node.erase := by
  obtain ⟨g, built, tested⟩ := exists_of_script (.nonTerminal "S") Example.crossed crossedCounts
    (by decide +kernel)
  exact ⟨g, built, erase_ne_of_crossedCounts tested⟩

end Grammar

end Scannerless
