import Mathlib.Data.List.Sort
import Scannerless.Proofs.MadeNodes

/-!
# Canonical forests

A forest is told by its trees. All trees of a reduction have its outline, and the alternatives of an
ambiguity are in increasing order and have different outlines, so that each tree of an ambiguity is
of one alternative only. `Node.FaithfulTo.erase_eq_of_trees`: forests of made nodes that hold the
same trees have the same structure.
-/

namespace Scannerless

/-- The label of a reduction and the spans of its children. -/
def Tree.outline : Tree → Outline
  | .leaf .. => (none, [])
  | .reduction tag _ _ _ children => (some tag, children.map Tree.span)

namespace Node

section Trees

variable {g : Grammar} {input : Input} {chart : Chart} {node : Node} {constituent : Constituent}
  {tree : Tree}

/-- All trees of a node that is no ambiguity have its outline. -/
theorem FaithfulTo.outline_eq (wired : g.Wired) (faithful : node.FaithfulTo g input constituent)
    (plain : node.isAmbiguous = false) (inTrees : tree ∈ node.trees) :
    tree.outline = node.outline := by
  have spans : ∀ {chosen : List Tree}, chosen ∈ choices node.parts →
      chosen.map Tree.span = node.parts.map Node.span := by
    intro chosen isChoice
    have each : ∀ part ∈ node.parts, ∀ tree ∈ part.trees,
        tree.constituent = part.constituent ∧ True := fun part member tree inPart =>
      ⟨((faithful.part member).derivation wired tree inPart).1, trivial⟩
    have same := congrArg (List.map Constituent.span) (choices_of_trees each isChoice).1
    rwa [List.map_map, List.map_map] at same
  cases node with
  | leaf =>
    rw [List.mem_singleton.1 inTrees]
    rfl
  | branch id tag symbol span children =>
    obtain ⟨chosen, isChoice, rfl⟩ := List.mem_map.1 inTrees
    exact congrArg (some tag, ·) (spans isChoice)
  | list id tag symbol span arity children =>
    obtain ⟨chosen, isChoice, rfl⟩ := List.mem_map.1 inTrees
    exact congrArg (some tag, ·) (spans isChoice)
  | ambiguity => cases plain

theorem exists_alternative_iff :
    (∃ alternative ∈ node.alternatives, tree ∈ alternative.trees) ↔ tree ∈ node.trees := by
  cases node with
  | ambiguity id symbol span alternatives => exact mem_treesOfAny_iff.symm
  | _ => simp [alternatives]

/-! ## Alternatives -/

/-- The alternatives of a node are in increasing order and have different outlines. -/
theorem FaithfulTo.alternatives_apart (faithful : node.FaithfulTo g input constituent)
    (all : node.All (Made g chart)) :
    (∀ alternative ∈ node.alternatives, alternative.isAmbiguous = false ∧
      alternative.FaithfulTo g input constituent ∧ alternative.All (Made g chart)) ∧
    Increasing node.alternatives ∧ (node.alternatives.map outline).Nodup := by
  have single : node.isAmbiguous = false → node.alternatives = [node] →
      (∀ alternative ∈ node.alternatives, alternative.isAmbiguous = false ∧
        alternative.FaithfulTo g input constituent ∧ alternative.All (Made g chart)) ∧
      Increasing node.alternatives ∧ (node.alternatives.map outline).Nodup := by
    intro plain only
    rw [only]
    refine ⟨fun alternative member => ?_, List.pairwise_singleton _ _, List.nodup_singleton _⟩
    rw [List.mem_singleton.1 member]
    exact ⟨plain, faithful, all⟩
  cases node with
  | ambiguity id symbol span alternatives =>
    obtain ⟨rfl, sound⟩ := faithful
    have whole := sound (.root _)
    cases whole with
    | ambiguity _ _ plain alike =>
      have made := all.here
      cases made with
      | reduction listed =>
        obtain ⟨reduction, -, eq⟩ := List.mem_map.1 listed
        cases congrArg Prod.fst eq
      | ambiguity _ increasing outlines _ =>
        refine ⟨fun alternative member => ⟨plain alternative member, ⟨?_, ?_⟩, ?_⟩, increasing,
          outlines⟩
        · exact alike alternative member
        · exact fun reaches => sound (.part member reaches)
        · exact all.part member
  | _ => exact single rfl rfl

/-- A tree of a node is of the alternative that has its outline. -/
theorem FaithfulTo.mem_trees_alternative (wired : g.Wired)
    (faithful : node.FaithfulTo g input constituent) (all : node.All (Made g chart))
    {alternative : Node} (member : alternative ∈ node.alternatives) (inTrees : tree ∈ node.trees)
    (outline_eq : tree.outline = alternative.outline) : tree ∈ alternative.trees := by
  obtain ⟨each, -, outlines⟩ := faithful.alternatives_apart all
  obtain ⟨own, isOwn, inOwn⟩ := exists_alternative_iff.2 inTrees
  obtain ⟨plain, faithfulOwn, -⟩ := each own isOwn
  have same : own = alternative := List.inj_on_of_nodup_map outlines isOwn member
    ((faithfulOwn.outline_eq wired plain inOwn).symm.trans outline_eq)
  exact same ▸ inOwn

/-- Nodes with the same trees have alternatives with the same trees. -/
theorem FaithfulTo.exists_same_alternative (wired : g.Wired) {other : Node}
    (faithful : node.FaithfulTo g input constituent) (all : node.All (Made g chart))
    (faithfulToo : other.FaithfulTo g input constituent) (allToo : other.All (Made g chart))
    (same : ∀ tree : Tree, tree ∈ node.trees ↔ tree ∈ other.trees) {alternative : Node}
    (member : alternative ∈ node.alternatives) :
    ∃ opposite ∈ other.alternatives,
      ∀ tree : Tree, tree ∈ alternative.trees ↔ tree ∈ opposite.trees := by
  obtain ⟨plain, faithfulHere, -⟩ := (faithful.alternatives_apart all).1 alternative member
  have outline_of : ∀ {tree : Tree}, tree ∈ alternative.trees →
      tree.outline = alternative.outline :=
    fun inTrees => faithfulHere.outline_eq wired plain inTrees
  obtain ⟨first, inFirst⟩ := faithfulHere.exists_tree
  obtain ⟨opposite, isOpposite, inOpposite⟩ := exists_alternative_iff.2
    ((same first).1 (exists_alternative_iff.1 ⟨alternative, member, inFirst⟩))
  obtain ⟨plainThere, faithfulThere, -⟩ := (faithfulToo.alternatives_apart allToo).1 _ isOpposite
  have outlines_eq : alternative.outline = opposite.outline :=
    (outline_of inFirst).symm.trans (faithfulThere.outline_eq wired plainThere inOpposite)
  refine ⟨opposite, isOpposite, fun tree => ⟨fun inTrees => ?_, fun inTrees => ?_⟩⟩
  · refine faithfulToo.mem_trees_alternative wired allToo isOpposite ?_
      ((outline_of inTrees).trans outlines_eq)
    exact (same tree).1 (exists_alternative_iff.1 ⟨alternative, member, inTrees⟩)
  · refine faithful.mem_trees_alternative wired all member ?_
      ((faithfulThere.outline_eq wired plainThere inTrees).trans outlines_eq.symm)
    exact (same tree).2 (exists_alternative_iff.1 ⟨opposite, isOpposite, inTrees⟩)

/-! ## Structures -/

/-- Nodes that leave the same choices have the same structures, if nodes with the same trees do. -/
theorem eraseAll_eq_of_choices {nodes : List Node} :
    ∀ {others : List Node}, (∀ node ∈ nodes, ∃ tree, tree ∈ node.trees) →
      (∀ other ∈ others, ∃ tree, tree ∈ other.trees) →
      (∀ node ∈ nodes, ∀ other ∈ others, (∀ tree : Tree, tree ∈ node.trees ↔ tree ∈ other.trees) →
        node.erase = other.erase) →
      (∀ chosen : List Tree, chosen ∈ choices nodes ↔ chosen ∈ choices others) →
        eraseAll nodes = eraseAll others := by
  induction nodes with
  | nil =>
    intro others _ _ _ same
    have empty := (same []).1 (List.mem_singleton.2 rfl)
    rw [List.forall₂_nil_left_iff.1 (mem_choices_iff.1 empty)]
  | cons node rest ih =>
    intro others some_ someToo each same
    obtain ⟨chosen, isChoice⟩ := exists_mem_choices some_
    cases others with
    | nil =>
      obtain ⟨tree, others, rfl⟩ : ∃ tree others, chosen = tree :: others := by
        cases mem_choices_iff.1 isChoice with
        | cons => exact ⟨_, _, rfl⟩
      cases mem_choices_iff.1 ((same _).1 isChoice)
    | cons other restToo =>
      obtain ⟨first, further, rfl⟩ : ∃ first further, chosen = first :: further := by
        cases mem_choices_iff.1 isChoice with
        | cons => exact ⟨_, _, rfl⟩
      obtain ⟨inNode, inRest⟩ := cons_mem_choices_iff.1 isChoice
      obtain ⟨inOther, inRestToo⟩ := cons_mem_choices_iff.1 ((same _).1 isChoice)
      have heads : node.erase = other.erase := by
        refine each node List.mem_cons_self other List.mem_cons_self fun tree => ?_
        have both := same (tree :: further)
        rw [cons_mem_choices_iff, cons_mem_choices_iff] at both
        simpa [inRest, inRestToo] using both
      have tails : eraseAll rest = eraseAll restToo := by
        refine ih (fun n member => some_ n (List.mem_cons_of_mem _ member))
          (fun n member => someToo n (List.mem_cons_of_mem _ member))
          (fun n member o memberToo =>
            each n (List.mem_cons_of_mem _ member) o (List.mem_cons_of_mem _ memberToo))
          fun chosen => ?_
        have both := same (first :: chosen)
        rw [cons_mem_choices_iff, cons_mem_choices_iff] at both
        simpa [inNode, inOther] using both
      rw [eraseAll, eraseAll, heads, tails]

/-- Reductions with the same trees have parts of the same structures, if parts with the same trees
do. -/
theorem FaithfulTo.eraseAll_parts_eq {other : Node} {constituentToo : Constituent}
    (faithful : node.FaithfulTo g input constituent)
    (faithfulToo : other.FaithfulTo g input constituentToo) {wrap : List Tree → Tree}
    (injective : Function.Injective wrap) (reduces : node.trees = (choices node.parts).map wrap)
    (reducesToo : other.trees = (choices other.parts).map wrap)
    (same : ∀ tree : Tree, tree ∈ node.trees ↔ tree ∈ other.trees)
    (each : ∀ part ∈ node.parts, ∀ partToo ∈ other.parts,
      (∀ tree : Tree, tree ∈ part.trees ↔ tree ∈ partToo.trees) → part.erase = partToo.erase) :
    eraseAll node.parts = eraseAll other.parts := by
  refine eraseAll_eq_of_choices (fun part member => (faithful.part member).exists_tree)
    (fun part member => (faithfulToo.part member).exists_tree) each fun chosen => ?_
  have both := same (wrap chosen)
  rwa [reduces, reducesToo, List.mem_map_of_injective injective,
    List.mem_map_of_injective injective] at both

/-- Reductions with the same trees have the same structure, if parts with the same trees do. -/
theorem FaithfulTo.erase_eq_of_plain {other : Node} {constituentToo : Constituent}
    (faithful : node.FaithfulTo g input constituent)
    (faithfulToo : other.FaithfulTo g input constituentToo) (plain : node.isAmbiguous = false)
    (plainToo : other.isAmbiguous = false)
    (same : ∀ tree : Tree, tree ∈ node.trees ↔ tree ∈ other.trees)
    (each : ∀ part ∈ node.parts, ∀ partToo ∈ other.parts,
      (∀ tree : Tree, tree ∈ part.trees ↔ tree ∈ partToo.trees) → part.erase = partToo.erase) :
    node.erase = other.erase := by
  obtain ⟨tree, inTrees⟩ := faithful.exists_tree
  have inTreesToo := (same tree).1 inTrees
  cases node with
  | leaf =>
    cases List.mem_singleton.1 inTrees
    cases other with
    | leaf =>
      cases List.mem_singleton.1 inTreesToo
      rfl
    | ambiguity => cases plainToo
    | _ =>
      obtain ⟨_, _, eq⟩ := List.mem_map.1 inTreesToo
      cases eq
  | branch id tag symbol span nodes =>
    obtain ⟨chosen, -, rfl⟩ := List.mem_map.1 inTrees
    cases other with
    | leaf => cases List.mem_singleton.1 inTreesToo
    | ambiguity => cases plainToo
    | list =>
      obtain ⟨_, _, eq⟩ := List.mem_map.1 inTreesToo
      cases eq
    | branch =>
      obtain ⟨_, _, eq⟩ := List.mem_map.1 inTreesToo
      cases eq
      have injective : Function.Injective (Tree.reduction tag symbol span none) := by
        intro chosen further eq
        injection eq
      rw [erase, erase]
      exact congrArg _ (faithful.eraseAll_parts_eq faithfulToo injective rfl rfl same each)
  | list id tag symbol span arity nodes =>
    obtain ⟨chosen, -, rfl⟩ := List.mem_map.1 inTrees
    cases other with
    | leaf => cases List.mem_singleton.1 inTreesToo
    | ambiguity => cases plainToo
    | branch =>
      obtain ⟨_, _, eq⟩ := List.mem_map.1 inTreesToo
      cases eq
    | list =>
      obtain ⟨_, _, eq⟩ := List.mem_map.1 inTreesToo
      cases eq
      have injective : Function.Injective (Tree.reduction tag symbol span (some arity)) := by
        intro chosen further eq
        injection eq
      rw [erase, erase]
      exact congrArg _ (faithful.eraseAll_parts_eq faithfulToo injective rfl rfl same each)
  | ambiguity => cases plain

theorem alternatives_eq (node : Node) :
    node.alternatives = node.parts ∨ node.alternatives = [node] := by
  cases node with
  | ambiguity => exact .inl rfl
  | _ => exact .inr rfl

theorem alternatives_of_plain {node : Node} (plain : node.isAmbiguous = false) :
    node.alternatives = [node] := by
  cases node with
  | ambiguity => cases plain
  | _ => rfl

instance : Std.Irrefl fun structure_ other : Node => cmp structure_ other = .lt where
  irrefl structure_ less := by
    rw [cmp_self] at less
    cases less

instance : Std.Antisymm fun structure_ other : Node => cmp structure_ other = .lt where
  antisymm structure_ other less more := by
    rw [cmp_swap, more] at less
    cases less

theorem Increasing.map_erase {nodes : List Node} (increasing : Increasing nodes) :
    Increasing (nodes.map erase) := by
  refine List.pairwise_map.2 (List.Pairwise.imp (fun {node other} less => ?_) increasing)
  rwa [cmp_erase]

theorem eraseAll_eq_map (nodes : List Node) : eraseAll nodes = nodes.map erase := by
  induction nodes with
  | nil => rfl
  | cons node rest ih => rw [eraseAll, ih, List.map_cons]

/-- The structures of its alternatives tell the structure of a node. -/
theorem FaithfulTo.erase_eq_of_alternatives {other : Node}
    (faithful : node.FaithfulTo g input constituent)
    (faithfulToo : other.FaithfulTo g input constituent)
    (same : node.alternatives.map erase = other.alternatives.map erase) :
    node.erase = other.erase := by
  have several : ∀ {id : Nat} {symbol : Symbol} {span : Span} {alternatives : List Node},
      (ambiguity id symbol span alternatives).FaithfulTo g input constituent →
        ∀ structure_, alternatives.map erase ≠ [structure_] := by
    intro id symbol span alternatives faithful structure_ single
    have whole := faithful.sound (.root _)
    cases whole with
    | ambiguity several =>
      have length := congrArg List.length single
      rw [List.length_map, List.length_singleton] at length
      omega
  cases node with
  | ambiguity id symbol span alternatives =>
    cases other with
    | ambiguity =>
      obtain ⟨rfl, -⟩ := faithful
      cases faithfulToo.constituent_eq
      rw [erase, erase, eraseAll_eq_map, eraseAll_eq_map]
      exact congrArg _ same
    | _ => exact absurd same (several faithful _)
  | _ =>
    cases other with
    | ambiguity => exact absurd same.symm (several faithfulToo _)
    | _ => exact List.singleton_inj.1 same

/-- Forests of made nodes that hold the same trees have the same structure. -/
theorem FaithfulTo.erase_eq_of_trees (wired : g.Wired) :
    ∀ {constituent : Constituent} {other : Node}, node.FaithfulTo g input constituent →
      other.FaithfulTo g input constituent → node.All (Made g chart) → other.All (Made g chart) →
      (∀ tree : Tree, tree ∈ node.trees ↔ tree ∈ other.trees) → node.erase = other.erase := by
  induction node using induction_parts with
  | step node ih =>
    intro constituent other faithful faithfulToo all allToo same
    have here := faithful.alternatives_apart all
    have there := faithfulToo.alternatives_apart allToo
    have each : ∀ alternative ∈ node.alternatives, ∀ opposite ∈ other.alternatives,
        (∀ tree : Tree, tree ∈ alternative.trees ↔ tree ∈ opposite.trees) →
          alternative.erase = opposite.erase := by
      intro alternative member opposite memberToo sameTrees
      obtain ⟨plain, faithfulHere, allHere⟩ := here.1 alternative member
      obtain ⟨plainToo, faithfulThere, allThere⟩ := there.1 opposite memberToo
      rcases alternatives_eq node with parts | single
      · rw [parts] at member
        exact ih alternative member faithfulHere faithfulThere allHere allThere sameTrees
      · rw [single, List.mem_singleton] at member
        subst member
        refine faithful.erase_eq_of_plain faithfulThere plain plainToo sameTrees ?_
        intro part isPart partToo isPartToo samePart
        have below := faithful.part isPart
        have belowToo := faithfulThere.part isPartToo
        obtain ⟨tree, inPart⟩ := below.exists_tree
        have constituent_eq : partToo.constituent = part.constituent :=
          (belowToo.derivation wired tree ((samePart tree).1 inPart)).1.symm.trans
            (below.derivation wired tree inPart).1
        exact ih part isPart below (constituent_eq ▸ belowToo) (all.part isPart)
          (allThere.part isPartToo) samePart
    refine faithful.erase_eq_of_alternatives faithfulToo ?_
    refine List.Pairwise.eq_of_mem_iff here.2.1.map_erase there.2.1.map_erase fun structure_ => ?_
    rw [List.mem_map, List.mem_map]
    constructor
    · rintro ⟨alternative, member, rfl⟩
      obtain ⟨opposite, isOpposite, sameTrees⟩ :=
        faithful.exists_same_alternative wired all faithfulToo allToo same member
      exact ⟨opposite, isOpposite, (each _ member _ isOpposite sameTrees).symm⟩
    · rintro ⟨opposite, member, rfl⟩
      obtain ⟨alternative, isAlternative, sameTrees⟩ :=
        faithfulToo.exists_same_alternative wired allToo faithful all (fun tree => (same tree).symm)
          member
      exact ⟨alternative, isAlternative,
        each _ isAlternative _ member fun tree => (sameTrees tree).symm⟩

end Trees

end Node

end Scannerless
