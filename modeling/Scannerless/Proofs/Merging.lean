import Mathlib.Data.Set.Subsingleton
import Scannerless.Proofs.OpenAmbiguities

/-!
# Merging as a union

`Node.merge?` looks one level into the nodes that it merges. For nodes that the constructors make
(`Node.Built`, which all forests are) that is as deep as ambiguities go, so that what comes of
merging is a set union: it depends only on the structures of the alternatives that the nodes have
(`Node.structures`), in whatever order and however often they come, and it makes no difference
whether some of the nodes have been merged before (`Node.merge?_union`).
-/

namespace Scannerless

namespace Node

/-! ## Nodes that the constructors make -/

/-- A node that is made by the constructors, from such nodes, with whatever ids. -/
inductive Built : Node → Prop
  | leaf (id : Nat) (symbol : Symbol) (text : String) (span : Span) :
    Built (.leaf id symbol text span)
  | branch (id : Nat) (tag : String) (symbol : Symbol) (span : Span) {children : List Node}
    (built : ∀ child ∈ children, Built child) : Built (.branch id tag symbol span children)
  | list {id : Nat} {tag : String} {symbol : Symbol} {span : Span} {separatorArity : Nat}
    {children : List Node} {node : Node} (built : ∀ child ∈ children, Built child)
    (turns : list? id tag symbol span separatorArity children = some node) : Built node
  | ambiguity {id : Nat} {symbol : Symbol} {span : Span} {nodes : List Node} {node : Node}
    (built : ∀ other ∈ nodes, Built other)
    (merged : merge? id symbol span nodes = some node) : Built node

variable {id : Nat} {symbol : Symbol} {span : Span} {nodes others : List Node}
  {node other result : Node}

theorem Built.forked (built : node.Built) : node.Forked := by
  induction built with
  | leaf => exact forked_of_plain rfl
  | branch => exact forked_of_plain rfl
  | list _ turns =>
    obtain ⟨-, rfl⟩ := list?_eq_some_iff.1 turns
    exact forked_of_plain rfl
  | ambiguity _ merged ih => exact forked_of_merge? ih merged

theorem exists_reaches_of_mem_distinct (member : node ∈ distinct nodes) :
    ∃ other ∈ nodes, other.Reaches node := by
  obtain ⟨other, inNodes, isPart⟩ := List.mem_flatMap.1 (mem_sorted member)
  refine ⟨other, inNodes, ?_⟩
  unfold unpacked at isPart
  split at isPart
  · exact .part isPart (.root node)
  · rw [List.mem_singleton.1 isPart]
    exact .root _

/-- All nodes of the forest under a built node are built. -/
theorem Built.of_reaches (built : node.Built) (reaches : node.Reaches other) : other.Built := by
  induction built with
  | leaf id symbol text span =>
    cases reaches with
    | root => exact .leaf id symbol text span
    | part member => cases member
  | branch id tag symbol span parts ih =>
    cases reaches with
    | root => exact .branch id tag symbol span parts
    | part member below => exact ih _ member below
  | list parts turns ih =>
    obtain ⟨-, rfl⟩ := list?_eq_some_iff.1 turns
    cases reaches with
    | root => exact .list parts turns
    | part member below => exact ih _ member below
  | ambiguity parts merged ih =>
    rcases merge?_eq_some_iff.1 merged with single | ⟨-, rfl⟩
    · obtain ⟨first, inNodes, above⟩ :=
        exists_reaches_of_mem_distinct (single ▸ List.mem_singleton_self _)
      exact ih first inNodes (above.trans reaches)
    · cases reaches with
      | root => exact .ambiguity parts merged
      | part member below =>
        obtain ⟨first, inNodes, above⟩ := exists_reaches_of_mem_distinct member
        exact ih first inNodes (above.trans below)

theorem Constructed.built {next : Nat} {made : List Node} (constructed : Constructed next made) :
    ∀ node ∈ made, node.Built := by
  induction constructed with
  | nil => exact fun _ member => absurd member List.not_mem_nil
  | leaf symbol text span _ ih => exact List.forall_mem_cons.2 ⟨.leaf _ symbol text span, ih⟩
  | branch tag symbol span _ known ih =>
    exact List.forall_mem_cons.2
      ⟨.branch _ tag symbol span fun child member => ih child (known child member), ih⟩
  | list _ known turns ih =>
    exact List.forall_mem_cons.2
      ⟨.list (fun child member => ih child (known child member)) turns, ih⟩
  | ambiguity _ known merged ih =>
    exact List.forall_mem_cons.2
      ⟨.ambiguity (fun other member => ih other (known other member)) merged, ih⟩

/-! ## What a node brings -/

theorem unpacked_eq_alternatives (forked : node.Forked) : node.unpacked = node.alternatives := by
  cases node with
  | ambiguity id symbol span alternatives =>
    cases alternatives with
    | nil => exact absurd (forked rfl).1 (Nat.not_succ_le_zero 1)
    | cons => rfl
  | _ => rfl

/-- What the nodes are, an ambiguity being each of its alternatives, apart from ids. -/
def structures (nodes : List Node) : Set Node :=
  { structure_ | ∃ alternative ∈ nodes.flatMap alternatives, alternative.erase = structure_ }

theorem structures_append (nodes others : List Node) :
    structures (nodes ++ others) = structures nodes ∪ structures others := by
  ext structure_
  simp only [structures, List.flatMap_append, List.mem_append, or_and_right, exists_or,
    Set.mem_ofPred_eq, Set.mem_union]

theorem flatMap_unpacked (forked : ∀ node ∈ nodes, node.Forked) :
    nodes.flatMap unpacked = nodes.flatMap alternatives :=
  List.flatMap_congr fun node member => unpacked_eq_alternatives (forked node member)

/-- The nodes that are left by merging have the structures of all that are merged. -/
theorem mem_map_erase_distinct (forked : ∀ node ∈ nodes, node.Forked) {structure_ : Node} :
    structure_ ∈ (distinct nodes).map erase ↔ structure_ ∈ structures nodes := by
  unfold distinct structures
  rw [flatMap_unpacked forked, List.mem_map]
  constructor
  · rintro ⟨part, member, rfl⟩
    exact ⟨part, mem_sorted member, rfl⟩
  · rintro ⟨part, member, rfl⟩
    exact exists_mem_sorted member

theorem map_erase_distinct_congr (forked : ∀ node ∈ nodes, node.Forked)
    (forkedToo : ∀ node ∈ others, node.Forked) (same : structures nodes = structures others) :
    (distinct nodes).map erase = (distinct others).map erase := by
  refine List.Pairwise.eq_of_mem_iff (increasing_sorted _).map_erase
    (increasing_sorted _).map_erase fun structure_ => ?_
  rw [mem_map_erase_distinct forked, mem_map_erase_distinct forkedToo, same]

/-! ## Merging -/

/-- The structure of what is merged is told by the structures that are left of the nodes. -/
theorem map_erase_merge? : (merge? id symbol span nodes).map erase =
    match (distinct nodes).map erase with
    | [] => none
    | [structure_] => some structure_
    | several => some (.ambiguity 0 symbol span several) := by
  unfold merge?
  match distinct nodes with
  | [] => rfl
  | [_] => rfl
  | first :: second :: rest =>
    dsimp only [Option.map_some, List.map_cons]
    rw [erase, eraseAll_eq_map, List.map_cons, List.map_cons]

/-- The alternatives of what is merged are all that is left of the nodes. -/
theorem alternatives_merge? (forked : ∀ node ∈ nodes, node.Forked)
    (merged : merge? id symbol span nodes = some result) :
    result.alternatives = distinct nodes := by
  rcases merge?_eq_some_iff.1 merged with single | ⟨-, rfl⟩
  · have plain := plain_of_mem_distinct forked (single ▸ List.mem_singleton_self result)
    rw [alternatives_of_plain plain, single]
  · rfl

theorem structures_singleton_merge? (forked : ∀ node ∈ nodes, node.Forked)
    (merged : merge? id symbol span nodes = some result) :
    structures [result] = structures nodes := by
  ext structure_
  rw [← mem_map_erase_distinct forked, ← alternatives_merge? forked merged, List.mem_map]
  unfold structures
  rw [List.flatMap_singleton]
  rfl

theorem merge?_of_singleton (forked : ∀ node ∈ nodes, node.Forked) {structure_ : Node}
    (only : structures nodes = {structure_}) :
    ∃ kept ∈ nodes.flatMap alternatives, merge? id symbol span nodes = some kept ∧
      kept.erase = structure_ := by
  have alone : (distinct nodes).map erase = [structure_] := by
    refine List.Pairwise.eq_of_mem_iff (increasing_sorted _).map_erase
      (List.pairwise_singleton _ _) fun other => ?_
    rw [mem_map_erase_distinct forked, only, Set.mem_singleton_iff, List.mem_singleton]
  obtain ⟨kept, single, erase_eq⟩ := List.map_eq_singleton_iff.1 alone
  have member : kept ∈ nodes.flatMap unpacked := by
    refine mem_sorted (?_ : kept ∈ distinct nodes)
    rw [single]
    exact List.mem_singleton_self kept
  exact ⟨kept, flatMap_unpacked forked ▸ member, merge?_eq_some_iff.2 (.inl single), erase_eq⟩

theorem merge?_of_nontrivial (forked : ∀ node ∈ nodes, node.Forked)
    (several : (structures nodes).Nontrivial) :
    ∃ alternatives, merge? id symbol span nodes = some (.ambiguity id symbol span alternatives) ∧
      Increasing alternatives ∧
      ∀ structure_, structure_ ∈ alternatives.map erase ↔ structure_ ∈ structures nodes := by
  obtain ⟨first, isFirst, second, isSecond, different⟩ := several
  rw [← mem_map_erase_distinct forked] at isFirst isSecond
  have many : 2 ≤ (distinct nodes).length := by
    match left : (distinct nodes).map erase with
    | [] => exact absurd (left ▸ isFirst) List.not_mem_nil
    | [_] =>
      rw [left, List.mem_singleton] at isFirst isSecond
      exact absurd (isFirst.trans isSecond.symm) different
    | _ :: _ :: rest =>
      rw [← List.length_map erase, left]
      exact Nat.le_add_left 2 rest.length
  exact ⟨distinct nodes, merge?_eq_some_iff.2 (.inr ⟨many, rfl⟩), increasing_sorted _,
    fun _ => mem_map_erase_distinct forked⟩

/-! ## Forests that are built -/

theorem insertInto_of_greatest (greatest : ∀ other ∈ nodes, cmp other node = .lt) :
    node.insertInto nodes = nodes ++ [node] := by
  induction nodes with
  | nil => rfl
  | cons head rest ih =>
    have greater : cmp node head = .gt := by
      rw [cmp_swap, greatest head List.mem_cons_self]
      rfl
    rw [insertInto, greater]
    dsimp only
    rw [ih fun other member => greatest other (List.mem_cons_of_mem head member), List.cons_append]

theorem sorted_of_increasing (increasing : Increasing nodes) : sorted nodes = nodes := by
  have general : ∀ rest set : List Node, Increasing (set ++ rest) →
      rest.foldl (fun set node => node.insertInto set) set = set ++ rest := by
    intro rest
    induction rest with
    | nil => exact fun set _ => (List.append_nil set).symm
    | cons head rest ih =>
      intro set increasing
      have greatest : ∀ other ∈ set, cmp other head = .lt := fun other member =>
        (List.pairwise_append.1 increasing).2.2 other member head List.mem_cons_self
      rw [List.append_cons] at increasing
      rw [List.foldl_cons, insertInto_of_greatest greatest, ih _ increasing, List.append_assoc,
        List.singleton_append]
  exact general nodes [] increasing

/-- An ambiguity is what merging makes of its alternatives. -/
theorem merge?_of_increasing (plain : ∀ node ∈ nodes, node.isAmbiguous = false)
    (increasing : Increasing nodes) (several : 2 ≤ nodes.length) :
    merge? id symbol span nodes = some (.ambiguity id symbol span nodes) := by
  have whole : nodes.flatMap unpacked = nodes := by
    rw [flatMap_unpacked fun node member => forked_of_plain (plain node member),
      List.flatMap_congr fun node member => alternatives_of_plain (plain node member)]
    exact List.flatMap_singleton' nodes
  have left : distinct nodes = nodes := by
    unfold distinct
    rw [whole, sorted_of_increasing increasing]
  rw [merge?_eq_some_iff, left]
  exact .inr ⟨several, rfl⟩

theorem FaithfulTo.built {g : Grammar} {input : Input} {chart : Chart} :
    ∀ {constituent : Constituent}, node.FaithfulTo g input constituent →
      node.All (Made g chart) → node.Built := by
  induction node using induction_parts with
  | step node ih =>
    intro constituent faithful all
    have below : ∀ part ∈ node.parts, part.Built := fun part member =>
      ih part member (faithful.part member) (all.part member)
    have sound := faithful.sound (.root node)
    cases node with
    | leaf => exact .leaf _ _ _ _
    | branch => exact .branch _ _ _ _ below
    | list id tag symbol span arity children =>
      have alternating : Alternating arity children := by
        cases sound with
        | list _ _ kind _ reduces =>
          rcases reduces.expands.length_mod kind with none_ | turns
          · exact .inl (List.map_eq_nil_iff.1 none_)
          · rw [List.length_map] at turns
            exact .inr turns
      have turns : list? id tag symbol span arity children =
          some (.list id tag symbol span arity children) :=
        list?_eq_some_iff.2 ⟨alternating, rfl⟩
      exact .list below turns
    | ambiguity id symbol span alternatives =>
      obtain ⟨several, plain⟩ := sound.forked rfl
      have increasing := (faithful.alternatives_apart all).2.1
      exact .ambiguity below (merge?_of_increasing plain increasing several)

/-- All forests that there are, those of parsed texts included, are made by the constructors. -/
theorem IsForest.built {root : Node} (forest : root.IsForest) : root.Built := by
  cases forest with
  | made constructed member => exact constructed.built root member
  | parsed grammar parsed =>
    have wired := Grammar.Wired.of_script grammar
    obtain ⟨registry, all⟩ := wired.regular_of_parsed parsed
    exact (wired.faithful_of_parsed parsed).built (all.imp fun regular => regular.made)

/-! ## The laws of merging -/

/-- In forests an ambiguity has two alternatives or more, and none of them is an ambiguity. What
merging makes of nodes depends only on the structures of their alternatives: of none it makes
nothing, of one the node itself, and of several an ambiguity of the symbol and span with just these.
Nodes may be merged first and the result with others, or all at once. -/
theorem merge?_union :
    (∀ {root : Node}, root.IsForest → root.Built) ∧
    (∀ {node other : Node}, node.Built → node.Reaches other → other.isAmbiguous = true →
      2 ≤ other.alternatives.length ∧
        ∀ alternative ∈ other.alternatives, alternative.isAmbiguous = false) ∧
    ∀ {xs ys : List Node}, (∀ node ∈ xs, node.Built) → (∀ node ∈ ys, node.Built) →
      ∀ (symbol : Symbol) (span : Span) (id idToo : Nat),
        (structures xs = structures ys →
          (merge? id symbol span xs).map erase = (merge? idToo symbol span ys).map erase) ∧
        (merge? id symbol span xs = none ↔ xs = []) ∧
        (∀ structure_, structures xs = {structure_} → ∃ kept ∈ xs.flatMap alternatives,
          merge? id symbol span xs = some kept ∧ kept.erase = structure_) ∧
        ((structures xs).Nontrivial → ∃ alternatives,
          merge? id symbol span xs = some (.ambiguity id symbol span alternatives) ∧
          Increasing alternatives ∧
          ∀ structure_, structure_ ∈ alternatives.map erase ↔ structure_ ∈ structures xs) ∧
        ∀ {merged : Node}, merge? idToo symbol span ys = some merged → ∀ idLast idAtOnce : Nat,
          (merge? idLast symbol span (xs ++ [merged])).map erase =
            (merge? idAtOnce symbol span (xs ++ ys)).map erase := by
  refine ⟨IsForest.built, fun {node other} built reaches ambiguous => ?_, ?_⟩
  · have forked := (built.of_reaches reaches).forked ambiguous
    cases other with
    | ambiguity => exact forked
    | _ => cases ambiguous
  intro xs ys builtXs builtYs symbol span id idToo
  have forkedXs : ∀ node ∈ xs, node.Forked := fun node member => (builtXs node member).forked
  have forkedYs : ∀ node ∈ ys, node.Forked := fun node member => (builtYs node member).forked
  refine ⟨fun same => ?_, merge?_eq_none_iff, fun structure_ => merge?_of_singleton forkedXs,
    merge?_of_nontrivial forkedXs, fun {merged} isMerged idLast idAtOnce => ?_⟩
  · rw [map_erase_merge?, map_erase_merge?, map_erase_distinct_congr forkedXs forkedYs same]
  · have forkedBoth : ∀ node ∈ xs ++ ys, node.Forked :=
      List.forall_mem_append.2 ⟨forkedXs, forkedYs⟩
    have forkedMerged : ∀ node ∈ xs ++ [merged], node.Forked :=
      List.forall_mem_append.2 ⟨forkedXs, List.forall_mem_singleton.2
        (forked_of_merge? forkedYs isMerged)⟩
    have same : structures (xs ++ [merged]) = structures (xs ++ ys) := by
      rw [structures_append, structures_append, structures_singleton_merge? forkedYs isMerged]
    rw [map_erase_merge?, map_erase_merge?, map_erase_distinct_congr forkedMerged forkedBoth same]

end Node

namespace Grammar

/-- Two nodes of `A` over the same text are merged; one of them comes again, with another id. -/
theorem merge?_union_letters :
    let first := sharedLetter 1 "First"
    let second := sharedLetter 2 "Second"
    let again := sharedLetter 4 "First"
    ∃ both kept, Node.merge? 3 (.nonTerminal "A") ⟨0, 1⟩ [first, second] = some both ∧
      both.Built ∧ both.isAmbiguous = true ∧ 2 ≤ both.alternatives.length ∧
      (Node.merge? 5 (.nonTerminal "A") ⟨0, 1⟩ ([again] ++ [both])).map Node.erase =
        (Node.merge? 6 (.nonTerminal "A") ⟨0, 1⟩ ([again] ++ [first, second])).map Node.erase ∧
      (Node.merge? 7 (.nonTerminal "A") ⟨0, 1⟩ [second, again, first]).map Node.erase =
        (Node.merge? 8 (.nonTerminal "A") ⟨0, 1⟩ [first, second]).map Node.erase ∧
      Node.merge? 9 (.nonTerminal "A") ⟨0, 1⟩ [first, again] = some kept ∧
      kept.erase = first.erase := by
  intro first second again
  have letter : ∀ id tag, (sharedLetter id tag).Built := fun id tag =>
    .branch _ _ _ _ (List.forall_mem_singleton.2 (.leaf _ _ _ _))
  have builtTwo : ∀ node ∈ [first, second], node.Built :=
    List.forall_mem_cons.2 ⟨letter _ _, List.forall_mem_singleton.2 (letter _ _)⟩
  have builtThree : ∀ node ∈ [second, again, first], node.Built :=
    List.forall_mem_cons.2 ⟨letter _ _, List.forall_mem_cons.2
      ⟨letter _ _, List.forall_mem_singleton.2 (letter _ _)⟩⟩
  have builtTwice : ∀ node ∈ [first, again], node.Built :=
    List.forall_mem_cons.2 ⟨letter _ _, List.forall_mem_singleton.2 (letter _ _)⟩
  have alike : again.erase = first.erase := rfl
  obtain ⟨-, flat, laws⟩ := Node.merge?_union
  have merged : Node.merge? 3 (.nonTerminal "A") ⟨0, 1⟩ [first, second] =
      some (.ambiguity 3 (.nonTerminal "A") ⟨0, 1⟩ [first, second]) := rfl
  have built := Node.Built.ambiguity builtTwo merged
  obtain ⟨-, -, -, -, associative⟩ := laws (List.forall_mem_singleton.2 (letter 4 "First"))
    builtTwo (.nonTerminal "A") ⟨0, 1⟩ 0 3
  obtain ⟨sameMerged, -⟩ := laws builtThree builtTwo (.nonTerminal "A") ⟨0, 1⟩ 7 8
  obtain ⟨-, -, single, -⟩ := laws builtTwice builtTwo (.nonTerminal "A") ⟨0, 1⟩ 9 0
  have same : Node.structures [second, again, first] = Node.structures [first, second] := by
    ext structure_
    simp [Node.structures, first, second, again, sharedLetter, Node.alternatives, Node.erase,
      Node.eraseAll, or_comm]
  have only : Node.structures [first, again] = {first.erase} := by
    ext structure_
    simp [Node.structures, first, again, sharedLetter, Node.alternatives, Node.erase,
      Node.eraseAll, eq_comm]
  obtain ⟨kept, -, isKept, erase_eq⟩ := single first.erase only
  exact ⟨_, kept, merged, built, rfl, (flat built (.root _) rfl).1, associative merged 5 6,
    sameMerged same, isKept, erase_eq⟩

end Grammar

end Scannerless
