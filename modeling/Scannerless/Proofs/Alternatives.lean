import Scannerless.Proofs.Trees

/-!
# Alternatives

The laws of the order of nodes, and what comes of them: the alternatives of an ambiguity differ in
structure, and `Node.merge?` packs the trees of the nodes that it merges, each of them and no other.
-/

namespace Scannerless

namespace Node

/-! ## The laws of the order -/

/-- Comparing first parts and deciding ties by second parts is transitive where both are and where
first parts that tie compare alike. -/
theorem then_lt_of_lt {ab bc ac ab' bc' ac' : Ordering}
    (trans : ab = .lt → bc = .lt → ac = .lt) (left : ab = .eq → ac = bc)
    (right : bc = .eq → ac = ab) (rest : ab' = .lt → bc' = .lt → ac' = .lt) :
    ab.then ab' = .lt → bc.then bc' = .lt → ac.then ac' = .lt := by
  simp only [Ordering.then_eq_lt]
  rintro (first | ⟨first, more⟩) (second | ⟨second, others⟩)
  · exact .inl (trans first second)
  · exact .inl ((right second).trans first)
  · exact .inl ((left first).trans second)
  · exact .inr ⟨(left first).trans second, rest more others⟩

/-- The same for parts that are told apart by their order. -/
theorem compare_then_lt {α : Type} [Ord α] [Std.TransOrd α] [Std.LawfulEqOrd α] {a b c : α}
    {ab bc ac : Ordering} (rest : ab = .lt → bc = .lt → ac = .lt) :
    (compare a b).then ab = .lt → (compare b c).then bc = .lt → (compare a c).then ac = .lt := by
  refine then_lt_of_lt Std.TransCmp.lt_trans ?_ ?_ rest
  · intro same
    rw [Std.LawfulEqOrd.eq_of_compare same]
  · intro same
    rw [Std.LawfulEqOrd.eq_of_compare same]

mutual

theorem cmp_self : ∀ node : Node, cmp node node = .eq
  | leaf _ symbol text span => by simp [cmp]
  | branch _ tag symbol span children => by simp [cmp, cmpAll_self children]
  | list _ tag symbol span arity children => by simp [cmp, cmpAll_self children]
  | ambiguity _ symbol span alternatives => by simp [cmp, cmpAll_self alternatives]

theorem cmpAll_self : ∀ nodes : List Node, cmpAll nodes nodes = .eq
  | [] => rfl
  | node :: rest => by simp [cmpAll, cmp_self node, cmpAll_self rest]

end

mutual

/-- Ids play no part in the order. -/
theorem cmp_erase : ∀ node other : Node, cmp node.erase other.erase = cmp node other
  | leaf .., other => by cases other <;> simp [erase, cmp, rank]
  | branch _ _ _ _ children, other => by
    cases other <;> simp [erase, cmp, rank, cmpAll_eraseAll children]
  | list _ _ _ _ _ children, other => by
    cases other <;> simp [erase, cmp, rank, cmpAll_eraseAll children]
  | ambiguity _ _ _ alternatives, other => by
    cases other <;> simp [erase, cmp, rank, cmpAll_eraseAll alternatives]

theorem cmpAll_eraseAll : ∀ nodes others : List Node,
    cmpAll (eraseAll nodes) (eraseAll others) = cmpAll nodes others
  | [], [] => rfl
  | [], _ :: _ => rfl
  | _ :: _, [] => rfl
  | node :: rest, other :: others => by
    simp only [eraseAll, cmpAll, cmp_erase node other, cmpAll_eraseAll rest others]

end

mutual

theorem erase_eq_of_cmp : ∀ {node other : Node}, cmp node other = .eq →
    node.erase = other.erase
  | leaf .., other, same => by
    cases other with
    | leaf => simp_all [cmp, erase, Ordering.then_eq_eq]
    | _ => exact absurd same (by simp [cmp, rank])
  | branch _ _ _ _ children, other, same => by
    cases other with
    | branch =>
      simp only [cmp, Ordering.then_eq_eq, Std.LawfulEqOrd.compare_eq_iff_eq] at same
      obtain ⟨tag, symbol, span, children⟩ := same
      rw [erase, erase, tag, symbol, span, eraseAll_eq_of_cmpAll children]
    | _ => exact absurd same (by simp [cmp, rank])
  | list _ _ _ _ _ children, other, same => by
    cases other with
    | list =>
      simp only [cmp, Ordering.then_eq_eq, Std.LawfulEqOrd.compare_eq_iff_eq] at same
      obtain ⟨tag, symbol, span, arity, children⟩ := same
      rw [erase, erase, tag, symbol, span, arity, eraseAll_eq_of_cmpAll children]
    | _ => exact absurd same (by simp [cmp, rank])
  | ambiguity _ _ _ alternatives, other, same => by
    cases other with
    | ambiguity =>
      simp only [cmp, Ordering.then_eq_eq, Std.LawfulEqOrd.compare_eq_iff_eq] at same
      obtain ⟨symbol, span, alternatives⟩ := same
      rw [erase, erase, symbol, span, eraseAll_eq_of_cmpAll alternatives]
    | _ => exact absurd same (by simp [cmp, rank])

theorem eraseAll_eq_of_cmpAll : ∀ {nodes others : List Node}, cmpAll nodes others = .eq →
    eraseAll nodes = eraseAll others
  | [], [], _ => rfl
  | [], _ :: _, same => by simp [cmpAll] at same
  | _ :: _, [], same => by simp [cmpAll] at same
  | node :: rest, other :: others, same => by
    simp only [cmpAll, Ordering.then_eq_eq] at same
    rw [eraseAll, eraseAll, erase_eq_of_cmp same.1, eraseAll_eq_of_cmpAll same.2]

end

/-- Nodes tie if they have the same structure. -/
theorem cmp_eq_iff {node other : Node} : cmp node other = .eq ↔ node.erase = other.erase := by
  constructor
  · exact erase_eq_of_cmp
  · intro same
    rw [← cmp_erase, same, cmp_self]

theorem cmp_congr_left {node same other : Node} (tie : cmp node same = .eq) :
    cmp node other = cmp same other := by
  rw [← cmp_erase node, erase_eq_of_cmp tie, cmp_erase]

theorem cmp_congr_right {node other same : Node} (tie : cmp other same = .eq) :
    cmp node same = cmp node other := by
  rw [← cmp_erase node other, erase_eq_of_cmp tie, cmp_erase]

mutual

theorem cmp_swap : ∀ node other : Node, cmp node other = (cmp other node).swap
  | leaf _ symbol text span, other => by
    cases other with
    | leaf _ symbol' text' span' =>
      simp only [cmp, Ordering.swap_then]
      rw [Std.OrientedOrd.eq_swap (a := symbol), Std.OrientedOrd.eq_swap (a := text),
        Std.OrientedOrd.eq_swap (a := span)]
    | _ => rfl
  | branch _ tag symbol span children, other => by
    cases other with
    | branch _ tag' symbol' span' children' =>
      simp only [cmp, Ordering.swap_then]
      rw [Std.OrientedOrd.eq_swap (a := tag), Std.OrientedOrd.eq_swap (a := symbol),
        Std.OrientedOrd.eq_swap (a := span), cmpAll_swap children]
    | _ => rfl
  | list _ tag symbol span arity children, other => by
    cases other with
    | list _ tag' symbol' span' arity' children' =>
      simp only [cmp, Ordering.swap_then]
      rw [Std.OrientedOrd.eq_swap (a := tag), Std.OrientedOrd.eq_swap (a := symbol),
        Std.OrientedOrd.eq_swap (a := span), Std.OrientedOrd.eq_swap (a := arity),
        cmpAll_swap children]
    | _ => rfl
  | ambiguity _ symbol span alternatives, other => by
    cases other with
    | ambiguity _ symbol' span' alternatives' =>
      simp only [cmp, Ordering.swap_then]
      rw [Std.OrientedOrd.eq_swap (a := symbol), Std.OrientedOrd.eq_swap (a := span),
        cmpAll_swap alternatives]
    | _ => rfl

theorem cmpAll_swap : ∀ nodes others : List Node, cmpAll nodes others = (cmpAll others nodes).swap
  | [], [] => rfl
  | [], _ :: _ => rfl
  | _ :: _, [] => rfl
  | node :: rest, other :: others => by
    simp only [cmpAll, Ordering.swap_then]
    rw [cmp_swap node other, cmpAll_swap rest others]

end

theorem cmp_of_rank_lt {node other : Node} (less : node.rank < other.rank) :
    cmp node other = .lt := by
  cases node <;> cases other <;> simp_all [cmp, rank] <;> rfl

theorem rank_le_of_cmp {node other : Node} (less : cmp node other = .lt) :
    node.rank ≤ other.rank := by
  refine Nat.le_of_not_lt fun greater => ?_
  rw [cmp_swap, cmp_of_rank_lt greater] at less
  cases less

/-- Nodes of different kinds compare by kind alone. -/
theorem cmp_trans_of_rank_ne {first second third : Node} (less : cmp first second = .lt)
    (more : cmp second third = .lt)
    (different : first.rank ≠ second.rank ∨ second.rank ≠ third.rank) :
    cmp first third = .lt := by
  have rankLess := rank_le_of_cmp less
  have rankMore := rank_le_of_cmp more
  exact cmp_of_rank_lt (by omega)

mutual

theorem cmp_trans : ∀ {first second third : Node}, cmp first second = .lt →
    cmp second third = .lt → cmp first third = .lt
  | leaf id symbol text span, second, third, less, more => by
    by_cases same : (leaf id symbol text span).rank = second.rank ∧ second.rank = third.rank
    · cases second <;> cases third <;> simp [rank] at same
      simp only [cmp] at *
      exact compare_then_lt (compare_then_lt Std.TransCmp.lt_trans) less more
    · exact cmp_trans_of_rank_ne less more (by omega)
  | branch id tag symbol span children, second, third, less, more => by
    by_cases same :
        (branch id tag symbol span children).rank = second.rank ∧ second.rank = third.rank
    · cases second <;> cases third <;> simp [rank] at same
      simp only [cmp] at *
      exact compare_then_lt (compare_then_lt (compare_then_lt cmpAll_trans)) less more
    · exact cmp_trans_of_rank_ne less more (by omega)
  | list id tag symbol span arity children, second, third, less, more => by
    by_cases same :
        (list id tag symbol span arity children).rank = second.rank ∧ second.rank = third.rank
    · cases second <;> cases third <;> simp [rank] at same
      simp only [cmp] at *
      exact compare_then_lt (compare_then_lt (compare_then_lt (compare_then_lt cmpAll_trans)))
        less more
    · exact cmp_trans_of_rank_ne less more (by omega)
  | ambiguity id symbol span alternatives, second, third, less, more => by
    by_cases same :
        (ambiguity id symbol span alternatives).rank = second.rank ∧ second.rank = third.rank
    · cases second <;> cases third <;> simp [rank] at same
      simp only [cmp] at *
      exact compare_then_lt (compare_then_lt cmpAll_trans) less more
    · exact cmp_trans_of_rank_ne less more (by omega)

theorem cmpAll_trans : ∀ {first second third : List Node}, cmpAll first second = .lt →
    cmpAll second third = .lt → cmpAll first third = .lt
  | [], [], _, less, _ => by simp [cmpAll] at less
  | [], _ :: _, [], _, more => by simp [cmpAll] at more
  | [], _ :: _, _ :: _, _, _ => rfl
  | _ :: _, [], _, less, _ => by simp [cmpAll] at less
  | _ :: _, _ :: _, [], _, more => by simp [cmpAll] at more
  | a :: as, b :: bs, c :: cs, less, more => by
    simp only [cmpAll] at *
    exact then_lt_of_lt cmp_trans cmp_congr_left cmp_congr_right cmpAll_trans less more

end

/-! ## Sets of alternatives -/

/-- Nodes in increasing order. -/
def Increasing (nodes : List Node) : Prop :=
  nodes.Pairwise fun node other => cmp node other = .lt

theorem mem_insertInto {node other : Node} {set : List Node}
    (member : other ∈ node.insertInto set) : other = node ∨ other ∈ set := by
  induction set with
  | nil => exact .inl (List.mem_singleton.1 member)
  | cons head rest ih =>
    rw [insertInto] at member
    split at member
    · exact List.mem_cons.1 member
    · exact (List.mem_cons.1 member).imp_right (List.mem_cons_of_mem head)
    · rcases List.mem_cons.1 member with rfl | inRest
      · exact .inr List.mem_cons_self
      · exact (ih inRest).imp_right (List.mem_cons_of_mem head)

/-- Inserting keeps the structures of a set and adds that of the node. -/
theorem exists_mem_insertInto {node other : Node} {set : List Node}
    (member : other = node ∨ other ∈ set) :
    ∃ kept ∈ node.insertInto set, kept.erase = other.erase := by
  induction set with
  | nil =>
    rcases member with rfl | inSet
    · exact ⟨other, List.mem_cons_self, rfl⟩
    · cases inSet
  | cons head rest ih =>
    rw [insertInto]
    split
    · refine ⟨other, ?_, rfl⟩
      rcases member with rfl | inSet
      · exact List.mem_cons_self
      · exact List.mem_cons_of_mem _ inSet
    · next tie =>
      rcases member with rfl | inSet
      · exact ⟨other, List.mem_cons_self, rfl⟩
      rcases List.mem_cons.1 inSet with rfl | inRest
      · exact ⟨node, List.mem_cons_self, erase_eq_of_cmp tie⟩
      · exact ⟨other, List.mem_cons_of_mem _ inRest, rfl⟩
    · rcases member with rfl | inSet
      · obtain ⟨kept, inserted, same⟩ := ih (.inl rfl)
        exact ⟨kept, List.mem_cons_of_mem _ inserted, same⟩
      rcases List.mem_cons.1 inSet with rfl | inRest
      · exact ⟨other, List.mem_cons_self, rfl⟩
      · obtain ⟨kept, inserted, same⟩ := ih (.inr inRest)
        exact ⟨kept, List.mem_cons_of_mem _ inserted, same⟩

theorem Increasing.insertInto {node : Node} {set : List Node} (increasing : Increasing set) :
    Increasing (node.insertInto set) := by
  induction set with
  | nil => exact List.pairwise_singleton _ _
  | cons head rest ih =>
    obtain ⟨least, increasingRest⟩ := List.pairwise_cons.1 increasing
    rw [Node.insertInto]
    split
    · next less =>
      refine List.pairwise_cons.2 ⟨fun other member => ?_, increasing⟩
      rcases List.mem_cons.1 member with rfl | inRest
      · exact less
      · exact cmp_trans less (least other inRest)
    · next tie =>
      refine List.pairwise_cons.2 ⟨fun other inRest => ?_, increasingRest⟩
      rw [cmp_congr_left tie]
      exact least other inRest
    · next greater =>
      refine List.pairwise_cons.2 ⟨fun other member => ?_, ih increasingRest⟩
      rcases mem_insertInto member with rfl | inRest
      · rw [cmp_swap, greater]
        rfl
      · exact least other inRest

theorem Increasing.pairwise_erase {nodes : List Node} (increasing : Increasing nodes) :
    nodes.Pairwise fun node other => node.erase ≠ other.erase := by
  refine List.Pairwise.imp (fun {node other} less same => ?_) increasing
  rw [cmp_eq_iff.2 same] at less
  cases less

theorem mem_sorted {nodes : List Node} {node : Node} (member : node ∈ sorted nodes) :
    node ∈ nodes := by
  have general : ∀ (nodes set : List Node),
      node ∈ nodes.foldl (fun set node => node.insertInto set) set → node ∈ nodes ∨ node ∈ set := by
    intro nodes
    induction nodes with
    | nil => exact fun set inSet => .inr inSet
    | cons head rest ih =>
      intro set folded
      rcases ih _ folded with inRest | inserted
      · exact .inl (List.mem_cons_of_mem head inRest)
      · rcases mem_insertInto inserted with rfl | inSet
        · exact .inl List.mem_cons_self
        · exact .inr inSet
  rcases general nodes [] member with inNodes | inNil
  · exact inNodes
  · cases inNil

theorem exists_mem_sorted {nodes : List Node} {node : Node} (member : node ∈ nodes) :
    ∃ kept ∈ sorted nodes, kept.erase = node.erase := by
  have general : ∀ (nodes set : List Node) (node : Node), node ∈ nodes ∨ node ∈ set →
      ∃ kept ∈ nodes.foldl (fun set node => node.insertInto set) set,
        kept.erase = node.erase := by
    intro nodes
    induction nodes with
    | nil =>
      intro set node member
      rcases member with inNil | inSet
      · cases inNil
      · exact ⟨node, inSet, rfl⟩
    | cons head rest ih =>
      intro set node member
      have next : node ∈ rest ∨ ∃ kept ∈ head.insertInto set, kept.erase = node.erase := by
        rcases member with inNodes | inSet
        · rcases List.mem_cons.1 inNodes with rfl | inRest
          · exact .inr (exists_mem_insertInto (.inl rfl))
          · exact .inl inRest
        · exact .inr (exists_mem_insertInto (.inr inSet))
      rcases next with inRest | ⟨kept, inserted, same⟩
      · exact ih _ node (.inl inRest)
      · obtain ⟨last, folded, sameAgain⟩ := ih _ kept (.inr inserted)
        exact ⟨last, folded, sameAgain.trans same⟩
  exact general nodes [] node (.inl member)

theorem increasing_sorted (nodes : List Node) : Increasing (sorted nodes) := by
  have general : ∀ (nodes set : List Node), Increasing set →
      Increasing (nodes.foldl (fun set node => node.insertInto set) set) := by
    intro nodes
    induction nodes with
    | nil => exact fun set increasing => increasing
    | cons head rest ih => exact fun set increasing => ih _ increasing.insertInto
  exact general nodes [] List.Pairwise.nil

/-! ## Merging -/

/-- What a node brings to an ambiguity packs the same trees. -/
theorem exists_unpacked_iff {node : Node} {tree : Tree} :
    (∃ part ∈ node.unpacked, tree ∈ part.trees) ↔ tree ∈ node.trees := by
  have single : (∃ part ∈ [node], tree ∈ part.trees) ↔ tree ∈ node.trees := by simp
  cases node with
  | ambiguity id symbol span alternatives =>
    cases alternatives with
    | nil => exact single
    | cons first rest =>
      rw [trees, mem_treesOfAny_iff]
      rfl
  | _ => exact single

theorem exists_distinct_iff {nodes : List Node} {tree : Tree} :
    (∃ node ∈ distinct nodes, tree ∈ node.trees) ↔ ∃ node ∈ nodes, tree ∈ node.trees := by
  unfold distinct
  constructor
  · rintro ⟨part, member, inPart⟩
    obtain ⟨node, inNodes, isPart⟩ := List.mem_flatMap.1 (mem_sorted member)
    exact ⟨node, inNodes, exists_unpacked_iff.1 ⟨part, isPart, inPart⟩⟩
  · rintro ⟨node, inNodes, inNode⟩
    obtain ⟨part, isPart, inPart⟩ := exists_unpacked_iff.2 inNode
    obtain ⟨kept, member, same⟩ := exists_mem_sorted (List.mem_flatMap.2 ⟨node, inNodes, isPart⟩)
    refine ⟨kept, member, ?_⟩
    rwa [trees_eq_of_erase same]

theorem distinct_eq_nil_iff {nodes : List Node} : distinct nodes = [] ↔ nodes = [] := by
  constructor
  · intro none_
    cases nodes with
    | nil => rfl
    | cons node rest =>
      obtain ⟨part, isPart⟩ : ∃ part, part ∈ node.unpacked := by
        unfold unpacked
        split
        · exact ⟨_, List.mem_cons_self⟩
        · exact ⟨_, List.mem_cons_self⟩
      obtain ⟨kept, member, -⟩ :=
        exists_mem_sorted (List.mem_flatMap.2 ⟨node, List.mem_cons_self, isPart⟩)
      unfold distinct at none_
      rw [none_] at member
      cases member
  · rintro rfl
    rfl

variable {id : Nat} {symbol : Symbol} {span : Span} {nodes : List Node} {result : Node}

/-- Merging gives the node that is left, or an ambiguity of the several that are. -/
theorem merge?_eq_some_iff : merge? id symbol span nodes = some result ↔
    distinct nodes = [result] ∨
      2 ≤ (distinct nodes).length ∧ result = .ambiguity id symbol span (distinct nodes) := by
  unfold merge?
  match distinct nodes with
  | [] => simp
  | [_] => simp
  | _ :: _ :: _ => simp [eq_comm]

theorem merge?_eq_none_iff : merge? id symbol span nodes = none ↔ nodes = [] := by
  unfold merge?
  rw [← distinct_eq_nil_iff]
  split
  · next none_ => exact ⟨fun _ => none_, fun _ => rfl⟩
  · next one => simp [one]
  · next some_ _ =>
    constructor
    · intro merged
      cases merged
    · exact fun none_ => (some_ none_).elim

/-- Merging keeps the trees. -/
theorem mem_trees_merge? (merged : merge? id symbol span nodes = some result) {tree : Tree} :
    tree ∈ result.trees ↔ ∃ node ∈ nodes, tree ∈ node.trees := by
  rw [← exists_distinct_iff]
  rcases merge?_eq_some_iff.1 merged with single | ⟨-, rfl⟩
  · simp [single]
  · rw [trees, mem_treesOfAny_iff]

/-- Merging nodes that are no ambiguities gives one of them, or an ambiguity of several, in
increasing order. -/
theorem shape_merge? (merged : merge? id symbol span nodes = some result)
    (plain : ∀ node ∈ nodes, node.isAmbiguous = false) :
    result ∈ nodes ∨ ∃ alternatives, result = .ambiguity id symbol span alternatives ∧
      2 ≤ alternatives.length ∧ Increasing alternatives ∧
      ∀ node ∈ alternatives, node ∈ nodes := by
  have whole : ∀ node ∈ distinct nodes, node ∈ nodes := by
    intro part member
    obtain ⟨node, inNodes, isPart⟩ := List.mem_flatMap.1 (mem_sorted member)
    have unambiguous := plain node inNodes
    cases node with
    | ambiguity => cases unambiguous
    | _ => exact List.mem_singleton.1 isPart ▸ inNodes
  rcases merge?_eq_some_iff.1 merged with single | ⟨several, rfl⟩
  · exact .inl (whole result (single ▸ List.mem_cons_self))
  · exact .inr ⟨_, rfl, several, increasing_sorted _, whole⟩

end Node

end Scannerless
