import Scannerless.Proofs.Alternatives
import Scannerless.Proofs.ReducedTrees
import Scannerless.Proofs.SoundNodes
import Scannerless.Proofs.Trails

/-!
# What is packed

A packing is passed on from one constituent to the next, with the constituents in progress, the
results that are shared, and the outermost cut so far. `Packing.Cut` says which constituents in
progress a derivation may have been cut at, and `Packs` what a result holds when these are avoided:
every reduced tree that uses none of them. A result is shared only when there are none.

`Outcome` is what packing one constituent does, and each function that packs several is shown to do
the same; `packWithin_outcome` closes the recursion.
-/

namespace Scannerless

namespace Packing

/-! ## Constituents in progress -/

theorem depthIn_eq_none_iff {constituent : Constituent} {stack : List Constituent} :
    depthIn constituent stack = none ↔ constituent ∉ stack := by
  induction stack with
  | nil => simp [depthIn]
  | cons other outer ih =>
    rw [depthIn]
    split
    · next same => simp [same]
    · next different => simp [ih, different]

theorem depthIn_lt {constituent : Constituent} {stack : List Constituent} {depth : Nat}
    (inside : depthIn constituent stack = some depth) : depth < stack.length := by
  induction stack with
  | nil => cases inside
  | cons other outer ih =>
    rw [depthIn] at inside
    split at inside
    · rw [← Option.some.inj inside]
      exact Nat.lt_succ_self _
    · exact Nat.lt_succ_of_lt (ih inside)

/-- A constituent in progress at which a derivation may have been cut: it is no further out than the
outermost cut. -/
def Cut (packing : Packing) (constituent : Constituent) : Prop :=
  ∃ cut depth, packing.cut = some cut ∧ depthIn constituent packing.inProgress = some depth ∧
    cut ≤ depth

theorem le_of_outermost {first second : Option Nat} {depth : Nat}
    (cut : first = some depth ∨ second = some depth) :
    ∃ further, outermost first second = some further ∧ further ≤ depth := by
  rcases cut with rfl | rfl
  · cases second with
    | none => exact ⟨depth, rfl, Nat.le_refl _⟩
    | some other => exact ⟨min depth other, rfl, Nat.min_le_left _ _⟩
  · cases first with
    | none => exact ⟨depth, rfl, Nat.le_refl _⟩
    | some other => exact ⟨min other depth, rfl, Nat.min_le_right _ _⟩

variable {packing : Packing} {constituent other : Constituent} {outerCut : Option Nat}
  {result : Option Node}

/-- What was cut within a constituent was cut at the constituent itself, or further out. -/
theorem Cut.leave {stack : List Constituent} (cut : packing.Cut other)
    (stack_eq : packing.inProgress = constituent :: stack) : other = constituent ∨
      (packing.leave outerCut stack.length constituent result).Cut other := by
  obtain ⟨inner, depth, cut_eq, inside, le⟩ := cut
  by_cases same : other = constituent
  · exact .inl same
  · rw [stack_eq, depthIn, if_neg same] at inside
    have less := depthIn_lt inside
    have inner_eq : packing.cut.filter (· < stack.length) = some inner := by
      rw [cut_eq, Option.filter_some, if_pos]
      exact decide_eq_true (by omega)
    obtain ⟨outer, outer_eq, outer_le⟩ :
        ∃ outer, outermost outerCut (packing.cut.filter (· < stack.length)) = some outer ∧
          outer ≤ inner := le_of_outermost (.inr inner_eq)
    refine .inr ⟨outer, depth, outer_eq, ?_, Nat.le_trans outer_le le⟩
    unfold Packing.leave
    dsimp only
    rwa [stack_eq, List.tail_cons]

/-- What was cut before is cut still. -/
theorem Cut.of_leave {before : Packing} (cut : before.Cut other)
    (stack_eq : packing.inProgress = constituent :: before.inProgress) :
    (packing.leave before.cut before.inProgress.length constituent result).Cut other := by
  obtain ⟨outer, depth, cut_eq, inside, le⟩ := cut
  obtain ⟨further, further_eq, further_le⟩ : ∃ further, outermost before.cut
      (packing.cut.filter (· < before.inProgress.length)) = some further ∧ further ≤ outer :=
    le_of_outermost (.inl cut_eq)
  refine ⟨further, depth, further_eq, ?_, Nat.le_trans further_le le⟩
  unfold Packing.leave
  dsimp only
  rwa [stack_eq, List.tail_cons]

/-- Only the result of a constituent that was not cut further out is shared. -/
theorem memo_leave {stack : List Constituent} {known : Option Node}
    (stack_eq : packing.inProgress = constituent :: stack)
    (shared : (packing.leave outerCut stack.length constituent result).memo[other]? = some known) :
    packing.memo[other]? = some known ∨ (other = constituent ∧ known = result ∧
      ∀ {further : Constituent}, packing.Cut further → further = constituent) := by
  unfold Packing.leave at shared
  dsimp only at shared
  split at shared
  · next uncut =>
    rw [Std.TreeMap.getElem?_insert] at shared
    split at shared
    · next same =>
      refine .inr ⟨(Std.LawfulEqOrd.eq_of_compare same).symm, (Option.some.inj shared).symm, ?_⟩
      rintro further ⟨inner, depth, cut_eq, inside, le⟩
      by_contra different
      rw [stack_eq, depthIn, if_neg different] at inside
      have less := depthIn_lt inside
      rw [cut_eq, Option.filter_some, if_pos (decide_eq_true (by omega))] at uncut
      cases uncut
    · exact .inl shared
  · exact .inl shared

theorem contains_leave {depth : Nat} (shared : packing.memo.contains other = true) :
    (packing.leave outerCut depth constituent result).memo.contains other = true := by
  unfold Packing.leave
  dsimp only
  split
  · rw [Std.TreeMap.contains_insert, shared, Bool.or_true]
  · exact shared

end Packing

/-! ## Outcomes -/

/-- What a result for a constituent holds if some derivations have been cut: its forest is sound,
and has every reduced tree of the constituent that does without what has been cut. -/
structure Packs (g : Grammar) (input : Input) (root : Symbol) (cut : Constituent → Prop)
    (constituent : Constituent) (result : Option Node) : Prop where
  faithful : ∀ {node : Node}, result = some node → node.FaithfulTo g input constituent
  complete : (constituent.symbol.isTerminal = false →
      g.Called input root ⟨constituent.symbol, constituent.span.start⟩) →
    ∀ {tree : Tree}, tree.Reduced g input → tree.constituent = constituent →
      (∀ {other : Constituent}, cut other → ¬ tree.Uses other) →
        ∃ node, result = some node ∧ tree ∈ node.trees

namespace Packing

section Outcome

variable (g : Grammar) (input : Input) (root : Symbol) (chart : Chart)

/-- A packing in order: no result is shared of what is still in progress, and what is shared has not
been cut. -/
structure Intact (packing : Packing) : Prop where
  nonTerminal : ∀ {constituent : Constituent}, constituent ∈ packing.inProgress →
    constituent.symbol.isTerminal = false
  unshared : ∀ {constituent : Constituent}, constituent ∈ packing.inProgress →
    packing.memo[constituent]? = none
  shared : ∀ {constituent : Constituent} {result : Option Node},
    packing.memo[constituent]? = some result →
      Packs g input root (fun _ => False) constituent result

/-- All results for a constituent's own parts are shared, as far as a part that is in progress. So
the constituent is cut there, and its result will not be shared. -/
def Barred (packing : Packing) (constituent : Constituent) : Prop :=
  packing.memo[constituent]? = none ∧ ∃ production founds before part after,
    (production, founds) ∈ reductions g chart constituent ∧
      List.Forall₂ (Match.StandsFor g input root) founds (before ++ part :: after) ∧
      (∀ other ∈ before, other.symbol.isTerminal = false → packing.memo.contains other = true) ∧
      part ∈ packing.inProgress

/-- How a packing goes on: the same constituents are in progress, what was cut or shared still is,
and nothing is shared that must not be. -/
structure Onward (before after : Packing) : Prop where
  intact : Intact g input root after
  inProgress : after.inProgress = before.inProgress
  cut : ∀ {constituent : Constituent}, before.Cut constituent → after.Cut constituent
  contains : ∀ {constituent : Constituent}, before.memo.contains constituent = true →
    after.memo.contains constituent = true
  barred : ∀ {constituent : Constituent}, Barred g input root chart before constituent →
    after.memo[constituent]? = none

/-- What packing a constituent does. One that is in progress is cut, and what is known of the others
is used. -/
structure Outcome (constituent : Constituent) (packing : Packing)
    (outcome : Option Node × Packing) : Prop where
  onward : Onward g input root chart packing outcome.2
  packs : Packs g input root outcome.2.Cut constituent outcome.1
  settled : (constituent.symbol.isTerminal = false → packing.memo.contains constituent = true) →
    Packs g input root (fun _ => False) constituent outcome.1
  open_ : constituent ∈ packing.inProgress → outcome.1 = none ∧ outcome.2.Cut constituent

end Outcome

section Onward

variable {g : Grammar} {input : Input} {root : Symbol} {chart : Chart}
  {before middle after packing : Packing} {constituent : Constituent}

theorem Onward.of_eq (intact : Intact g input root before) (memo : after.memo = before.memo)
    (inProgress : after.inProgress = before.inProgress) (cut : after.cut = before.cut) :
    Onward g input root chart before after := by
  refine ⟨⟨?_, ?_, ?_⟩, inProgress, ?_, ?_, ?_⟩
  · rw [inProgress]
    exact intact.nonTerminal
  · rw [inProgress, memo]
    exact intact.unshared
  · rw [memo]
    exact intact.shared
  · unfold Cut
    rw [cut, inProgress]
    exact id
  · rw [memo]
    exact id
  · rw [memo]
    exact fun barred => barred.1

theorem Onward.refl (intact : Intact g input root packing) :
    Onward g input root chart packing packing :=
  .of_eq intact rfl rfl rfl

theorem Onward.barred_after (onward : Onward g input root chart before after)
    (barred : Barred g input root chart before constituent) :
    Barred g input root chart after constituent := by
  refine ⟨onward.barred barred, ?_⟩
  obtain ⟨-, production, founds, first, part, last, member, stand, settled, inside⟩ := barred
  refine ⟨production, founds, first, part, last, member, stand, ?_, ?_⟩
  · exact fun other isFirst nonTerminal => onward.contains (settled other isFirst nonTerminal)
  · rwa [onward.inProgress]

theorem Onward.trans (first : Onward g input root chart before middle)
    (second : Onward g input root chart middle after) :
    Onward g input root chart before after where
  intact := second.intact
  inProgress := second.inProgress.trans first.inProgress
  cut isCut := second.cut (first.cut isCut)
  contains shared := second.contains (first.contains shared)
  barred barred := second.barred (first.barred_after barred)

/-- A tree that cannot be missed from one packing on to another: what it is of is known at first, or
it uses nothing that has been cut by then. -/
def Admits (before after : Packing) (tree : Tree) : Prop :=
  (tree.symbol.isTerminal = false → before.memo.contains tree.constituent = true) ∨
    ∀ {other : Constituent}, after.Cut other → ¬ tree.Uses other

theorem Admits.of_first {tree : Tree} (admits : Admits before after tree)
    (rest : Onward g input root chart middle after) : Admits before middle tree :=
  admits.imp_right fun unused _ isCut => unused (rest.cut isCut)

theorem Admits.of_rest {tree : Tree} (admits : Admits before after tree)
    (first : Onward g input root chart before middle) : Admits middle after tree :=
  admits.imp_left fun known nonTerminal => first.contains (known nonTerminal)

theorem Outcome.exists_node {outcome : Option Node × Packing} {tree : Tree}
    (does : Outcome g input root chart constituent packing outcome)
    (called : constituent.symbol.isTerminal = false →
      g.Called input root ⟨constituent.symbol, constituent.span.start⟩)
    (reduced : tree.Reduced g input) (constituent_eq : tree.constituent = constituent)
    (admits : Admits packing outcome.2 tree) :
    ∃ node, outcome.1 = some node ∧ tree ∈ node.trees := by
  rcases admits with known | unused
  · subst constituent_eq
    exact (does.settled known).complete called reduced rfl fun isCut => isCut.elim
  · exact does.packs.complete called reduced constituent_eq unused

end Onward

end Packing

theorem Packs.imp {g : Grammar} {input : Input} {root : Symbol}
    {cut further : Constituent → Prop} {constituent : Constituent} {result : Option Node}
    (packs : Packs g input root cut constituent result)
    (onward : ∀ {other : Constituent}, cut other → further other) :
    Packs g input root further constituent result where
  faithful := packs.faithful
  complete called _ reduced constituent_eq unused :=
    packs.complete called reduced constituent_eq fun isCut => unused (onward isCut)

/-! ## Trees of constituents -/

section Constituents

variable {g : Grammar} {input : Input} {root : Symbol}

theorem Grammar.Called.offset_le (wired : g.Wired) {site : CallSite}
    (called : g.Called input root site) : site.offset ≤ input.length := by
  rcases called with ⟨rfl, -⟩ | ⟨item, node, reached, -, -, rfl⟩
  · exact Nat.zero_le _
  · exact (reached.inBounds wired).pos_le

/-- What a derivation is of is matched, if it is called there. -/
theorem Tree.Derivation.covered (wired : g.Wired)
    {allowed : Production → Span → List Span → Prop} {tree : Tree}
    (derivation : tree.Derivation g input allowed)
    (called : tree.symbol.isTerminal = false →
      g.Called input root ⟨tree.symbol, tree.span.start⟩) :
    g.Covered input root tree.symbol tree.span := by
  cases derivation with
  | leaf scanned => exact .inl scanned
  | reduction found expands tiles allows each =>
    have isCalled := called (wired.isTerminal_of_lhs found)
    have whole := Tree.Derivation.reduction found expands tiles allows each
    exact .inr ((isCalled.completed_iff wired).2 (whole.spans (isCalled.offset_le wired)))

/-- A tight derivation of what has been called is one of the reductions of the chart. -/
theorem Tree.Derivation.exists_mem_reductions (wired : g.Wired) {chart : Chart}
    (full : chart.Full g input root) {tree : Tree}
    (derivation : tree.Derivation g input Production.Tight)
    (called : g.Called input root ⟨tree.symbol, tree.span.start⟩) :
    ∃ production founds, tree = production.reduction tree.span tree.children ∧
      (production, founds) ∈ Packing.reductions g chart tree.constituent ∧
      List.Forall₂ (Match.StandsFor g input root) founds
        (tree.children.map Tree.constituent) := by
  cases derivation with
  | leaf scanned =>
    have terminal := Symbol.isTerminal_of_scan scanned
    exact absurd terminal (Bool.eq_false_iff.1 (called.isTerminal wired))
  | @reduction p entry span children found expands tiles tight each =>
    obtain ⟨founds, member, stand⟩ : ∃ founds, (entry.production, founds) ∈
          Packing.reductions g chart ⟨entry.production.lhs, span⟩ ∧
        List.Forall₂ (Match.StandsFor g input root) founds (children.map Tree.constituent) := by
      refine full.exists_mem_reductions wired called found rfl ?_ ?_ ?_ ?_
      · rwa [List.map_map]
      · intro part isPart isCalledThere
        obtain ⟨child, isChild, rfl⟩ := List.mem_map.1 isPart
        exact (each child isChild).covered wired isCalledThere
      · rwa [List.map_map]
      · rwa [List.map_map]
    exact ⟨entry.production, founds, rfl, member, stand⟩

/-- What is completed at a call has a reduced tree. -/
theorem Grammar.Called.exists_reduced (wired : g.Wired) {constituent : Constituent}
    (called : g.Called input root ⟨constituent.symbol, constituent.span.start⟩)
    (completed : ∃ p, g.Completed input root p constituent) :
    ∃ tree : Tree, tree.Reduced g input ∧ tree.constituent = constituent := by
  have spans := (called.completed_iff wired).1 completed
  obtain ⟨trees, symbols, tiles, each⟩ := Tree.exists_of_spans spans
  obtain ⟨tree, rfl, symbol_eq⟩ := List.map_eq_singleton_iff.1 symbols
  obtain ⟨begins, -, ends⟩ := tiles
  have ended : tree.span.stop = constituent.span.stop := ends
  obtain ⟨reduced, isReduced, same⟩ := (each tree List.mem_cons_self).exists_reduced
  refine ⟨reduced, isReduced, same.trans ?_⟩
  obtain ⟨symbol, start, stop⟩ := constituent
  unfold Tree.constituent
  dsimp only at begins ended symbol_eq
  rw [symbol_eq, ← begins, ← ended]

theorem Match.StandsFor.exists_reduced (wired : g.Wired) {found : Match} {part : Constituent}
    (stands : found.StandsFor g input root part) :
    ∃ tree : Tree, tree.Reduced g input ∧ tree.constituent = part := by
  rcases stands.covered with scanned | completed
  · refine ⟨.leaf part.symbol (input.slice part.span) part.span, ⟨.leaf scanned, ?_⟩, rfl⟩
    exact Tree.acyclic_iff.2 fun _ member => absurd member List.not_mem_nil
  · obtain ⟨p, isCompleted⟩ := completed
    obtain ⟨entry, found, lhs⟩ := Grammar.exists_prod_of_lhs isCompleted.1
    have nonTerminal : part.symbol.isTerminal = false := lhs ▸ wired.isTerminal_of_lhs found
    exact (stands.called nonTerminal).exists_reduced wired ⟨p, isCompleted⟩

/-- A match tells what it stands for. -/
theorem Match.StandsFor.unique {found : Match} {part other : Constituent}
    (stands : found.StandsFor g input root part) (alike : found.StandsFor g input root other) :
    part = other := by
  obtain ⟨node, atId, symbol_eq⟩ := stands.node
  obtain ⟨same, atIdSame, symbol_eq'⟩ := alike.node
  rw [atId] at atIdSame
  cases atIdSame
  have span_eq := stands.span_eq.symm.trans alike.span_eq
  obtain ⟨symbol, span⟩ := part
  obtain ⟨symbol', span'⟩ := other
  dsimp only at symbol_eq symbol_eq' span_eq
  rw [← symbol_eq, ← symbol_eq', span_eq]

end Constituents

namespace Packing

/-! ## Children -/

section Children

variable {g : Grammar} {input : Input} {root : Symbol} {chart : Chart} {pack : Pack}
  {packing : Packing}

/-- A function that packs constituents as it should while the given ones are in progress. -/
def Delivers (g : Grammar) (input : Input) (root : Symbol) (chart : Chart) (pack : Pack)
    (stack : List Constituent) : Prop :=
  ∀ (constituent : Constituent) (packing : Packing), constituent.symbol.isTerminal = false →
    Intact g input root packing → packing.inProgress = stack →
      Outcome g input root chart constituent packing (pack constituent packing)

theorem packs_leaf (wired : g.Wired) (cut : Constituent → Prop) {part : Constituent}
    (terminal : part.symbol.isTerminal = true)
    (scanned : part.symbol.scan? input part.span.start = some part.span.stop) (id : Nat) :
    Packs g input root cut part
      (some (.leaf id part.symbol (input.slice part.span) part.span)) where
  faithful eq := by
    cases eq
    exact .of_parts rfl (.leaf scanned) fun _ member => absurd member List.not_mem_nil
  complete _ {tree} reduced constituent_eq _ := by
    subst constituent_eq
    refine ⟨_, rfl, ?_⟩
    have derivation := reduced.derivation
    cases derivation with
    | leaf => exact List.mem_singleton.2 rfl
    | reduction found =>
      have nonTerminal := wired.isTerminal_of_lhs found
      exact absurd terminal (Bool.eq_false_iff.1 nonTerminal)

theorem childNode_outcome (wired : g.Wired) (intact : Intact g input root packing)
    (delivers : Delivers g input root chart pack packing.inProgress) {found : Match}
    {part : Constituent} (stands : found.StandsFor g input root part) :
    Outcome g input root chart part packing (childNode g input pack found packing) := by
  obtain ⟨node, atId, symbol_eq⟩ := stands.node
  unfold childNode StackNode.isTerminal
  rw [atId]
  dsimp only
  rw [symbol_eq, stands.span_eq]
  split
  · next terminal =>
    have scanned : part.symbol.scan? input part.span.start = some part.span.stop := by
      rcases stands.covered with scanned | ⟨p, lhs, -⟩
      · exact scanned
      · obtain ⟨entry, found, lhs_eq⟩ := Grammar.exists_prod_of_lhs lhs
        have nonTerminal : part.symbol.isTerminal = false := by
          rw [← lhs_eq]
          exact wired.isTerminal_of_lhs found
        exact absurd terminal (Bool.eq_false_iff.1 nonTerminal)
    refine ⟨.of_eq intact rfl rfl rfl, packs_leaf wired _ terminal scanned _,
      fun _ => packs_leaf wired _ terminal scanned _, fun inside => ?_⟩
    exact absurd terminal (Bool.eq_false_iff.1 (intact.nonTerminal inside))
  · next nonTerminal => exact delivers _ _ (Bool.eq_false_iff.2 nonTerminal) intact rfl

/-- What packing the parts of a reduction does, and that it is cut at the first part in progress
if what comes before is known. -/
structure PartsOutcome (g : Grammar) (input : Input) (root : Symbol) (chart : Chart)
    (parts : List Constituent) (packing : Packing) (outcome : Option (List Node) × Packing) :
    Prop where
  onward : Onward g input root chart packing outcome.2
  faithful : ∀ {nodes : List Node}, outcome.1 = some nodes → List.Forall₂ (fun node part =>
    node.FaithfulTo g input part ∧ part ∉ packing.inProgress) nodes parts
  complete : ∀ {trees : List Tree}, trees.map Tree.constituent = parts →
    (∀ tree ∈ trees, tree.Reduced g input) →
    (∀ tree ∈ trees, Admits packing outcome.2 tree) →
      ∃ nodes, outcome.1 = some nodes ∧ trees ∈ Node.choices nodes
  blocked : ∀ {before after : List Constituent} {part : Constituent},
    parts = before ++ part :: after → (∀ other ∈ before, other.symbol.isTerminal = false →
      packing.memo.contains other = true) → part ∈ packing.inProgress → outcome.2.Cut part

variable {middle last : Packing} {part : Constituent} {parts : List Constituent}

/-- After a part without a node, no other is packed. -/
theorem PartsOutcome.stop (wired : g.Wired) {found : Match}
    (stands : found.StandsFor g input root part)
    (first : Outcome g input root chart part packing (none, middle)) :
    PartsOutcome g input root chart (part :: parts) packing (none, middle) := by
  refine ⟨first.onward, nofun, ?_, ?_⟩
  · intro trees eq reduced admits
    obtain ⟨tree, others, rfl, rfl, rfl⟩ := List.map_eq_cons_iff.1 eq
    obtain ⟨node, none_, -⟩ := first.exists_node stands.called (reduced tree List.mem_cons_self)
      rfl (admits tree List.mem_cons_self)
    cases none_
  · intro before after other eq settled inside
    rcases List.cons_eq_append_iff.1 eq with ⟨rfl, here⟩ | ⟨before, rfl, -⟩
    · obtain ⟨rfl, -⟩ := List.cons.inj here
      exact (first.open_ inside).2
    · -- What is known of a part that stands in a reduction is not that it has no trees.
      have known := first.settled (settled part List.mem_cons_self)
      obtain ⟨tree, reduced, constituent_eq⟩ := stands.exists_reduced wired
      obtain ⟨node, none_, -⟩ :=
        known.complete stands.called reduced constituent_eq fun isCut => isCut.elim
      cases none_

theorem PartsOutcome.cons {found : Match} {node : Node} {nodes : Option (List Node)}
    (stands : found.StandsFor g input root part)
    (first : Outcome g input root chart part packing (some node, middle))
    (rest : PartsOutcome g input root chart parts middle (nodes, last)) :
    PartsOutcome g input root chart (part :: parts) packing (nodes.map (node :: ·), last) := by
  have inProgress : middle.inProgress = packing.inProgress := first.onward.inProgress
  have outside : part ∉ packing.inProgress := fun inside => nomatch (first.open_ inside).1
  refine ⟨first.onward.trans rest.onward, ?_, ?_, ?_⟩
  · intro all eq
    obtain ⟨others, some_, rfl⟩ := Option.map_eq_some_iff.1 eq
    have faithful := rest.faithful some_
    rw [inProgress] at faithful
    exact .cons ⟨first.packs.faithful rfl, outside⟩ faithful
  · intro trees eq reduced admits
    obtain ⟨tree, others, rfl, rfl, rfl⟩ := List.map_eq_cons_iff.1 eq
    obtain ⟨same, some_, inNode⟩ := first.exists_node stands.called
      (reduced tree List.mem_cons_self) rfl ((admits tree List.mem_cons_self).of_first rest.onward)
    cases some_
    obtain ⟨others', some_, isChoice⟩ := rest.complete rfl
      (fun tree member => reduced tree (List.mem_cons_of_mem _ member))
      (fun tree member => (admits tree (List.mem_cons_of_mem _ member)).of_rest first.onward)
    exact ⟨node :: others', congrArg (Option.map (node :: ·)) some_,
      Node.cons_mem_choices_iff.2 ⟨inNode, isChoice⟩⟩
  · intro before after other eq settled inside
    rcases List.cons_eq_append_iff.1 eq with ⟨rfl, here⟩ | ⟨before, rfl, eqRest⟩
    · obtain ⟨rfl, -⟩ := List.cons.inj here
      exact absurd inside outside
    · refine rest.blocked eqRest (fun known isBefore nonTerminal => ?_) (by rwa [inProgress])
      exact first.onward.contains (settled known (List.mem_cons_of_mem _ isBefore) nonTerminal)

theorem childNodes_outcome (wired : g.Wired) (intact : Intact g input root packing)
    (delivers : Delivers g input root chart pack packing.inProgress) {founds : List Match}
    (stand : List.Forall₂ (Match.StandsFor g input root) founds parts) :
    PartsOutcome g input root chart parts packing (childNodes g input pack founds packing) := by
  induction stand generalizing packing with
  | nil =>
    refine ⟨.refl intact, fun eq => ?_, fun none_ _ _ => ?_, fun none_ => ?_⟩
    · cases eq
      exact .nil
    · rw [List.map_eq_nil_iff.1 none_]
      exact ⟨[], rfl, List.mem_singleton.2 rfl⟩
    · exact absurd none_ (by simp)
  | @cons found part founds parts stands _ ih =>
    have first := childNode_outcome wired intact delivers stands
    rw [childNodes]
    generalize childNode g input pack found packing = outcome at first ⊢
    obtain ⟨node, middle⟩ := outcome
    cases node with
    | none => exact .stop wired stands first
    | some node =>
      have inProgress : middle.inProgress = packing.inProgress := first.onward.inProgress
      have rest := ih first.onward.intact (by rwa [inProgress])
      have whole := PartsOutcome.cons stands first rest
      dsimp only at whole ⊢
      generalize childNodes g input pack founds middle = outcome at whole ⊢
      obtain ⟨nodes, last⟩ := outcome
      cases nodes <;> exact whole

end Children

/-! ## Reductions -/

section Reductions

variable {g : Grammar} {input : Input} {root : Symbol} {chart : Chart} {pack : Pack}
  {packing middle last : Packing} {constituent : Constituent} {production : Production}
  {founds : List Match} {parts : List Constituent}

/-- Nodes of the parts of a reduction make a node of it. -/
theorem exists_reductionNode (wired : g.Wired)
    (reduction : IsReduction g input root constituent production founds parts)
    {nodes : List Node} (faithful : List.Forall₂ (fun node part =>
      node.FaithfulTo g input part ∧ part ≠ constituent) nodes parts) (packing : Packing) :
    ∃ node, reductionNode production constituent.span nodes packing =
        (some node, packing.freshId.2) ∧
      node.FaithfulTo g input constituent ∧ node.isAmbiguous = false ∧
      ∀ chosen ∈ Node.choices nodes,
        production.reduction constituent.span chosen ∈ node.trees := by
  have parts_eq : nodes.map Node.constituent = parts ∧ ∀ node ∈ nodes,
      node.FaithfulTo g input node.constituent ∧ node.constituent ≠ constituent := by
    clear reduction
    induction faithful with
    | nil => exact ⟨rfl, fun _ member => absurd member List.not_mem_nil⟩
    | cons here _ ih =>
      obtain ⟨isFaithful, proper⟩ := here
      have same := isFaithful.constituent_eq
      refine ⟨by rw [List.map_cons, ih.1, same], fun node member => ?_⟩
      rcases List.mem_cons.1 member with rfl | inRest
      · rw [same]
        exact ⟨isFaithful, proper⟩
      · exact ih.2 node inRest
  obtain ⟨rfl, each⟩ := parts_eq
  obtain ⟨⟨p, entry, found, rfl⟩, lhs, expands, -, tiles, tight⟩ := reduction
  rw [List.map_map] at expands tiles tight
  have reduces : Node.Reduces entry.production constituent.symbol constituent.span nodes :=
    ⟨lhs, expands, tiles, tight, fun child member => (each child member).2⟩
  have labels : g.withLabel? entry.production.label = some p :=
    wired.withLabel_iff.2 ⟨entry, found, rfl⟩
  have below : ∀ node ∈ nodes, node.FaithfulTo g input node.constituent :=
    fun node member => (each node member).1
  unfold reductionNode Production.reduction Production.isList
  cases kind : entry.production.kind with
  | sequence =>
    refine ⟨_, rfl, .of_parts ?_ (.branch labels found kind ?_ (lhs ▸ reduces)) below, rfl, ?_⟩
    · exact congrArg (Constituent.mk · constituent.span) lhs
    · exact reduces.expands.eq_rhs kind
    · exact fun chosen isChoice => List.mem_map.2 ⟨chosen, isChoice, rfl⟩
  | list repetition =>
    have alternating : Node.Alternating entry.production.separatorArity nodes := by
      rcases reduces.expands.length_mod kind with none_ | turns
      · exact .inl (List.map_eq_nil_iff.1 none_)
      · rw [List.length_map] at turns
        exact .inr turns
    refine ⟨.list packing.nextId entry.production.label entry.production.lhs constituent.span
      entry.production.separatorArity nodes, ?_,
      .of_parts ?_ (.list labels found kind ?_ (lhs ▸ reduces)) below, rfl, ?_⟩
    · simp only [Node.list?, if_pos alternating]
      rfl
    · exact congrArg (Constituent.mk · constituent.span) lhs
    · intro index child at_
      refine reduces.expands.rhs_getElem? ?_
      rw [List.getElem?_map, at_]
      rfl
    · exact fun chosen isChoice => List.mem_map.2 ⟨chosen, isChoice, rfl⟩

/-- What packing a reduction does, if its constituent is in progress. -/
structure ReductionOutcome (g : Grammar) (input : Input) (root : Symbol) (chart : Chart)
    (constituent : Constituent) (production : Production) (founds : List Match)
    (packing : Packing) (outcome : Option Node × Packing) : Prop where
  onward : Onward g input root chart packing outcome.2
  faithful : ∀ {node : Node}, outcome.1 = some node →
    node.FaithfulTo g input constituent ∧ node.isAmbiguous = false
  complete : ∀ {trees : List Tree},
    List.Forall₂ (Match.StandsFor g input root) founds (trees.map Tree.constituent) →
    (∀ tree ∈ trees, tree.Reduced g input) →
    (∀ tree ∈ trees, Admits packing outcome.2 tree) →
      ∃ node, outcome.1 = some node ∧
        production.reduction constituent.span trees ∈ node.trees
  blocked : ∀ {before after : List Constituent} {part : Constituent},
    List.Forall₂ (Match.StandsFor g input root) founds (before ++ part :: after) →
    (∀ other ∈ before, other.symbol.isTerminal = false →
      packing.memo.contains other = true) → part ∈ packing.inProgress → outcome.2.Cut part

theorem reduce_outcome (wired : g.Wired) (intact : Intact g input root packing)
    (delivers : Delivers g input root chart pack packing.inProgress)
    (inside : constituent ∈ packing.inProgress)
    (reduction : IsReduction g input root constituent production founds parts) :
    ReductionOutcome g input root chart constituent production founds packing
      (reduce g input pack constituent.span production founds packing) := by
  have unique : ∀ {others : List Constituent},
      List.Forall₂ (Match.StandsFor g input root) founds others → others = parts :=
    fun stand => List.right_unique_forall₂'
      (fun _ _ _ stands alike => stands.unique alike) stand reduction.stand
  have children := childNodes_outcome wired intact delivers reduction.stand
  unfold reduce
  generalize childNodes g input pack founds packing = outcome at children ⊢
  obtain ⟨nodes, last⟩ := outcome
  have blocked : ∀ {before after : List Constituent} {part : Constituent},
      List.Forall₂ (Match.StandsFor g input root) founds (before ++ part :: after) →
      (∀ other ∈ before, other.symbol.isTerminal = false →
        packing.memo.contains other = true) → part ∈ packing.inProgress → last.Cut part :=
    fun stand => children.blocked (unique stand).symm
  cases nodes with
  | none =>
    refine ⟨children.onward, nofun, fun stand reduced admits => ?_, blocked⟩
    obtain ⟨nodes, none_, -⟩ := children.complete (unique stand) reduced admits
    cases none_
  | some nodes =>
    have faithful : List.Forall₂ (fun node part =>
        node.FaithfulTo g input part ∧ part ≠ constituent) nodes parts := by
      refine (children.faithful rfl).imp fun node part ⟨isFaithful, outside⟩ => ⟨isFaithful, ?_⟩
      rintro rfl
      exact outside inside
    obtain ⟨node, eq, isFaithful, plain, holds⟩ :=
      exists_reductionNode wired reduction faithful last
    dsimp only
    rw [eq]
    have fresh : Onward g input root chart last last.freshId.2 :=
      .of_eq children.onward.intact rfl rfl rfl
    refine ⟨children.onward.trans fresh, ?_, fun stand reduced admits => ?_, blocked⟩
    · intro other eq
      cases eq
      exact ⟨isFaithful, plain⟩
    · obtain ⟨nodes, some_, isChoice⟩ := children.complete (unique stand) reduced fun tree isTree =>
        (admits tree isTree).of_first fresh
      cases some_
      exact ⟨node, rfl, holds _ isChoice⟩

/-- What packing several reductions of a constituent in progress does. -/
structure ReductionsOutcome (g : Grammar) (input : Input) (root : Symbol) (chart : Chart)
    (constituent : Constituent) (todo : List (Production × List Match)) (packing : Packing)
    (outcome : List Node × Packing) : Prop where
  onward : Onward g input root chart packing outcome.2
  faithful : ∀ node ∈ outcome.1,
    node.FaithfulTo g input constituent ∧ node.isAmbiguous = false
  complete : ∀ {production : Production} {founds : List Match} {trees : List Tree},
    (production, founds) ∈ todo →
    List.Forall₂ (Match.StandsFor g input root) founds (trees.map Tree.constituent) →
    (∀ tree ∈ trees, tree.Reduced g input) →
    (∀ tree ∈ trees, Admits packing outcome.2 tree) →
      ∃ node ∈ outcome.1, production.reduction constituent.span trees ∈ node.trees
  blocked : ∀ {production : Production} {founds : List Match} {before after : List Constituent}
    {part : Constituent}, (production, founds) ∈ todo →
    List.Forall₂ (Match.StandsFor g input root) founds (before ++ part :: after) →
    (∀ other ∈ before, other.symbol.isTerminal = false →
      packing.memo.contains other = true) → part ∈ packing.inProgress → outcome.2.Cut part

theorem reduceAll_outcome (wired : g.Wired) {todo : List (Production × List Match)}
    (intact : Intact g input root packing)
    (delivers : todo ≠ [] → Delivers g input root chart pack packing.inProgress)
    (inside : constituent ∈ packing.inProgress)
    (reductions : ∀ {production : Production} {founds : List Match},
      (production, founds) ∈ todo →
        ∃ parts, IsReduction g input root constituent production founds parts) :
    ReductionsOutcome g input root chart constituent todo packing
      (reduceAll g input pack constituent.span todo packing) := by
  induction todo generalizing packing with
  | nil =>
    refine ⟨.refl intact, ?_, ?_, ?_⟩
    · exact fun _ member => absurd member List.not_mem_nil
    · exact fun member => absurd member List.not_mem_nil
    · exact fun member => absurd member List.not_mem_nil
  | cons reduction rest ih =>
    obtain ⟨production, founds⟩ := reduction
    have pack_ := delivers (List.cons_ne_nil _ _)
    obtain ⟨parts, isReduction⟩ := reductions List.mem_cons_self
    have first := reduce_outcome wired intact pack_ inside isReduction
    rw [reduceAll]
    generalize reduce g input pack constituent.span production founds packing = outcome at first ⊢
    obtain ⟨node, middle⟩ := outcome
    have inProgress : middle.inProgress = packing.inProgress := first.onward.inProgress
    have others := ih first.onward.intact (fun _ => by rwa [inProgress]) (by rwa [inProgress])
      fun member => reductions (List.mem_cons_of_mem _ member)
    dsimp only at others ⊢
    generalize reduceAll g input pack constituent.span rest middle = outcome at others ⊢
    obtain ⟨nodes, last⟩ := outcome
    refine ⟨first.onward.trans others.onward, ?_, ?_, ?_⟩
    · intro other member
      rcases List.mem_append.1 member with here | inRest
      · exact first.faithful (Option.mem_toList.1 here)
      · exact others.faithful other inRest
    · intro other found trees member stand reduced admits
      rcases List.mem_cons.1 member with here | inRest
      · cases here
        obtain ⟨node, some_, holds⟩ := first.complete stand reduced fun tree isTree =>
          (admits tree isTree).of_first others.onward
        exact ⟨node, List.mem_append_left _ (Option.mem_toList.2 some_), holds⟩
      · obtain ⟨node, inNodes, holds⟩ := others.complete inRest stand reduced fun tree isTree =>
          (admits tree isTree).of_rest first.onward
        exact ⟨node, List.mem_append_right _ inNodes, holds⟩
    · intro other found before after part member stand settled isInside
      rcases List.mem_cons.1 member with here | inRest
      · cases here
        exact others.onward.cut (first.blocked stand settled isInside)
      · refine others.blocked inRest stand (fun known isBefore nonTerminal => ?_)
          (by rwa [inProgress])
        exact first.onward.contains (settled known isBefore nonTerminal)

end Reductions

/-! ## Constituents -/

section Constituents

variable {g : Grammar} {input : Input} {root : Symbol} {chart : Chart} {packing last : Packing}
  {constituent other : Constituent} {nodes : List Node} {result : Option Node}

theorem merge_eq (packing : Packing) (constituent : Constituent) (nodes : List Node) :
    ∃ merged : Packing, packing.merge constituent nodes =
        (Node.merge? packing.nextId constituent.symbol constituent.span nodes, merged) ∧
      merged.memo = packing.memo ∧ merged.inProgress = packing.inProgress ∧
      merged.cut = packing.cut := by
  unfold merge freshId
  dsimp only
  split
  · next eq =>
    rw [eq]
    exact ⟨_, rfl, rfl, rfl, rfl⟩
  · exact ⟨_, rfl, rfl, rfl, rfl⟩

/-- The reductions of a constituent together have every tight derivation of it whose parts cannot be
missed. -/
theorem exists_mem_trees_merge (wired : g.Wired) (full : chart.Full g input root)
    (reductions : ReductionsOutcome g input root chart constituent (reductions g chart constituent)
      packing (nodes, last))
    (called : g.Called input root ⟨constituent.symbol, constituent.span.start⟩) {tree : Tree}
    (derivation : tree.Derivation g input Production.Tight)
    (constituent_eq : tree.constituent = constituent)
    (reduced : ∀ child ∈ tree.children, child.Reduced g input)
    (admits : ∀ child ∈ tree.children, Admits packing last child) (id : Nat) :
    ∃ node, Node.merge? id constituent.symbol constituent.span nodes = some node ∧
      tree ∈ node.trees := by
  subst constituent_eq
  obtain ⟨production, founds, tree_eq, member, stand⟩ :=
    derivation.exists_mem_reductions wired full called
  obtain ⟨node, inNodes, inTrees⟩ := reductions.complete member stand reduced admits
  have merged : ∃ result, Node.merge? id tree.constituent.symbol tree.constituent.span nodes =
      some result := by
    rw [← Option.ne_none_iff_exists', Ne, Node.merge?_eq_none_iff]
    exact List.ne_nil_of_mem inNodes
  obtain ⟨result, merged⟩ := merged
  refine ⟨result, merged, (Node.mem_trees_merge? merged).2 ⟨node, inNodes, ?_⟩⟩
  rwa [tree_eq]

/-- The reductions of a constituent together have every reduced tree of it that uses nothing cut
further out. -/
theorem packs_merge (wired : g.Wired) (full : chart.Full g input root)
    {cut : Constituent → Prop} (nonTerminal : constituent.symbol.isTerminal = false)
    (reductions : ReductionsOutcome g input root chart constituent (reductions g chart constituent)
      packing (nodes, last))
    (within : ∀ {other : Constituent}, last.Cut other → other = constituent ∨ cut other)
    (id : Nat) :
    Packs g input root cut constituent
      (Node.merge? id constituent.symbol constituent.span nodes) where
  faithful {node} merged := by
    rcases Node.shape_merge? merged fun node member => (reductions.faithful node member).2 with
      inNodes | ⟨alternatives, rfl, several, increasing, whole⟩
    · exact (reductions.faithful node inNodes).1
    · have faithful : ∀ alternative ∈ alternatives,
          alternative.FaithfulTo g input constituent ∧ alternative.isAmbiguous = false :=
        fun alternative member => reductions.faithful alternative (whole alternative member)
      refine .of_parts rfl (.ambiguity several increasing.pairwise_erase ?_ ?_) ?_
      · exact fun alternative member => (faithful alternative member).2
      · exact fun alternative member => (faithful alternative member).1.constituent_eq
      · exact fun alternative member => ⟨rfl, (faithful alternative member).1.sound⟩
  complete called {tree} reduced constituent_eq unused := by
    refine exists_mem_trees_merge wired full reductions (called nonTerminal) reduced.derivation
      constituent_eq (fun child isChild => reduced.child isChild) (fun child isChild => .inr ?_) id
    intro other isCut uses
    rcases within isCut with rfl | further
    · rw [← constituent_eq] at uses
      exact (Tree.acyclic_iff.1 reduced.acyclic child isChild).2 uses
    · exact unused further (.child isChild uses)

theorem enter_intact (intact : Intact g input root packing)
    (nonTerminal : constituent.symbol.isTerminal = false)
    (unknown : packing.memo[constituent]? = none) :
    Intact g input root (packing.enter constituent) where
  nonTerminal member := by
    rcases List.mem_cons.1 member with rfl | further
    · exact nonTerminal
    · exact intact.nonTerminal further
  unshared member := by
    rcases List.mem_cons.1 member with rfl | further
    · exact unknown
    · exact intact.unshared further
  shared := intact.shared

theorem enter_barred (barred : Barred g input root chart packing other) :
    Barred g input root chart (packing.enter constituent) other := by
  obtain ⟨unknown, production, founds, before, part, after, member, stand, settled, inside⟩ :=
    barred
  exact ⟨unknown, production, founds, before, part, after, member, stand, settled,
    List.mem_cons_of_mem _ inside⟩

theorem merge_reductions {todo : List (Production × List Match)}
    (reductions : ReductionsOutcome g input root chart constituent todo packing (nodes, last)) :
    ReductionsOutcome g input root chart constituent todo packing
      (nodes, (last.merge constituent nodes).2) := by
  obtain ⟨merged, eq, memo, inProgress, cut⟩ := merge_eq last constituent nodes
  have onward : Onward g input root chart last merged :=
    .of_eq reductions.onward.intact memo inProgress cut
  rw [eq]
  refine ⟨reductions.onward.trans onward, reductions.faithful,
    fun member stand reduced admits => ?_,
    fun member stand settled inside => ?_⟩
  · exact reductions.complete member stand reduced fun tree isTree =>
      (admits tree isTree).of_first onward
  · exact onward.cut (reductions.blocked member stand settled inside)

/-- A constituent is left with its result after its reductions have been packed. -/
theorem leave_outcome (intact : Intact g input root packing)
    (nonTerminal : constituent.symbol.isTerminal = false)
    (unknown : packing.memo[constituent]? = none) (outside : constituent ∉ packing.inProgress)
    (reductions : ReductionsOutcome g input root chart constituent (reductions g chart constituent)
      (packing.enter constituent) (nodes, last))
    (packs : ∀ {cut : Constituent → Prop}, (∀ {other : Constituent}, last.Cut other →
      other = constituent ∨ cut other) → Packs g input root cut constituent result) :
    Outcome g input root chart constituent packing
      (result, last.leave packing.cut packing.inProgress.length constituent result) := by
  have stack_eq : last.inProgress = constituent :: packing.inProgress :=
    reductions.onward.inProgress
  have inProgress : (last.leave packing.cut packing.inProgress.length constituent
      result).inProgress = packing.inProgress := congrArg List.tail stack_eq
  have unshared : packing.memo.contains constituent = false := by
    rw [Std.TreeMap.contains_eq_isSome_getElem?, unknown]
    rfl
  refine ⟨⟨⟨?_, ?_, ?_⟩, inProgress, ?_, ?_, ?_⟩, packs fun isCut => isCut.leave stack_eq,
    fun settled => ?_, fun inside => absurd inside outside⟩
  · rw [inProgress]
    exact intact.nonTerminal
  · rw [inProgress]
    intro other member
    refine Option.eq_none_iff_forall_ne_some.2 fun known shared => ?_
    rcases memo_leave stack_eq shared with before | ⟨rfl, -, -⟩
    · have unknownThere := reductions.onward.intact.unshared
        (stack_eq ▸ List.mem_cons_of_mem constituent member)
      rw [unknownThere] at before
      cases before
    · exact outside member
  · intro other known shared
    rcases memo_leave stack_eq shared with before | ⟨rfl, rfl, uncut⟩
    · exact reductions.onward.intact.shared before
    · exact packs fun isCut => .inl (uncut isCut)
  · exact fun isCut => isCut.of_leave stack_eq
  · intro other shared
    exact contains_leave (reductions.onward.contains shared)
  · intro other barred
    refine Option.eq_none_iff_forall_ne_some.2 fun known shared => ?_
    rcases memo_leave stack_eq shared with before | ⟨rfl, -, uncut⟩
    · rw [reductions.onward.barred (enter_barred barred)] at before
      cases before
    · obtain ⟨-, production, founds, first, part, rest, member, stand, settled, inside⟩ := barred
      have isCut := reductions.blocked member stand settled (List.mem_cons_of_mem _ inside)
      rw [uncut isCut] at inside
      exact outside inside
  · have shared := settled nonTerminal
    rw [unshared] at shared
    cases shared

/-- The constituents in progress differ and each has a completed production, and the depth still to
go leaves room for those that have one and are not in progress. -/
structure Room (chart : Chart) (limit : Nat) (stack : List Constituent) : Prop where
  nodup : stack.Nodup
  completed : ∀ constituent ∈ stack, chart.completed constituent ≠ []
  enough : chart.completions.size + 1 ≤ limit + stack.length

theorem Room.idle (chart : Chart) : Room chart (chart.completions.size + 1) [] where
  nodup := List.nodup_nil
  completed _ member := absurd member List.not_mem_nil
  enough := Nat.le_refl _

/-- The chart knows of all constituents that have a completed production. -/
theorem Room.length_le {limit : Nat} {stack : List Constituent} (room : Room chart limit stack) :
    stack.length ≤ chart.completions.size := by
  have within : stack ⊆ chart.completions.keys := by
    intro constituent member
    have some_ := room.completed constituent member
    unfold Chart.completed at some_
    rw [Std.TreeMap.mem_keys, ← Std.TreeMap.isSome_getElem?_iff_mem]
    cases known : chart.completions[constituent]? with
    | none =>
      rw [known] at some_
      exact absurd rfl some_
    | some prods => rfl
  have bound := (List.subperm_of_subset room.nodup within).length_le
  rwa [Std.TreeMap.length_keys] at bound

theorem Room.positive {limit : Nat} {stack : List Constituent} (room : Room chart limit stack) :
    0 < limit := by
  have bound := room.length_le
  have enough := room.enough
  omega

/-- There is room for a constituent that has something to be packed of. -/
theorem Room.enter {limit : Nat} {stack : List Constituent} (room : Room chart (limit + 1) stack)
    (outside : constituent ∉ stack) (some_ : reductions g chart constituent ≠ []) :
    Room chart limit (constituent :: stack) where
  nodup := List.nodup_cons.2 ⟨outside, room.nodup⟩
  completed other member := by
    rcases List.mem_cons.1 member with rfl | further
    · intro none_
      unfold reductions at some_
      rw [none_] at some_
      exact some_ rfl
    · exact room.completed other further
  enough := by
    have enough := room.enough
    rw [List.length_cons]
    omega

/-- A constituent in progress is cut. -/
theorem cutAt_outcome (intact : Intact g input root packing) {depth : Nat}
    (inside : depthIn constituent packing.inProgress = some depth) :
    Outcome g input root chart constituent packing (none, packing.cutAt constituent depth) := by
  have member : constituent ∈ packing.inProgress := by
    by_contra outside
    rw [depthIn_eq_none_iff.2 outside] at inside
    cases inside
  have isCut : (packing.cutAt constituent depth).Cut constituent := by
    obtain ⟨further, further_eq, le⟩ :
        ∃ further, outermost packing.cut (some depth) = some further ∧ further ≤ depth :=
      le_of_outermost (.inr rfl)
    exact ⟨further, depth, further_eq, inside, le⟩
  refine ⟨⟨⟨intact.nonTerminal, intact.unshared, intact.shared⟩, rfl, ?_, id, fun barred =>
    barred.1⟩, ⟨nofun, fun _ {tree} _ constituent_eq unused => ?_⟩, fun settled => ?_,
    fun _ => ⟨rfl, isCut⟩⟩
  · rintro other ⟨cut, depth, cut_eq, insideThere, le⟩
    obtain ⟨further, further_eq, further_le⟩ := le_of_outermost (.inl cut_eq)
    exact ⟨further, depth, further_eq, insideThere, Nat.le_trans further_le le⟩
  · exact absurd (.root tree) (constituent_eq ▸ unused isCut)
  · have shared := settled (intact.nonTerminal member)
    rw [Std.TreeMap.contains_eq_isSome_getElem?, intact.unshared member] at shared
    cases shared

/-- What is known of a constituent is its result. -/
theorem known_outcome (intact : Intact g input root packing)
    (known : packing.memo[constituent]? = some result) :
    Outcome g input root chart constituent packing (result, packing) := by
  have packs := intact.shared known
  refine ⟨.refl intact, packs.imp fun isCut => isCut.elim, fun _ => packs, fun inside => ?_⟩
  rw [intact.unshared inside] at known
  cases known

/-- What is not known yet is packed from its reductions, while it is in progress. -/
theorem packWithin_of_unknown (wired : g.Wired) (full : chart.Full g input root) {limit : Nat}
    (inner : reductions g chart constituent ≠ [] → Delivers g input root chart
      (packWithin g input chart limit) (constituent :: packing.inProgress))
    (intact : Intact g input root packing) (nonTerminal : constituent.symbol.isTerminal = false)
    (unknown : packing.memo[constituent]? = none) (outside : constituent ∉ packing.inProgress) :
    ∃ nodes last,
      ReductionsOutcome g input root chart constituent (reductions g chart constituent)
        (packing.enter constituent) (nodes, last) ∧
      packWithin g input chart (limit + 1) constituent packing =
        ((last.merge constituent nodes).1, (last.merge constituent nodes).2.leave packing.cut
          packing.inProgress.length constituent (last.merge constituent nodes).1) := by
  refine ⟨_, _, reduceAll_outcome wired (enter_intact intact nonTerminal unknown) inner
    List.mem_cons_self fun member => full.exists_isReduction wired member, ?_⟩
  rw [packWithin, unknown, depthIn_eq_none_iff.2 outside]

/-- Packing works at any depth that leaves room for the constituents not yet in progress. -/
theorem packWithin_delivers (wired : g.Wired) (full : chart.Full g input root) {limit : Nat} :
    ∀ {stack : List Constituent}, Room chart limit stack →
      Delivers g input root chart (packWithin g input chart limit) stack := by
  induction limit with
  | zero => exact fun room => absurd room.positive (Nat.lt_irrefl 0)
  | succ limit ih =>
    rintro _ room constituent packing nonTerminal intact rfl
    cases known : packing.memo[constituent]? with
    | some result =>
      rw [packWithin, known]
      exact known_outcome intact known
    | none =>
      cases inside : depthIn constituent packing.inProgress with
      | some depth =>
        rw [packWithin, known, inside]
        exact cutAt_outcome intact inside
      | none =>
        have outside := depthIn_eq_none_iff.1 inside
        obtain ⟨nodes, last, reductions, eq⟩ := packWithin_of_unknown wired full
          (fun some_ => ih (room.enter outside some_)) intact nonTerminal known outside
        rw [eq]
        refine leave_outcome intact nonTerminal known outside (merge_reductions reductions)
          fun further => ?_
        obtain ⟨merged, eq, -⟩ := merge_eq last constituent nodes
        rw [eq] at further ⊢
        exact packs_merge wired full nonTerminal (eq ▸ merge_reductions reductions) further _

end Constituents

end Packing

end Scannerless
