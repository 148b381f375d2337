import Mathlib.Data.List.Forall2
import Mathlib.Data.List.Nodup
import Mathlib.Order.WellFounded
import Mathlib.Tactic.Choose
import Scannerless.Proofs.Derivation
import Scannerless.Proofs.Trees

/-!
# Reduced trees

Derivation trees are another way to say that a symbol spans a stretch of the input. Among the trees
of a constituent there is a reduced one: in a smallest tree every production is gone through
tightly, and if all of its parts are replaced by smallest ones, no constituent can come back below
itself.
-/

namespace Scannerless

/-! ## Trees and spans -/

namespace Tree

variable {g : Grammar} {input : Input} {allowed : Production → Span → List Span → Prop}

theorem spans_of_tiles {trees : List Tree} {start stop : Nat} (bound : start ≤ input.length)
    (tiles : Tiles start (trees.map span) stop)
    (each : ∀ tree ∈ trees, tree.span.start ≤ input.length →
      g.Spans input [tree.symbol] tree.span.start tree.span.stop) :
    g.Spans input (trees.map symbol) start stop := by
  induction trees generalizing start with
  | nil =>
    obtain rfl : start = stop := tiles
    exact .nil bound
  | cons tree rest ih =>
    obtain ⟨rfl, -, further⟩ := tiles
    have first := each tree List.mem_cons_self bound
    exact first.append (ih first.bounds.2 further fun other member =>
      each other (List.mem_cons_of_mem _ member))

/-- What a tree derives spans its stretch of the input. -/
theorem Derivation.spans {tree : Tree} (derivation : tree.Derivation g input allowed) :
    tree.span.start ≤ input.length →
      g.Spans input [tree.symbol] tree.span.start tree.span.stop := by
  induction derivation with
  | leaf scanned => exact fun _ => .scan scanned (.nil (Symbol.scan_bounds scanned).2)
  | reduction found expands tiles _ _ ih =>
    intro bound
    have body := spans_of_tiles bound tiles ih
    exact .production found expands body (.nil body.bounds.2)

/-- What spans a stretch of the input has trees. -/
theorem exists_of_spans {symbols : List Symbol} {start stop : Nat}
    (spans : g.Spans input symbols start stop) :
    ∃ trees : List Tree, trees.map symbol = symbols ∧ Tiles start (trees.map span) stop ∧
      ∀ tree ∈ trees, tree.IsDerivation g input := by
  induction spans with
  | nil => exact ⟨[], rfl, rfl, fun _ member => absurd member List.not_mem_nil⟩
  | @scan symbol rest start middle stop scanned _ ih =>
    obtain ⟨trees, rfl, tiles, each⟩ := ih
    refine ⟨.leaf symbol (input.slice ⟨start, middle⟩) ⟨start, middle⟩ :: trees, rfl,
      ⟨rfl, (Symbol.scan_bounds scanned).1, tiles⟩, fun tree member => ?_⟩
    rcases List.mem_cons.1 member with rfl | inTrees
    · exact .leaf scanned
    · exact each tree inTrees
  | @production p entry symbols rest start middle stop found expands body _ ihBody ih =>
    obtain ⟨trees, rfl, tiles, each⟩ := ih
    obtain ⟨children, rfl, tilesBody, eachBody⟩ := ihBody
    refine ⟨entry.production.reduction ⟨start, middle⟩ children :: trees, rfl,
      ⟨rfl, body.bounds.1, tiles⟩, fun tree member => ?_⟩
    rcases List.mem_cons.1 member with rfl | inTrees
    · exact .reduction found expands tilesBody trivial eachBody
    · exact each tree inTrees

/-! ## Smallest trees -/

mutual

/-- The number of reductions and leaves of a tree. -/
def size : Tree → Nat
  | leaf .. => 1
  | reduction _ _ _ _ children => sizeAll children + 1

def sizeAll : List Tree → Nat
  | [] => 0
  | tree :: rest => size tree + sizeAll rest

end

theorem sizeAll_append (first second : List Tree) :
    sizeAll (first ++ second) = sizeAll first + sizeAll second := by
  induction first with
  | nil => simp [sizeAll]
  | cons tree rest ih => simp [sizeAll, ih, Nat.add_assoc]

theorem size_pos (tree : Tree) : 0 < tree.size := by
  cases tree <;> simp [size]

theorem size_le_sizeAll {tree : Tree} {trees : List Tree} (member : tree ∈ trees) :
    tree.size ≤ sizeAll trees := by
  induction trees with
  | nil => cases member
  | cons head rest ih =>
    rw [sizeAll]
    rcases List.mem_cons.1 member with rfl | inRest
    · exact Nat.le_add_right _ _
    · exact Nat.le_trans (ih inRest) (Nat.le_add_left _ _)

/-- A smallest derivation of its constituent. -/
structure Smallest (g : Grammar) (input : Input) (tree : Tree) : Prop where
  derivation : tree.IsDerivation g input
  le_size : ∀ {other : Tree}, other.IsDerivation g input →
    other.constituent = tree.constituent → tree.size ≤ other.size

theorem exists_smallest {tree : Tree} (derivation : tree.IsDerivation g input) :
    ∃ least, Smallest g input least ∧ least.constituent = tree.constituent ∧
      least.size ≤ tree.size := by
  obtain ⟨least, ⟨isDerivation, same⟩, minimal⟩ := WellFounded.has_min (measure Tree.size).wf
    {other | other.IsDerivation g input ∧ other.constituent = tree.constituent}
    ⟨tree, derivation, rfl⟩
  refine ⟨least, ⟨isDerivation, fun other sameOther => ?_⟩, same, ?_⟩
  · exact Nat.le_of_not_lt fun less => minimal _ ⟨other, sameOther.trans same⟩ less
  · exact Nat.le_of_not_lt fun less => minimal tree ⟨derivation, rfl⟩ less

variable {p : ProdId} {entry : WiredProduction} {span : Span} {children fewer : List Tree}

/-- No reduction of the same production with smaller parts is one of the same constituent. -/
theorem Smallest.not_tiles (smallest : Smallest g input (entry.production.reduction span children))
    (found : g.prod? p = some entry) (less : sizeAll fewer < sizeAll children)
    (each : ∀ child ∈ fewer, child.IsDerivation g input)
    (expands : entry.production.Expands (fewer.map symbol)) :
    ¬ Tiles span.start (fewer.map Tree.span) span.stop := by
  intro tiles
  have derivation : (entry.production.reduction span fewer).IsDerivation g input :=
    .reduction found expands tiles trivial each
  have le := smallest.le_size derivation rfl
  unfold Production.reduction at le
  rw [size, size] at le
  omega

theorem sizeAll_drop_lt {trees : List Tree} {count : Nat} (some_ : trees ≠ [])
    (positive : 0 < count) : sizeAll (trees.drop count) < sizeAll trees := by
  have split := congrArg sizeAll (List.take_append_drop count trees)
  rw [sizeAll_append] at split
  cases trees with
  | nil => exact absurd rfl some_
  | cons tree rest =>
    cases count with
    | zero => cases positive
    | succ count =>
      rw [List.take_succ_cons, sizeAll] at split
      have sizeTree := tree.size_pos
      omega

/-- A child stands at a place of the production that it is one of the children on a way through. -/
theorem place_of_child {production : Production}
    (walks : production.Walks 0 (children.map symbol) production.arity)
    (tiles : Tiles span.start (children.map Tree.span) span.stop) {index : Nat}
    (bound : index < children.length) :
    index % production.arity < production.arity ∧
      production.Walks 0 ((children.take index).map symbol) (index % production.arity) ∧
      production.Walks (index % production.arity) ((children.drop index).map symbol)
        production.arity ∧
      Tiles span.start ((children.take index).map Tree.span) children[index].span.start ∧
      Tiles children[index].span.start ((children.drop index).map Tree.span) span.stop := by
  rw [← children.take_append_drop index, List.map_append] at walks tiles
  obtain ⟨place, before, after⟩ := walks.split
  obtain ⟨middle, tilesBefore, tilesAfter⟩ := tiles_append_iff.1 tiles
  have onward := after
  have begins := tilesAfter
  rw [List.drop_eq_getElem_cons bound, List.map_cons] at onward begins
  have inside : place < production.arity := by
    cases onward with
    | cons at_ => exact (List.getElem?_eq_some_iff.1 at_).1
  have place_eq := before.index_eq inside (by omega)
  rw [Nat.zero_add, List.length_map, List.length_take, Nat.min_eq_left (by omega)] at place_eq
  rw [begins.1, ← place_eq]
  exact ⟨inside, before, after, tilesBefore, tilesAfter⟩

/-- A smallest tree goes through no place of its production twice, since leaving out what is between
would make it smaller. -/
theorem Smallest.nodup_places
    (smallest : Smallest g input (entry.production.reduction span children))
    (found : g.prod? p = some entry)
    (expands : entry.production.Expands (children.map symbol))
    (tiles : Tiles span.start (children.map Tree.span) span.stop)
    (each : ∀ child ∈ children, child.IsDerivation g input) :
    (entry.production.places (children.map Tree.span) span.stop).Nodup := by
  rcases Production.expands_iff.1 expands with walks | ⟨-, none_⟩
  swap
  · rw [List.map_eq_nil_iff.1 none_]
    exact List.pairwise_singleton _ _
  refine List.nodup_append.2 ⟨?_, List.pairwise_singleton _ _, ?_⟩
  · rw [List.nodup_iff_getElem?_ne_getElem?]
    intro i j less bound same
    rw [List.length_mapIdx, List.length_map] at bound
    have boundBefore := Nat.lt_trans less bound
    simp only [List.getElem?_mapIdx, List.getElem?_map, List.getElem?_eq_getElem bound,
      List.getElem?_eq_getElem boundBefore, Option.map_some, Option.some.injEq,
      Prod.mk.injEq] at same
    obtain ⟨sameStart, samePlace⟩ := same
    obtain ⟨-, before, -, tilesBefore, -⟩ := place_of_child walks tiles boundBefore
    obtain ⟨-, -, after, -, tilesAfter⟩ := place_of_child walks tiles bound
    rw [samePlace] at before
    rw [sameStart] at tilesBefore
    have drop_eq : children.drop j = (children.drop i).drop (j - i) := by
      rw [List.drop_drop, Nat.add_sub_cancel' (Nat.le_of_lt less)]
    have some_ : children.drop i ≠ [] := by
      rw [Ne, List.drop_eq_nil_iff]
      omega
    have fewer : sizeAll (children.take i ++ children.drop j) < sizeAll children := by
      have whole := congrArg sizeAll (children.take_append_drop i)
      have shorter := sizeAll_drop_lt some_ (show 0 < j - i by omega)
      rw [sizeAll_append] at whole
      rw [sizeAll_append, drop_eq]
      omega
    refine smallest.not_tiles found fewer ?_ ?_ ?_
    · intro child member
      rcases List.mem_append.1 member with inFirst | inLast
      · exact each child (List.mem_of_mem_take inFirst)
      · exact each child (List.mem_of_mem_drop inLast)
    · rw [List.map_append]
      exact Production.expands_iff.2 (.inl (before.append after))
    · rw [List.map_append]
      exact tiles_append_iff.2 ⟨_, tilesBefore, tilesAfter⟩
  · intro place isPlace last isLast same
    obtain ⟨index, bound, rfl⟩ := List.mem_mapIdx.1 isPlace
    rw [List.length_map] at bound
    rw [List.mem_singleton.1 isLast] at same
    exact Nat.ne_of_lt (place_of_child walks tiles bound).1 (Prod.mk.inj same).2

/-- Without separators, a list that holds something is made of elements alone. -/
theorem exists_replicate_of_expands {production : Production} {repetition : Repetition}
    {symbols : List Symbol} (kind : production.kind = .list repetition)
    (bare : production.separatorArity = 0) (expands : production.Expands symbols)
    (some_ : symbols ≠ []) : ∃ more element, production.rhs = [element] ∧
      symbols = List.replicate (more + 1) element := by
  cases expands with
  | sequence sequence =>
    rw [kind] at sequence
    cases sequence
  | empty => exact absurd rfl some_
  | list _ more =>
    unfold Production.separatorArity at bare
    rw [kind] at bare
    match rhs : production.rhs with
    | [] =>
      unfold Production.unroll at some_
      rw [rhs] at some_
      exact absurd rfl some_
    | [element] => exact ⟨more, element, rfl, Production.unroll_eq_replicate rhs more⟩
    | first :: second :: rest =>
      simp [Production.arity, rhs] at bare

/-- A smallest tree of a list without separators has no element that matches nothing, unless it
needs one, since it would be smaller without. -/
theorem Smallest.tight
    (smallest : Smallest g input (entry.production.reduction span children))
    (found : g.prod? p = some entry)
    (expands : entry.production.Expands (children.map symbol))
    (tiles : Tiles span.start (children.map Tree.span) span.stop)
    (each : ∀ child ∈ children, child.IsDerivation g input) :
    entry.production.Tight span (children.map Tree.span) := by
  refine ⟨smallest.nodup_places found expands tiles each,
    fun {repetition} kind bare part member empty => ?_⟩
  obtain ⟨child, isChild, rfl⟩ := List.mem_map.1 member
  obtain ⟨before, after, rfl⟩ := List.append_of_mem isChild
  have fewer : sizeAll (before ++ after) < sizeAll (before ++ child :: after) := by
    have positive := child.size_pos
    rw [sizeAll_append, sizeAll_append, sizeAll]
    omega
  have eachFewer : ∀ other ∈ before ++ after, other.IsDerivation g input := by
    intro other isOther
    refine each other ?_
    rcases List.mem_append.1 isOther with inBefore | inAfter
    · exact List.mem_append_left _ inBefore
    · exact List.mem_append_right _ (List.mem_cons_of_mem _ inAfter)
  have tilesFewer : Tiles span.start ((before ++ after).map Tree.span) span.stop := by
    rw [List.map_append] at tiles ⊢
    obtain ⟨middle, tilesBefore, begins, -, tilesAfter⟩ := tiles_append_iff.1 tiles
    have still : child.span.start = child.span.stop := beq_iff_eq.1 empty
    rw [← still, begins] at tilesAfter
    exact tiles_append_iff.2 ⟨middle, tilesBefore, tilesAfter⟩
  have notExpands : ¬ entry.production.Expands ((before ++ after).map symbol) :=
    fun expands => smallest.not_tiles found fewer eachFewer expands tilesFewer
  obtain ⟨more, element, single, all⟩ := exists_replicate_of_expands kind bare expands (by simp)
  have count : (before ++ after).map symbol = List.replicate more element := by
    obtain ⟨length, same⟩ := List.eq_replicate_iff.1 all
    refine List.eq_replicate_iff.2 ⟨by simp at length ⊢; omega, fun other isOther => same other ?_⟩
    simp only [List.map_append, List.map_cons, List.mem_append, List.mem_cons] at isOther ⊢
    exact isOther.imp_right .inr
  cases more with
  | succ more =>
    rw [count, ← Production.unroll_eq_replicate single] at notExpands
    exact absurd (.list kind more) notExpands
  | zero =>
    obtain ⟨rfl, rfl⟩ := List.append_eq_nil_iff.1 (List.map_eq_nil_iff.1 count)
    cases repetition with
    | star => exact absurd (.empty kind) notExpands
    | plus =>
      refine ⟨rfl, rfl, ?_⟩
      obtain ⟨begins, -, ends⟩ := tiles
      have ended : child.span.stop = span.stop := ends
      unfold Span.isEmpty at empty ⊢
      rwa [begins, ended] at empty

/-! ## Reduced trees -/

theorem map_symbol_replace {trees : List Tree} {replace : Tree → Tree}
    (same : ∀ child ∈ trees, (replace child).constituent = child.constituent) :
    (trees.map replace).map symbol = trees.map symbol := by
  rw [List.map_map]
  apply List.map_congr_left
  intro child member
  exact congrArg Constituent.symbol (same child member)

theorem map_span_replace {trees : List Tree} {replace : Tree → Tree}
    (same : ∀ child ∈ trees, (replace child).constituent = child.constituent) :
    (trees.map replace).map Tree.span = trees.map Tree.span := by
  rw [List.map_map]
  apply List.map_congr_left
  intro child member
  exact congrArg Constituent.span (same child member)

/-- A reduced tree, in which whatever is used has trees no larger than the bound. -/
structure Frugal (g : Grammar) (input : Input) (bound : Nat) (tree : Tree) : Prop where
  reduced : tree.Reduced g input
  uses : ∀ constituent, tree.Uses constituent → ∃ least, Smallest g input least ∧
    least.constituent = constituent ∧ least.size ≤ bound

theorem Frugal.mono {less bound : Nat} {tree : Tree} (frugal : Frugal g input less tree)
    (le : less ≤ bound) : Frugal g input bound tree := by
  refine ⟨frugal.reduced, ?_⟩
  intro constituent used
  obtain ⟨least, smallest, same, leLess⟩ := frugal.uses constituent used
  exact ⟨least, smallest, same, Nat.le_trans leLess le⟩

/-- The parts of a smallest tree are smaller than it, so that its constituent does not come back in
what they are replaced by. -/
theorem Smallest.frugal_reduction
    (smallest : Smallest g input (entry.production.reduction span children))
    (found : g.prod? p = some entry)
    (expands : entry.production.Expands (children.map symbol))
    (tiles : Tiles span.start (children.map Tree.span) span.stop)
    (each : ∀ child ∈ children, child.IsDerivation g input) {replace : Tree → Tree}
    (frugal : ∀ child ∈ children, Frugal g input (sizeAll children) (replace child))
    (same : ∀ child ∈ children, (replace child).constituent = child.constituent) :
    Frugal g input (sizeAll children + 1)
      (entry.production.reduction span (children.map replace)) := by
  have symbols := map_symbol_replace same
  have spans := map_span_replace same
  have size_eq : (entry.production.reduction span children).size = sizeAll children + 1 := by
    unfold Production.reduction
    rw [Tree.size]
  have isDerivation : (entry.production.reduction span (children.map replace)).Derivation g
      input Production.Tight := by
    refine .reduction found (by rwa [symbols]) (by rwa [spans]) ?_ ?_
    · rw [spans]
      exact smallest.tight found expands tiles each
    · intro child member
      obtain ⟨original, isOriginal, rfl⟩ := List.mem_map.1 member
      exact (frugal original isOriginal).reduced.derivation
  refine ⟨⟨isDerivation, acyclic_iff.2 ?_⟩, ?_⟩
  · intro child member
    obtain ⟨original, isOriginal, rfl⟩ := List.mem_map.1 member
    refine ⟨(frugal original isOriginal).reduced.acyclic, ?_⟩
    intro used
    obtain ⟨least, leastSmallest, sameLeast, le⟩ := (frugal original isOriginal).uses _ used
    have leLeast := smallest.le_size leastSmallest.derivation sameLeast
    omega
  · intro constituent used
    cases used with
    | root => exact ⟨_, smallest, rfl, Nat.le_of_eq size_eq⟩
    | child member used =>
      obtain ⟨original, isOriginal, rfl⟩ := List.mem_map.1 member
      exact ((frugal original isOriginal).mono (Nat.le_succ _)).uses constituent used

/-- From smallest trees a reduced tree is built. -/
theorem Smallest.exists_frugal {size : Nat} : ∀ {tree : Tree}, Smallest g input tree →
    tree.size = size → ∃ reduced : Tree, Frugal g input size reduced ∧
      reduced.constituent = tree.constituent := by
  induction size using Nat.strongRecOn with
  | ind size ih =>
    intro tree smallest size_eq
    have derivation := smallest.derivation
    cases derivation with
    | @leaf symbol span scanned =>
      refine ⟨_, ⟨⟨.leaf scanned, acyclic_iff.2 ?_⟩, ?_⟩, rfl⟩
      · exact fun _ member => absurd member List.not_mem_nil
      intro constituent uses
      cases uses with
      | root => exact ⟨_, smallest, rfl, Nat.le_of_eq size_eq⟩
      | child member => cases member
    | @reduction p entry span children found expands tiles _ each =>
      unfold Production.reduction at size_eq
      rw [Tree.size] at size_eq
      have replaced : ∀ child ∈ children, ∃ reduced : Tree,
          Frugal g input (sizeAll children) reduced ∧
            reduced.constituent = child.constituent := by
        intro child member
        have inAll := size_le_sizeAll member
        obtain ⟨least, isSmallest, same, le⟩ := exists_smallest (each child member)
        obtain ⟨reduced, frugal, sameAgain⟩ := ih least.size (by omega) isSmallest rfl
        exact ⟨reduced, frugal.mono (Nat.le_trans le inAll), sameAgain.trans same⟩
      have someTree : Nonempty Tree := ⟨entry.production.reduction span children⟩
      choose! replace frugal same using replaced
      have built := smallest.frugal_reduction found expands tiles each frugal same
      rw [size_eq] at built
      exact ⟨_, built, rfl⟩

/-- A constituent that has a derivation has a reduced one. -/
theorem IsDerivation.exists_reduced {tree : Tree} (derivation : tree.IsDerivation g input) :
    ∃ reduced : Tree, reduced.Reduced g input ∧ reduced.constituent = tree.constituent := by
  obtain ⟨least, smallest, same, -⟩ := exists_smallest derivation
  obtain ⟨reduced, frugal, sameAgain⟩ := smallest.exists_frugal rfl
  exact ⟨reduced, frugal.reduced, sameAgain.trans same⟩

end Tree

end Scannerless
