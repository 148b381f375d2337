import Mathlib.Data.Set.Card
import Mathlib.Logic.Relation
import Mathlib.Order.Bounds.Defs
import Scannerless.Closure

/-!
# Breadth-first search

A search comes to an end if only finitely many values can be reached, and then it has found just
these and stepped each of them once. `Closure.Ends` is the search without a bound on its levels: it
says that the levels run dry, and what has been found by then.

`Closure.Underway` is what each level keeps. The values that have been stepped are reached, differ
from each other and do not come back in a level, so there are never more of them than there are
values to be reached. That is why so many levels are enough (`Closure.Underway.ends_search`).
-/

namespace Scannerless

namespace Closure

variable {α : Type} [Ord α]

/-- The value can be reached from an initial one by steps. -/
def Reached (initial : List α) (step : α → List α) (value : α) : Prop :=
  ∃ first ∈ initial, Relation.ReflTransGen (fun value next => next ∈ step value) first value

/-- The search from a level on comes to an end with a result. -/
inductive Ends (step : α → List α) : (current : Std.TreeSet α) → (found : Closure α) →
    (result : Closure α) → Prop
  | dry {current : Std.TreeSet α} {found : Closure α} (empty : current.isEmpty = true) :
    Ends step current found found
  | level {current : Std.TreeSet α} {found result : Closure α} (some_ : current.isEmpty = false)
    (ends : Ends step (level step current.toList found).next
      (level step current.toList found).toClosure result) :
    Ends step current found result

variable {step : α → List α} {initial values : List α} {value : α} {current : Std.TreeSet α}
  {found result other : Closure α} {frontier : Frontier α}

omit [Ord α] in
/-- What has the initial values and all that its values step to has all that can be reached. -/
theorem Reached.mem_of_closed {members : Set α} (begun : ∀ value ∈ initial, value ∈ members)
    (kept : ∀ value ∈ members, ∀ next ∈ step value, next ∈ members)
    (reached : Reached initial step value) : value ∈ members := by
  obtain ⟨first, isInitial, path⟩ := reached
  induction path with
  | refl => exact begun first isInitial
  | tail _ isNext ih => exact kept _ ih _ isNext

/-- There is one result at most. -/
theorem Ends.unique (ends : Ends step current found result)
    (endsToo : Ends step current found other) : result = other := by
  induction ends with
  | dry empty =>
    cases endsToo with
    | dry => rfl
    | level some_ => cases empty.symm.trans some_
  | level some_ _ ih =>
    cases endsToo with
    | dry empty => cases empty.symm.trans some_
    | level _ endsToo => exact ih endsToo

/-! ## One level -/

theorem stepped_foldl_meet :
    (values.foldl Frontier.meet frontier).stepped = frontier.stepped := by
  induction values generalizing frontier with
  | nil => rfl
  | cons met rest ih =>
    rw [List.foldl_cons, ih]
    unfold Frontier.meet
    split <;> rfl

/-- A level steps its values in order, each once. -/
theorem stepped_level :
    (level step values found).stepped.toList = found.stepped.toList ++ values := by
  suffices steps : ∀ frontier : Frontier α, (values.foldl (Frontier.advance step)
      frontier).stepped.toList = frontier.stepped.toList ++ values from steps _
  intro frontier
  induction values generalizing frontier with
  | nil => rw [List.foldl_nil, List.append_nil]
  | cons value rest ih =>
    rw [List.foldl_cons, ih, Frontier.advance, stepped_foldl_meet, Array.toList_push,
      List.append_assoc, List.singleton_append]

theorem size_stepped_level [Std.TransOrd α] :
    (level step current.toList found).stepped.size = found.stepped.size + current.size := by
  rw [← Array.length_toList, stepped_level, List.length_append, Array.length_toList,
    Std.TreeSet.length_toList]

theorem size_pos_of_some (some_ : current.isEmpty = false) : 0 < current.size := by
  rw [Std.TreeSet.isEmpty_eq_size_eq_zero, beq_eq_false_iff_ne] at some_
  exact Nat.pos_of_ne_zero some_

section Level

variable [Std.TransOrd α] [Std.LawfulEqOrd α]

theorem mem_seen_meet {met : α} :
    value ∈ (frontier.meet met).seen ↔ value ∈ frontier.seen ∨ value = met := by
  unfold Frontier.meet
  split
  · next known =>
    refine ⟨.inl, fun given => given.elim (fun old => old) ?_⟩
    rintro rfl
    exact Std.TreeSet.mem_iff_contains.2 known
  · rw [Std.TreeSet.mem_insert, Std.LawfulEqOrd.compare_eq_iff_eq, or_comm, eq_comm]

theorem mem_next_meet {met : α} : value ∈ (frontier.meet met).next ↔
    value ∈ frontier.next ∨ (value = met ∧ value ∉ frontier.seen) := by
  unfold Frontier.meet
  split
  · next known =>
    refine ⟨.inl, fun given => given.elim (fun old => old) ?_⟩
    rintro ⟨rfl, new⟩
    exact absurd (Std.TreeSet.mem_iff_contains.2 known) new
  · next new =>
    rw [← Std.TreeSet.mem_iff_contains] at new
    rw [Std.TreeSet.mem_insert, Std.LawfulEqOrd.compare_eq_iff_eq, or_comm, eq_comm]
    exact or_congr_right ⟨fun same => ⟨same, same ▸ new⟩, And.left⟩

/-- After values have been met they have been seen, and those that are new are in the next level. -/
theorem mem_foldl_meet :
    (value ∈ (values.foldl Frontier.meet frontier).seen ↔
      value ∈ frontier.seen ∨ value ∈ values) ∧
    (value ∈ (values.foldl Frontier.meet frontier).next ↔
      value ∈ frontier.next ∨ (value ∈ values ∧ value ∉ frontier.seen)) := by
  induction values generalizing frontier with
  | nil => simp
  | cons met rest ih =>
    rw [List.foldl_cons, ih.1, ih.2, mem_seen_meet, mem_next_meet, List.mem_cons]
    constructor
    · rw [or_assoc]
    · by_cases same : value = met <;> simp [same]

/-- A level meets all that its values step to. -/
theorem mem_foldl_advance :
    (value ∈ (values.foldl (Frontier.advance step) frontier).seen ↔
      value ∈ frontier.seen ∨ value ∈ values.flatMap step) ∧
    (value ∈ (values.foldl (Frontier.advance step) frontier).next ↔
      value ∈ frontier.next ∨ (value ∈ values.flatMap step ∧ value ∉ frontier.seen)) := by
  induction values generalizing frontier with
  | nil => simp
  | cons before rest ih =>
    rw [List.foldl_cons, ih.1, ih.2, List.flatMap_cons, List.mem_append]
    unfold Frontier.advance
    rw [mem_foldl_meet.1, mem_foldl_meet.2]
    constructor
    · rw [or_assoc]
    · by_cases isNext : value ∈ step before <;> simp [isNext]

theorem mem_seen_level : value ∈ (level step current.toList found).seen ↔
    value ∈ found.seen ∨ ∃ before ∈ current, value ∈ step before := by
  unfold level
  rw [mem_foldl_advance.1, List.mem_flatMap]
  simp only [Std.TreeSet.mem_toList]

theorem mem_next_level : value ∈ (level step current.toList found).next ↔
    (∃ before ∈ current, value ∈ step before) ∧ value ∉ found.seen := by
  unfold level
  rw [mem_foldl_advance.2, List.mem_flatMap]
  simp only [Std.TreeSet.mem_toList, Std.TreeSet.not_mem_emptyc, false_or]

end Level

/-! ## The search -/

/-- What holds of a search at each of its levels. -/
structure Underway (initial : List α) (step : α → List α) (current : Std.TreeSet α)
    (found : Closure α) : Prop where
  reached : ∀ value ∈ found.seen, Reached initial step value
  begun : ∀ value ∈ initial, value ∈ found.seen
  seen_iff : ∀ value, value ∈ found.seen ↔ value ∈ current ∨ value ∈ found.stepped.toList
  fresh : ∀ value ∈ current, value ∉ found.stepped.toList
  closed : ∀ value ∈ found.stepped.toList, ∀ next ∈ step value, next ∈ found.seen
  once : found.stepped.toList.Nodup

section Search

variable [Std.TransOrd α] [Std.LawfulEqOrd α]

theorem mem_ofList_iff : value ∈ Std.TreeSet.ofList initial ↔ value ∈ initial := by
  let := beqOfOrd (α := α)
  rw [Std.TreeSet.mem_ofList, List.contains_iff_mem]

theorem Underway.start (initial : List α) (step : α → List α) :
    Underway initial step (.ofList initial) ⟨.ofList initial, #[]⟩ where
  reached value member := ⟨value, mem_ofList_iff.1 member, .refl⟩
  begun value member := mem_ofList_iff.2 member
  seen_iff value := by simp
  fresh value _ := List.not_mem_nil
  closed value member := absurd member List.not_mem_nil
  once := List.nodup_nil

theorem nodup_toList (current : Std.TreeSet α) : current.toList.Nodup := by
  refine current.distinct_toList.imp fun {first second} different same => different ?_
  rw [same, Std.ReflOrd.compare_self]

theorem Underway.level (underway : Underway initial step current found) :
    Underway initial step (level step current.toList found).next
      (level step current.toList found).toClosure := by
  have stepped (value : α) : value ∈ (Closure.level step current.toList found).stepped.toList ↔
      value ∈ found.stepped.toList ∨ value ∈ current := by
    rw [stepped_level, List.mem_append, Std.TreeSet.mem_toList]
  have seen (value : α) : value ∈ (Closure.level step current.toList found).seen ↔
      value ∈ found.seen ∨ ∃ before ∈ current, value ∈ step before := mem_seen_level
  constructor
  case reached =>
    intro value member
    rcases (seen value).1 member with old | ⟨before, inCurrent, isNext⟩
    · exact underway.reached value old
    · obtain ⟨first, isInitial, path⟩ :=
        underway.reached before ((underway.seen_iff before).2 (.inl inCurrent))
      exact ⟨first, isInitial, path.tail isNext⟩
  case begun => exact fun value member => (seen value).2 (.inl (underway.begun value member))
  case seen_iff =>
    intro value
    rw [seen, stepped, mem_next_level, underway.seen_iff]
    by_cases isNext : ∃ before ∈ current, value ∈ step before
    · simp only [isNext, or_true, true_and, true_iff]
      exact (em _).elim (fun old => .inr old.symm) .inl
    · simp only [isNext, false_and, false_or, or_comm]
  case fresh =>
    intro value member again
    have new := (mem_next_level.1 member).2
    exact new ((underway.seen_iff value).2 ((stepped value).1 again).symm)
  case closed =>
    intro value member next isNext
    rcases (stepped value).1 member with old | inCurrent
    · exact (seen next).2 (.inl (underway.closed value old next isNext))
    · exact (seen next).2 (.inr ⟨value, inCurrent, isNext⟩)
  case once =>
    rw [stepped_level, List.nodup_append]
    refine ⟨underway.once, nodup_toList current, ?_⟩
    rintro value old _ inCurrent rfl
    exact underway.fresh value (Std.TreeSet.mem_toList.1 inCurrent) old

omit [Std.TransOrd α] [Std.LawfulEqOrd α] in
/-- No more values have been stepped than there are to be reached. -/
theorem Underway.size_stepped_le (underway : Underway initial step current found)
    (finite : {value | Reached initial step value}.Finite) :
    found.stepped.size ≤ {value | Reached initial step value}.ncard := by
  classical
  have subset : (found.stepped.toList.toFinset : Set α) ⊆ {value | Reached initial step value} := by
    intro value member
    rw [List.coe_toFinset] at member
    exact underway.reached value ((underway.seen_iff value).2 (.inr member))
  have le := Set.ncard_le_ncard subset finite
  rwa [Set.ncard_coe_finset, List.toFinset_card_of_nodup underway.once, Array.length_toList] at le

/-- The search ends when it is given a level for each value that is yet to be stepped. -/
theorem Underway.ends_search (finite : {value | Reached initial step value}.Finite) (levels : Nat) :
    ∀ {current : Std.TreeSet α} {found : Closure α}, Underway initial step current found →
      {value | Reached initial step value}.ncard ≤ found.stepped.size + levels →
        Ends step current found (search step levels current found) := by
  induction levels with
  | zero =>
    intro current found underway enough
    refine .dry ?_
    -- Another level would step more values than there are.
    by_contra some_
    have more := underway.level.size_stepped_le finite
    have positive := size_pos_of_some (Bool.not_eq_true _ ▸ some_)
    rw [size_stepped_level] at more
    omega
  | succ levels ih =>
    intro current found underway enough
    unfold search
    split
    · next empty => exact .dry empty
    · next some_ =>
      have some_ := Bool.eq_false_iff.2 some_
      have positive := size_pos_of_some some_
      refine .level some_ (ih underway.level ?_)
      rw [size_stepped_level]
      omega

/-- What each level keeps, the search keeps until the levels run dry. -/
theorem Ends.underway (ends : Ends step current found result)
    (underway : Underway initial step current found) :
    ∃ last : Std.TreeSet α, last.isEmpty = true ∧ Underway initial step last result := by
  induction ends with
  | dry empty => exact ⟨_, empty, underway⟩
  | level _ _ ih => exact ih underway.level

/-- What has been found at the end is the least set that has the initial values and what its values
step to, and each of its values has been stepped once. -/
theorem Ends.exact (ends : Ends step (.ofList initial) ⟨.ofList initial, #[]⟩ result) :
    IsLeast {values : Set α |
        (∀ value ∈ initial, value ∈ values) ∧ ∀ value ∈ values, ∀ next ∈ step value, next ∈ values}
      {value | value ∈ result.seen} ∧
    result.stepped.toList.Nodup ∧
    (∀ value, value ∈ result.stepped.toList ↔ value ∈ result.seen) ∧
    ∀ value, value ∈ result.seen ↔ Reached initial step value := by
  obtain ⟨last, empty, underway⟩ := ends.underway (.start initial step)
  have stepped_iff (value : α) : value ∈ result.stepped.toList ↔ value ∈ result.seen := by
    rw [underway.seen_iff, or_iff_right]
    exact Std.TreeSet.not_mem_of_isEmpty empty
  have closed : ∀ value ∈ result.seen, ∀ next ∈ step value, next ∈ result.seen :=
    fun value member => underway.closed value ((stepped_iff value).2 member)
  refine ⟨⟨⟨underway.begun, closed⟩, fun values given value member => ?_⟩, underway.once,
    stepped_iff, fun value => ⟨underway.reached value, fun reached => ?_⟩⟩
  · exact (underway.reached value member).mem_of_closed given.1 given.2
  · have member : value ∈ {value | value ∈ result.seen} :=
      reached.mem_of_closed underway.begun closed
    exact member

/-- A search over finitely many values comes to an end, on any number of levels that is not below
their number. -/
theorem ends_closure (finite : {value | Reached initial step value}.Finite) {levels : Nat}
    (enough : {value | Reached initial step value}.ncard ≤ levels) :
    Ends step (.ofList initial) ⟨.ofList initial, #[]⟩ (closure levels initial step) :=
  Underway.ends_search finite levels (.start initial step) (by simpa using enough)

end Search

end Closure

end Scannerless
