import Mathlib.Data.List.Sort
import Scannerless.Chart.Basic

/-!
# The order of answers

A chart keeps what it knows in ordered sets, and answers with lists in increasing order. Such a list
is told by its members: charts that know the same give the same answers, in whatever order they came
to know it.
-/

namespace Scannerless

/-- Each value is below all of those after it. -/
def Ascending {α : Type} [Ord α] (values : List α) : Prop :=
  values.Pairwise fun first second => compare first second = .lt

section Ascending

variable {α : Type} [Ord α] [Std.TransOrd α]

theorem ascending_toList (set : Std.TreeSet α) : Ascending set.toList :=
  Std.TreeSet.ordered_toList

omit [Std.TransOrd α] in
theorem Ascending.filter {values : List α} (ascending : Ascending values) (test : α → Bool) :
    Ascending (values.filter test) :=
  List.Pairwise.filter test ascending

/-- A list in increasing order is told by its members. -/
theorem Ascending.eq_of_mem_iff {values others : List α} (ascending : Ascending values)
    (ascendingToo : Ascending others) (same : ∀ value, value ∈ values ↔ value ∈ others) :
    values = others := by
  have irrefl : Std.Irrefl fun first second : α => compare first second = .lt := by
    refine ⟨fun first less => ?_⟩
    rw [Std.ReflOrd.compare_self] at less
    cases less
  have antisymm : Std.Antisymm fun first second : α => compare first second = .lt := by
    refine ⟨fun first second less more => ?_⟩
    rw [Std.OrientedOrd.eq_swap, more] at less
    cases less
  exact List.Pairwise.eq_of_mem_iff ascending ascendingToo same

end Ascending

namespace Chart

theorem ascending_links (chart : Chart) (item : Item) : Ascending (chart.links item) := by
  unfold links
  split
  · exact ascending_toList _
  · exact List.Pairwise.nil

theorem ascending_completed (chart : Chart) (constituent : Constituent) :
    Ascending (chart.completed constituent) := by
  unfold completed
  split
  · exact ascending_toList _
  · exact List.Pairwise.nil

theorem ascending_ends (chart : Chart) (symbol : Symbol) (start : Nat) :
    Ascending (chart.ends symbol start) :=
  ascending_toList _

theorem ascending_expectedAt (g : Grammar) (chart : Chart) (offset : Nat) :
    Ascending (chart.expectedAt g offset) :=
  ascending_toList _

end Chart

end Scannerless
