import Scannerless.Symbol.Basic

/-!
# The order of symbols

Literals come before classes, classes before nonterminals, and nonterminals before lists. Within a
kind, symbols compare by their parts from left to right; a sequence of separators comes before any
that continues it. The order is total and tells all symbols apart, so symbols can key a table.
-/

namespace Scannerless

/-! ## Repetitions -/

def Repetition.rank : Repetition → Nat
  | .plus => 0
  | .star => 1

instance : Ord Repetition where
  compare := compareOn Repetition.rank

instance : Std.TransOrd Repetition :=
  inferInstanceAs (Std.TransCmp (compareOn Repetition.rank))

instance : Std.LawfulEqOrd Repetition where
  eq_of_compare {a b} h := by
    have h : a.rank = b.rank := Std.LawfulEqOrd.eq_of_compare h
    cases a <;> cases b <;> simp_all [Repetition.rank]

/-! ## The comparison -/

namespace Symbol

/-- The place of the symbol's kind in the order of kinds. -/
def rank : Symbol → Nat
  | literal _ => 0
  | charClass _ => 1
  | nonTerminal _ => 2
  | list _ _ _ => 3

mutual

/-- Compares two symbols by kind, then part by part. -/
def cmp : Symbol → Symbol → Ordering
  | literal s, literal t => compare s t
  | charClass c, charClass d => compare c d
  | nonTerminal m, nonTerminal n => compare m n
  | list e ss r, list f ts q => (cmp e f).then ((cmpAll ss ts).then (compare r q))
  | s, t => compare s.rank t.rank

/-- Compares two sequences of symbols lexicographically. -/
def cmpAll : List Symbol → List Symbol → Ordering
  | [], [] => .eq
  | [], _ :: _ => .lt
  | _ :: _, [] => .gt
  | s :: ss, t :: ts => (cmp s t).then (cmpAll ss ts)

end

instance : Ord Symbol where
  compare := cmp

/-! ## Its laws -/

/-- A comparison of first parts that decides ties by a comparison of second parts is transitive
where both are. -/
theorem then_lt_trans {α : Type} {f : α → α → Ordering} {a b c : α} {x y z : Ordering}
    (htrans : f a b = .lt → f b c = .lt → f a c = .lt)
    (hab : f a b = .eq → a = b) (hbc : f b c = .eq → b = c)
    (hrest : x = .lt → y = .lt → z = .lt) :
    (f a b).then x = .lt → (f b c).then y = .lt → (f a c).then z = .lt := by
  simp only [Ordering.then_eq_lt]
  rintro (h | ⟨h, hx⟩) (k | ⟨k, hy⟩)
  · exact .inl (htrans h k)
  · exact .inl (hbc k ▸ h)
  · exact .inl (hab h ▸ k)
  · exact .inr ⟨hbc k ▸ h, hrest hx hy⟩

mutual

theorem cmp_self : ∀ s : Symbol, cmp s s = .eq
  | literal t => by simp [cmp]
  | charClass c => by simp [cmp]
  | nonTerminal n => by simp [cmp]
  | list e ss r => by simp [cmp, cmp_self e, cmpAll_self ss]

theorem cmpAll_self : ∀ ss : List Symbol, cmpAll ss ss = .eq
  | [] => rfl
  | s :: ss => by simp [cmpAll, cmp_self s, cmpAll_self ss]

end

mutual

theorem eq_of_cmp : ∀ {s t : Symbol}, cmp s t = .eq → s = t
  | literal s, t, h => by
    cases t with
    | literal t => simp_all [cmp]
    | _ => exact absurd h (by simp [cmp, rank])
  | charClass c, t, h => by
    cases t with
    | charClass d => simp_all [cmp]
    | _ => exact absurd h (by simp [cmp, rank])
  | nonTerminal m, t, h => by
    cases t with
    | nonTerminal n => simp_all [cmp]
    | _ => exact absurd h (by simp [cmp, rank])
  | list e ss r, t, h => by
    cases t with
    | list f ts q =>
      simp only [cmp, Ordering.then_eq_eq] at h
      obtain ⟨he, hs, hr⟩ := h
      rw [eq_of_cmp he, eq_of_cmpAll hs, Std.LawfulEqOrd.eq_of_compare hr]
    | _ => exact absurd h (by simp [cmp, rank])

theorem eq_of_cmpAll : ∀ {ss ts : List Symbol}, cmpAll ss ts = .eq → ss = ts
  | [], [], _ => rfl
  | [], _ :: _, h => by simp [cmpAll] at h
  | _ :: _, [], h => by simp [cmpAll] at h
  | s :: ss, t :: ts, h => by
    simp only [cmpAll, Ordering.then_eq_eq] at h
    rw [eq_of_cmp h.1, eq_of_cmpAll h.2]

end

mutual

theorem cmp_swap : ∀ s t : Symbol, cmp s t = (cmp t s).swap
  | literal s, t => by
    cases t with
    | literal t => simp only [cmp]; exact Std.OrientedOrd.eq_swap
    | _ => rfl
  | charClass c, t => by
    cases t with
    | charClass d => simp only [cmp]; exact Std.OrientedOrd.eq_swap
    | _ => rfl
  | nonTerminal m, t => by
    cases t with
    | nonTerminal n => simp only [cmp]; exact Std.OrientedOrd.eq_swap
    | _ => rfl
  | list e ss r, t => by
    cases t with
    | list f ts q =>
      simp only [cmp, Ordering.swap_then]
      rw [cmp_swap e f, cmpAll_swap ss ts, Std.OrientedOrd.eq_swap (a := r)]
    | _ => rfl

theorem cmpAll_swap : ∀ ss ts : List Symbol, cmpAll ss ts = (cmpAll ts ss).swap
  | [], [] => rfl
  | [], _ :: _ => rfl
  | _ :: _, [] => rfl
  | s :: ss, t :: ts => by
    simp only [cmpAll, Ordering.swap_then]
    rw [cmp_swap s t, cmpAll_swap ss ts]

end

theorem cmp_of_rank_lt {s t : Symbol} (h : s.rank < t.rank) : cmp s t = .lt := by
  cases s <;> cases t <;> simp_all [cmp, rank] <;> rfl

theorem rank_le_of_cmp {s t : Symbol} (h : cmp s t = .lt) : s.rank ≤ t.rank := by
  refine Nat.le_of_not_lt fun hlt => ?_
  rw [cmp_swap, cmp_of_rank_lt hlt] at h
  exact absurd h (by decide)

/-- Symbols of different kinds compare by kind alone. -/
theorem cmp_trans_of_rank_ne {s t u : Symbol} (hst : cmp s t = .lt) (htu : cmp t u = .lt)
    (hne : s.rank ≠ t.rank ∨ t.rank ≠ u.rank) : cmp s u = .lt := by
  have hst' := rank_le_of_cmp hst
  have htu' := rank_le_of_cmp htu
  exact cmp_of_rank_lt (by omega)

mutual

theorem cmp_trans : ∀ {s t u : Symbol}, cmp s t = .lt → cmp t u = .lt → cmp s u = .lt
  | literal s, t, u, hst, htu => by
    by_cases same : (literal s).rank = t.rank ∧ t.rank = u.rank
    · cases t <;> cases u <;> simp [rank] at same
      simp only [cmp] at *
      exact Std.TransCmp.lt_trans hst htu
    · exact cmp_trans_of_rank_ne hst htu (by omega)
  | charClass c, t, u, hst, htu => by
    by_cases same : (charClass c).rank = t.rank ∧ t.rank = u.rank
    · cases t <;> cases u <;> simp [rank] at same
      simp only [cmp] at *
      exact Std.TransCmp.lt_trans hst htu
    · exact cmp_trans_of_rank_ne hst htu (by omega)
  | nonTerminal m, t, u, hst, htu => by
    by_cases same : (nonTerminal m).rank = t.rank ∧ t.rank = u.rank
    · cases t <;> cases u <;> simp [rank] at same
      simp only [cmp] at *
      exact Std.TransCmp.lt_trans hst htu
    · exact cmp_trans_of_rank_ne hst htu (by omega)
  | list e ss r, t, u, hst, htu => by
    by_cases same : (list e ss r).rank = t.rank ∧ t.rank = u.rank
    · cases t <;> cases u <;> simp [rank] at same
      simp only [cmp] at *
      exact then_lt_trans cmp_trans eq_of_cmp eq_of_cmp
        (then_lt_trans cmpAll_trans eq_of_cmpAll eq_of_cmpAll Std.TransCmp.lt_trans) hst htu
    · exact cmp_trans_of_rank_ne hst htu (by omega)

theorem cmpAll_trans : ∀ {ss ts us : List Symbol},
    cmpAll ss ts = .lt → cmpAll ts us = .lt → cmpAll ss us = .lt
  | [], [], _, hst, _ => by simp [cmpAll] at hst
  | [], _ :: _, [], _, htu => by simp [cmpAll] at htu
  | [], _ :: _, _ :: _, _, _ => rfl
  | _ :: _, [], _, hst, _ => by simp [cmpAll] at hst
  | _ :: _, _ :: _, [], _, htu => by simp [cmpAll] at htu
  | s :: ss, t :: ts, u :: us, hst, htu => by
    simp only [cmpAll] at *
    exact then_lt_trans cmp_trans eq_of_cmp eq_of_cmp cmpAll_trans hst htu

end

instance : Std.TransOrd Symbol where
  eq_swap := cmp_swap _ _
  isLE_trans {s t u} hst htu := by
    rcases Ordering.isLE_iff_eq_lt_or_eq_eq.1 hst with hst | hst
    · rcases Ordering.isLE_iff_eq_lt_or_eq_eq.1 htu with htu | htu
      · exact Ordering.isLE_iff_eq_lt_or_eq_eq.2 (.inl (cmp_trans hst htu))
      · exact eq_of_cmp htu ▸ Ordering.isLE_iff_eq_lt_or_eq_eq.2 (.inl hst)
    · exact eq_of_cmp hst ▸ htu

instance : Std.LawfulEqOrd Symbol where
  compare_self := cmp_self _
  eq_of_compare := eq_of_cmp

instance : DecidableEq Symbol := fun s t =>
  decidable_of_iff (cmp s t = .eq) ⟨eq_of_cmp, fun h => h ▸ cmp_self s⟩

end Symbol

end Scannerless
