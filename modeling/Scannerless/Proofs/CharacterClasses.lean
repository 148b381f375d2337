import Mathlib.Data.Char
import Scannerless.Symbol.Order

/-!
# Character classes

What a class is told by. The ranges of a class in normal form are told by the code points that they
span (`CharRange.eq_of_covers`), and adding a range adds just the code points of the range. So it
does not matter in which order ranges are given, nor whether they overlap, and one pass over the
ranges in their order makes the same class (`CharClass.ranges_ofRanges`).

Characters do not tell as much. The surrogates are code points of no character, and two ranges that
meet across them do not touch: `CharRange.CrossesGap` is what two classes of the same characters may
differ in.
-/

namespace Scannerless

namespace CharRange

variable {r s : CharRange} {ranges rest others : List CharRange} {point : Nat}

/-! ## Code points -/

/-- The code points between the bounds, whether or not they are of characters. -/
def Spans (r : CharRange) (point : Nat) : Prop :=
  r.first.toNat ≤ point ∧ point ≤ r.last.toNat

/-- One of the ranges spans the code point. -/
def Covers (ranges : List CharRange) (point : Nat) : Prop :=
  ∃ r ∈ ranges, r.Spans point

theorem contains_iff_spans {c : Char} : r.contains c = true ↔ r.Spans c.toNat := by
  unfold contains
  rw [Bool.and_eq_true, decide_eq_true_iff, decide_eq_true_iff]
  exact Iff.rfl

/-- The bounds of a range may be given in either order. -/
theorem contains_ofBounds_iff {a b c : Char} :
    (ofBounds a b).contains c = true ↔ (a ≤ c ∧ c ≤ b) ∨ (b ≤ c ∧ c ≤ a) := by
  rw [contains_iff_spans]
  unfold ofBounds Spans
  simp only [Char.le_def, UInt32.le_iff_toNat_le, Char.toNat_val]
  split <;> dsimp only <;> omega

theorem spans_first (r : CharRange) : r.Spans r.first.toNat :=
  ⟨Nat.le_refl _, r.first_le_last⟩

theorem not_covers_nil : ¬ Covers [] point := by
  intro covered
  rcases covered with ⟨r, member, -⟩
  cases member

theorem covers_cons_iff : Covers (r :: rest) point ↔ r.Spans point ∨ Covers rest point := by
  unfold Covers
  simp only [List.mem_cons, exists_eq_or_imp]

theorem toNat_first_hull (r s : CharRange) :
    (r.hull s).first.toNat = min r.first.toNat s.first.toNat := by
  unfold hull
  dsimp only
  split
  · next below => exact (Nat.min_eq_left below).symm
  · next above => exact (Nat.min_eq_right (Nat.le_of_not_le above)).symm

theorem toNat_last_hull (r s : CharRange) :
    (r.hull s).last.toNat = max r.last.toNat s.last.toNat := by
  unfold hull
  dsimp only
  split
  · next below => exact (Nat.max_eq_right below).symm
  · next above => exact (Nat.max_eq_left (Nat.le_of_not_le above)).symm

/-- Between ranges that touch or overlap there is nothing to add. -/
theorem spans_hull_iff (notBefore : ¬ r.Before s) (notAfter : ¬ s.Before r) :
    (r.hull s).Spans point ↔ r.Spans point ∨ s.Spans point := by
  have orderedR : r.first.toNat ≤ r.last.toNat := r.first_le_last
  have orderedS : s.first.toNat ≤ s.last.toNat := s.first_le_last
  unfold Before at notBefore notAfter
  unfold Spans
  rw [toNat_first_hull, toNat_last_hull]
  omega

theorem covers_insertInto (r : CharRange) (ranges : List CharRange) (point : Nat) :
    Covers (r.insertInto ranges) point ↔ r.Spans point ∨ Covers ranges point := by
  induction ranges generalizing r with
  | nil => rw [insertInto, covers_cons_iff]
  | cons s rest ih =>
    rw [insertInto, covers_cons_iff]
    split
    · rw [covers_cons_iff, covers_cons_iff]
    · next notBefore =>
      split
      · rw [covers_cons_iff, ih]
        exact or_left_comm
      · next notAfter => rw [ih, spans_hull_iff notBefore notAfter, or_assoc]

/-! ## Ranges in normal form -/

/-- What is covered after the first range lies beyond it, with a code point in between. -/
theorem lt_of_covers_rest (normal : (r :: rest).Pairwise Before) (covered : Covers rest point) :
    r.last.toNat + 1 < point := by
  rcases covered with ⟨s, member, spans⟩
  have before : r.last.toNat + 1 < s.first.toNat := (List.pairwise_cons.1 normal).1 s member
  exact Nat.lt_of_lt_of_le before spans.1

theorem first_le_of_covers (normal : (r :: rest).Pairwise Before)
    (covered : Covers (r :: rest) point) : r.first.toNat ≤ point := by
  rcases covers_cons_iff.1 covered with here | further
  · exact here.1
  · have beyond := lt_of_covers_rest normal further
    have ordered : r.first.toNat ≤ r.last.toNat := r.first_le_last
    omega

theorem covers_rest_iff (normal : (r :: rest).Pairwise Before) :
    Covers rest point ↔ Covers (r :: rest) point ∧ r.last.toNat < point := by
  rw [covers_cons_iff]
  constructor
  · intro further
    exact ⟨.inr further, Nat.lt_of_succ_lt (lt_of_covers_rest normal further)⟩
  · intro covered
    rcases covered with ⟨here | further, beyond⟩
    · exact absurd here.2 (Nat.not_le_of_lt beyond)
    · exact further

/-- The code point after the first range is left out. -/
theorem not_covers_after (normal : (r :: rest).Pairwise Before) :
    ¬ Covers (r :: rest) (r.last.toNat + 1) := by
  intro covered
  rcases covers_cons_iff.1 covered with here | further
  · exact absurd here.2 (Nat.not_succ_le_self _)
  · exact absurd (lt_of_covers_rest normal further) (Nat.lt_irrefl _)

/-- Only the last range that begins at or before a code point can span it. -/
theorem covers_iff_of_last {before after : List CharRange}
    (normal : (before ++ r :: after).Pairwise Before) (begins : r.first.toNat ≤ point)
    (later : ∀ s ∈ after, point < s.first.toNat) :
    Covers (before ++ r :: after) point ↔ point ≤ r.last.toNat := by
  constructor
  · intro covered
    rcases covered with ⟨s, member, spans⟩
    rcases List.mem_append.1 member with earlier | here
    · have beyond : s.last.toNat + 1 < r.first.toNat :=
        (List.pairwise_append.1 normal).2.2 s earlier r List.mem_cons_self
      have stops := spans.2
      omega
    rcases List.mem_cons.1 here with rfl | further
    · exact spans.2
    · exact absurd spans.1 (Nat.not_le_of_lt (later s further))
  · intro ends
    exact ⟨r, List.mem_append_right before List.mem_cons_self, begins, ends⟩

/-- Of two first ranges that begin alike, the one ends no later whose code points are covered by the
other ranges. -/
theorem last_le_of_covers (normal : (s :: others).Pairwise Before)
    (first : r.first = s.first)
    (covered : ∀ {point : Nat}, r.Spans point → Covers (s :: others) point) :
    r.last.toNat ≤ s.last.toNat := by
  apply Nat.le_of_not_lt
  intro longer
  have ordered : s.first.toNat ≤ s.last.toNat := s.first_le_last
  have spans : r.Spans (s.last.toNat + 1) := by
    rw [Spans, first]
    omega
  exact not_covers_after normal (covered spans)

theorem eq_of_covers_cons (normal : (r :: rest).Pairwise Before)
    (normal' : (s :: others).Pairwise Before)
    (same : ∀ point, Covers (r :: rest) point ↔ Covers (s :: others) point) : r = s := by
  have begins : s.first.toNat ≤ r.first.toNat :=
    first_le_of_covers normal' ((same _).1 (covers_cons_iff.2 (.inl r.spans_first)))
  have beginsToo : r.first.toNat ≤ s.first.toNat :=
    first_le_of_covers normal ((same _).2 (covers_cons_iff.2 (.inl s.spans_first)))
  have first : r.first = s.first := Char.toNat_inj.1 (Nat.le_antisymm beginsToo begins)
  have ends : r.last.toNat ≤ s.last.toNat :=
    last_le_of_covers normal' first fun spans => (same _).1 (covers_cons_iff.2 (.inl spans))
  have endsToo : s.last.toNat ≤ r.last.toNat :=
    last_le_of_covers normal first.symm fun spans => (same _).2 (covers_cons_iff.2 (.inl spans))
  have last : r.last = s.last := Char.toNat_inj.1 (Nat.le_antisymm ends endsToo)
  cases r
  cases s
  cases first
  cases last
  rfl

/-- Ranges in normal form are told by the code points that they cover. -/
theorem eq_of_covers (normal : ranges.Pairwise Before) (normal' : others.Pairwise Before)
    (same : ∀ point, Covers ranges point ↔ Covers others point) : ranges = others := by
  induction ranges generalizing others with
  | nil =>
    cases others with
    | nil => rfl
    | cons s others =>
      exact absurd ((same _).2 (covers_cons_iff.2 (.inl s.spans_first))) not_covers_nil
  | cons r rest ih =>
    cases others with
    | nil =>
      exact absurd ((same _).1 (covers_cons_iff.2 (.inl r.spans_first))) not_covers_nil
    | cons s others =>
      obtain rfl := eq_of_covers_cons normal normal' same
      refine congrArg (r :: ·) (ih (List.pairwise_cons.1 normal).2 (List.pairwise_cons.1 normal').2
        fun point => ?_)
      rw [covers_rest_iff normal, covers_rest_iff normal', same]

/-! ## One pass over ordered ranges -/

/-- Goes over ranges in the order in which they begin. A range is joined to the one before it if
they touch or overlap. -/
def joinedTo (r : CharRange) : List CharRange → List CharRange
  | [] => [r]
  | s :: rest => if r.Before s then r :: s.joinedTo rest else (r.hull s).joinedTo rest

/-- The range comes no later than the other. -/
def notAfter (r s : CharRange) : Bool :=
  (compare r s).isLE

/-- The ranges in order, each joined to the one before it if they touch or overlap. -/
def joined (ranges : List CharRange) : List CharRange :=
  match ranges.mergeSort notAfter with
  | [] => []
  | r :: rest => r.joinedTo rest

/-- The ranges begin no earlier than `r`, each no earlier than the one before it. -/
def Ordered (r : CharRange) (rest : List CharRange) : Prop :=
  (r :: rest).Pairwise fun s t => s.first.toNat ≤ t.first.toNat

theorem Ordered.tail (ordered : Ordered r (s :: rest)) : Ordered s rest :=
  (List.pairwise_cons.1 ordered).2

theorem Ordered.hull (ordered : Ordered r (s :: rest)) : Ordered (r.hull s) rest := by
  rcases List.pairwise_cons.1 ordered with ⟨later, further⟩
  apply List.pairwise_cons.2
  refine ⟨fun t member => ?_, (List.pairwise_cons.1 further).2⟩
  rw [toNat_first_hull]
  exact Nat.le_trans (Nat.min_le_left _ _) (later t (List.mem_cons_of_mem s member))

theorem covers_joinedTo (ordered : Ordered r rest) :
    Covers (r.joinedTo rest) point ↔ r.Spans point ∨ Covers rest point := by
  induction rest generalizing r with
  | nil => rw [joinedTo, covers_cons_iff]
  | cons s rest ih =>
    have later : r.first.toNat ≤ s.first.toNat :=
      (List.pairwise_cons.1 ordered).1 s List.mem_cons_self
    rw [joinedTo, covers_cons_iff]
    split
    · rw [covers_cons_iff, ih ordered.tail]
    · next notBefore =>
      have notAfter : ¬ s.Before r := by
        have bounds : s.first.toNat ≤ s.last.toNat := s.first_le_last
        unfold Before
        omega
      rw [ih ordered.hull, spans_hull_iff notBefore notAfter, or_assoc]

/-- The first of the joined ranges begins where the first range does, the others no earlier. -/
theorem first_le_of_mem_joinedTo (ordered : Ordered r rest) {t : CharRange}
    (member : t ∈ r.joinedTo rest) : r.first.toNat ≤ t.first.toNat := by
  have covered : Covers (r.joinedTo rest) t.first.toNat := ⟨t, member, t.spans_first⟩
  rcases (covers_joinedTo ordered).1 covered with here | ⟨s, inRest, spans⟩
  · exact here.1
  · exact Nat.le_trans ((List.pairwise_cons.1 ordered).1 s inRest) spans.1

theorem pairwise_joinedTo (ordered : Ordered r rest) :
    (r.joinedTo rest).Pairwise Before := by
  induction rest generalizing r with
  | nil => exact List.pairwise_singleton _ _
  | cons s rest ih =>
    rw [joinedTo]
    split
    · next before =>
      apply List.pairwise_cons.2
      refine ⟨fun t member => ?_, ih ordered.tail⟩
      exact Nat.lt_of_lt_of_le before (first_le_of_mem_joinedTo ordered.tail member)
    · exact ih ordered.hull

theorem first_le_of_notAfter (inOrder : r.notAfter s = true) :
    r.first.toNat ≤ s.first.toNat := by
  have firsts : (compare r.first s.first).isLE = true := (Ordering.isLE_then_iff_and.1 inOrder).1
  have le : r.first ≤ s.first := Std.LawfulLECmp.isLE_iff_le.1 firsts
  exact le

theorem notAfter_total (r s : CharRange) : (r.notAfter s || s.notAfter r) = true := by
  rw [Bool.or_eq_true]
  by_cases inOrder : r.notAfter s = true
  · exact .inl inOrder
  · exact .inr (Ordering.isLE_of_eq_lt (Std.OrientedCmp.lt_of_not_isLE inOrder))

/-- The ranges that one pass makes are in normal form, and nothing is added or lost. -/
theorem joined_spec (ranges : List CharRange) :
    (joined ranges).Pairwise Before ∧
      ∀ point, Covers (joined ranges) point ↔ Covers ranges point := by
  have sorted : (ranges.mergeSort notAfter).Pairwise fun r s => r.notAfter s = true :=
    List.pairwise_mergeSort (fun _ _ _ => Std.TransCmp.isLE_trans) notAfter_total ranges
  have same : ∀ r, r ∈ ranges.mergeSort notAfter ↔ r ∈ ranges := fun _ => List.mem_mergeSort
  unfold joined
  generalize ranges.mergeSort notAfter = inOrder at sorted same
  have covers : ∀ point, Covers inOrder point ↔ Covers ranges point := by
    intro point
    unfold Covers
    simp only [same]
  cases inOrder with
  | nil => exact ⟨List.Pairwise.nil, covers⟩
  | cons r rest =>
    have ordered : Ordered r rest := sorted.imp first_le_of_notAfter
    refine ⟨pairwise_joinedTo ordered, fun point => ?_⟩
    rw [← covers point, covers_cons_iff]
    exact covers_joinedTo ordered

end CharRange

/-! ## Normal forms -/

namespace CharClass

open CharRange

variable {c : Char}

/-- A character is in a class just if one of the ranges spans it. -/
theorem contains_iff_covers (cls : CharClass) :
    cls.contains c = true ↔ Covers cls.ranges c.toNat := by
  unfold contains
  rw [List.findRev?_eq_find?_reverse]
  cases found : cls.ranges.reverse.find? fun r => decide (r.first ≤ c) with
  | none =>
    dsimp only
    constructor
    · exact nofun
    · intro covered
      rcases covered with ⟨r, member, spans⟩
      have unlike := List.find?_eq_none.1 found r (List.mem_reverse.2 member)
      exact absurd (decide_eq_true spans.1) unlike
  | some r =>
    obtain ⟨begins, after, before, eq, unlike⟩ := List.find?_eq_some_iff_append.1 found
    have ranges_eq : cls.ranges = before.reverse ++ r :: after.reverse := by
      rw [← List.reverse_reverse cls.ranges, eq]
      simp
    have normal := cls.normal
    rw [ranges_eq] at normal ⊢
    have later : ∀ s ∈ after.reverse, c.toNat < s.first.toNat := by
      intro s member
      have notBegun := unlike s (List.mem_reverse.1 member)
      rw [Bool.not_eq_true', decide_eq_false_iff_not] at notBegun
      exact Nat.lt_of_not_le notBegun
    have begun : r.first.toNat ≤ c.toNat := of_decide_eq_true begins
    rw [covers_iff_of_last normal begun later]
    exact decide_eq_true_iff

theorem covers_foldl_insert (made : CharClass) (given : List CharRange) (point : Nat) :
    Covers (given.foldl insert made).ranges point ↔
      Covers made.ranges point ∨ Covers given point := by
  induction given generalizing made with
  | nil => simp only [List.foldl_nil, not_covers_nil, or_false]
  | cons r rest ih =>
    rw [List.foldl_cons, ih, covers_cons_iff, insert, covers_insertInto, or_assoc, or_left_comm]

/-- A class spans the code points of the ranges that it is made of. -/
theorem covers_ofRanges (given : List CharRange) (point : Nat) :
    Covers (ofRanges given).ranges point ↔ Covers given point := by
  unfold ofRanges empty
  rw [covers_foldl_insert]
  simp only [not_covers_nil, false_or]

theorem contains_ofRanges_iff {given : List CharRange} :
    (ofRanges given).contains c = true ↔ ∃ r ∈ given, r.contains c = true := by
  rw [contains_iff_covers, covers_ofRanges]
  simp only [Covers, contains_iff_spans]

theorem ofRanges_eq_iff {given others : List CharRange} :
    ofRanges given = ofRanges others ↔ ∀ point, Covers given point ↔ Covers others point := by
  constructor
  · intro same point
    rw [← covers_ofRanges, same, covers_ofRanges]
  · intro same
    refine CharClass.ext (eq_of_covers (ofRanges given).normal (ofRanges others).normal ?_)
    intro point
    rw [covers_ofRanges, covers_ofRanges, same]

/-- One pass over the ranges in order makes the class. -/
theorem ranges_ofRanges (given : List CharRange) : (ofRanges given).ranges = joined given := by
  obtain ⟨normal, covers⟩ := joined_spec given
  refine eq_of_covers (ofRanges given).normal normal fun point => ?_
  rw [covers_ofRanges, covers]

/-- Whatever the order of the ranges, and however they overlap, nest, touch or repeat, those of the
class begin one after another with a code point left out before each. They are what one pass over
the ranges in order makes. The class holds the characters between the bounds of the ranges, in
whichever order these were given, and is made anew from its own ranges. -/
theorem ofRanges_normalizes (given : List CharRange) :
    let cls := ofRanges given
    cls.ranges.Pairwise (fun r s => r.first < s.first ∧ r.last.toNat + 1 < s.first.toNat) ∧
      cls.ranges = joined given ∧
      (∀ c : Char, cls.contains c = true ↔ ∃ r ∈ given, r.contains c = true) ∧
      (∀ a b c : Char, (ofBounds a b).contains c = true ↔ (a ≤ c ∧ c ≤ b) ∨ (b ≤ c ∧ c ≤ a)) ∧
      ofRanges cls.ranges = cls := by
  intro cls
  refine ⟨?_, ranges_ofRanges given, fun _ => contains_ofRanges_iff,
    fun _ _ _ => contains_ofBounds_iff, ofRanges_ranges cls⟩
  rw [ranges_ofRanges given]
  refine (joined_spec given).1.imp fun {r s} before => ?_
  have apart : r.last.toNat + 1 < s.first.toNat := before
  have ordered : r.first.toNat ≤ r.last.toNat := r.first_le_last
  have increasing : r.first.toNat < s.first.toNat := by omega
  exact ⟨increasing, apart⟩

/-- Ranges in no order, one of them reversed, one within another and one right after another. -/
example : (ofRanges [ofBounds 'x' 'z', ofBounds 'f' 'a', .single 'c', .single 'g']).ranges =
    [ofBounds 'a' 'g', ofBounds 'x' 'z'] := by
  decide

/-! ## Classes of the same characters -/

/-- One of the ranges reaches across the surrogates, the code points of no character. -/
def CrossesGap (ranges : List CharRange) : Prop :=
  ∃ r ∈ ranges, r.contains '\uD7FF' = true ∧ r.contains '\uE000' = true

theorem toNat_lt_or_gt (c : Char) : c.toNat < 0xD800 ∨ 0xDFFF < c.toNat ∧ c.toNat < 0x110000 :=
  c.valid

/-- No range begins or ends at a surrogate, so that it covers all of them or none. -/
theorem covers_surrogate_iff {ranges : List CharRange} {point : Nat} (low : 0xD800 ≤ point)
    (high : point ≤ 0xDFFF) : Covers ranges point ↔ CrossesGap ranges := by
  have before : '\uD7FF'.toNat = 0xD7FF := rfl
  have after : '\uE000'.toNat = 0xE000 := rfl
  unfold Covers CrossesGap
  simp only [contains_iff_spans, Spans, before, after]
  constructor
  · intro covered
    rcases covered with ⟨r, member, begins, ends⟩
    have first := toNat_lt_or_gt r.first
    have last := toNat_lt_or_gt r.last
    exact ⟨r, member, by omega, by omega⟩
  · intro crosses
    rcases crosses with ⟨r, member, ends⟩
    exact ⟨r, member, by omega, by omega⟩

/-- Ranges cover the same code points if they hold the same characters and both or neither of them
cross the surrogates. -/
theorem forall_covers_iff {given others : List CharRange} :
    (∀ point, Covers given point ↔ Covers others point) ↔
      (∀ c : Char, Covers given c.toNat ↔ Covers others c.toNat) ∧
        (CrossesGap given ↔ CrossesGap others) := by
  have surrogate : 0xD800 ≤ 0xDFFF := by decide
  constructor
  · intro same
    refine ⟨fun c => same c.toNat, ?_⟩
    rw [← covers_surrogate_iff surrogate (Nat.le_refl _), same,
      covers_surrogate_iff surrogate (Nat.le_refl _)]
  · intro agree point
    rcases agree with ⟨same, crossing⟩
    by_cases valid : point.isValidChar
    · exact same (Char.ofNatAux point valid)
    by_cases beyond : 0x110000 ≤ point
    · have none_ : ∀ ranges, ¬ Covers ranges point := by
        intro ranges covered
        rcases covered with ⟨r, -, -, ends⟩
        have last := toNat_lt_or_gt r.last
        omega
      exact iff_of_false (none_ given) (none_ others)
    · have low : 0xD800 ≤ point := by omega
      have high : point ≤ 0xDFFF := by omega
      rw [covers_surrogate_iff low high, covers_surrogate_iff low high, crossing]

/-- Two lists of ranges make the same class, and so the same symbol for every table, just if they
hold the same characters and both or neither of them have a range across the surrogates. -/
theorem ofRanges_canonical_iff (given others : List CharRange) :
    (ofRanges given = ofRanges others ↔
      (∀ c : Char, (ofRanges given).contains c = (ofRanges others).contains c) ∧
        (CrossesGap given ↔ CrossesGap others)) ∧
    (compare (Symbol.charClass (ofRanges given)) (Symbol.charClass (ofRanges others)) = .eq ↔
      ofRanges given = ofRanges others) := by
  constructor
  · rw [ofRanges_eq_iff, forall_covers_iff]
    refine and_congr_left fun _ => forall_congr' fun c => ?_
    rw [Bool.eq_iff_iff, contains_iff_covers, contains_iff_covers, covers_ofRanges, covers_ofRanges]
  · rw [Std.LawfulEqOrd.compare_eq_iff_eq, Symbol.charClass.injEq]

/-- The last character before the surrogates and the first one after them are the characters of the
range of the two, but make another class. -/
theorem ofRanges_not_canonical :
    let given := [CharRange.single '\uD7FF', CharRange.single '\uE000']
    let others := [CharRange.mk '\uD7FF' '\uE000' (by decide)]
    (∀ c : Char, (ofRanges given).contains c = (ofRanges others).contains c) ∧
      ofRanges given ≠ ofRanges others ∧
      compare (Symbol.charClass (ofRanges given)) (Symbol.charClass (ofRanges others)) ≠ .eq := by
  intro given others
  have different : ofRanges given ≠ ofRanges others := by decide
  refine ⟨fun c => ?_, different, fun same => ?_⟩
  · have valid := toNat_lt_or_gt c
    have before : '\uD7FF'.toNat = 0xD7FF := rfl
    have after : '\uE000'.toNat = 0xE000 := rfl
    rw [Bool.eq_iff_iff, contains_iff_covers, contains_iff_covers, covers_ofRanges, covers_ofRanges]
    simp only [given, others, covers_cons_iff, not_covers_nil, or_false, Spans, single, before,
      after]
    omega
  · exact different (Symbol.charClass.inj (Std.LawfulEqOrd.eq_of_compare same))

end CharClass

end Scannerless
