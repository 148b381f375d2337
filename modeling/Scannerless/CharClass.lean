import Scannerless.Text.Quoted

/-!
# Character classes

A character class is a set of characters, kept as ranges in increasing order with at least one
code point left out between each two. `CharClass.ofRanges` brings any ranges into this form.

Ranges touch when no code point lies between them. The two sides of the surrogate gap do not
touch: the code points between them belong to no character, but they are code points.
-/

namespace Scannerless

/-- The characters from `first` to `last`, both included. -/
structure CharRange where
  first : Char
  last : Char
  first_le_last : first ≤ last
  deriving DecidableEq

/-- The range between two characters given in either order. -/
def CharRange.ofBounds (a b : Char) : CharRange :=
  if h : a ≤ b then ⟨a, b, h⟩ else ⟨b, a, (Char.le_total a b).resolve_left h⟩

/-- The range of one character. -/
def CharRange.single (c : Char) : CharRange :=
  ⟨c, c, Char.le_refl c⟩

def CharRange.contains (r : CharRange) (c : Char) : Bool :=
  r.first ≤ c && c ≤ r.last

/-- A code point lies between the end of `r` and the start of `s`. -/
def CharRange.Before (r s : CharRange) : Prop :=
  r.last.toNat + 1 < s.first.toNat

instance (r s : CharRange) : Decidable (r.Before s) :=
  inferInstanceAs (Decidable (_ < _))

/-- The smallest range that holds both. -/
def CharRange.hull (r s : CharRange) : CharRange where
  first := if r.first ≤ s.first then r.first else s.first
  last := if r.last ≤ s.last then s.last else r.last
  first_le_last := by
    have lower : (if r.first ≤ s.first then r.first else s.first) ≤ r.first := by
      split
      · exact Char.le_refl _
      · next h => exact (Char.le_total _ _).resolve_left h
    have upper : r.last ≤ (if r.last ≤ s.last then s.last else r.last) := by
      split
      · assumption
      · exact Char.le_refl _
    exact Char.le_trans lower (Char.le_trans r.first_le_last upper)

/-- Ranges are ordered by their first character, then by their last. -/
instance : Ord CharRange where
  compare := compareLex (compareOn CharRange.first) (compareOn CharRange.last)

instance : Std.TransOrd CharRange :=
  inferInstanceAs (Std.TransCmp (compareLex (compareOn CharRange.first) (compareOn CharRange.last)))

instance : Std.LawfulEqOrd CharRange where
  eq_of_compare {r s} h := by
    obtain ⟨hfirst, hlast⟩ := Ordering.then_eq_eq.1 h
    cases r
    cases s
    simp only [CharRange.mk.injEq]
    exact ⟨Std.LawfulEqOrd.eq_of_compare hfirst, Std.LawfulEqOrd.eq_of_compare hlast⟩

/-- The written form of a range: its one character, or its bounds. -/
def CharRange.describe (r : CharRange) : String :=
  if r.first = r.last then
    String.ofList (Text.bareChar r.first)
  else
    String.ofList (Text.bareChar r.first ++ '-' :: Text.bareChar r.last)

/-! ## Adding a range -/

/-- Adds a range to ranges in normal form, joining it with those it touches. -/
def CharRange.insertInto (r : CharRange) : List CharRange → List CharRange
  | [] => [r]
  | s :: rest =>
    if r.Before s then r :: s :: rest
    else if s.Before r then s :: r.insertInto rest
    else (r.hull s).insertInto rest

theorem CharRange.Before.hull {q r s : CharRange} (hr : q.Before r) (hs : q.Before s) :
    q.Before (r.hull s) := by
  unfold Before CharRange.hull at *
  dsimp only
  split <;> assumption

theorem CharRange.Before.insertInto {q r : CharRange} {ranges : List CharRange}
    (hr : q.Before r) (hranges : ∀ s ∈ ranges, q.Before s) :
    ∀ s ∈ r.insertInto ranges, q.Before s := by
  induction ranges generalizing r with
  | nil =>
    intro s hs
    rw [CharRange.insertInto, List.mem_singleton] at hs
    exact hs ▸ hr
  | cons t rest ih =>
    have ht := hranges t List.mem_cons_self
    have hrest : ∀ s ∈ rest, q.Before s := fun s hs => hranges s (List.mem_cons_of_mem t hs)
    intro s hs
    rw [CharRange.insertInto] at hs
    split at hs
    · rcases List.mem_cons.1 hs with rfl | hs
      · exact hr
      · exact hranges s hs
    · split at hs
      · rcases List.mem_cons.1 hs with rfl | hs
        · exact ht
        · exact ih hr hrest s hs
      · exact ih (hr.hull ht) hrest s hs

theorem CharRange.pairwise_insertInto (r : CharRange) {ranges : List CharRange}
    (h : ranges.Pairwise CharRange.Before) : (r.insertInto ranges).Pairwise CharRange.Before := by
  induction ranges generalizing r with
  | nil => exact List.pairwise_singleton _ _
  | cons s rest ih =>
    have hs := (List.pairwise_cons.1 h).1
    have hrest := (List.pairwise_cons.1 h).2
    rw [CharRange.insertInto]
    split
    · next before =>
      refine List.pairwise_cons.2 ⟨fun t ht => ?_, h⟩
      rcases List.mem_cons.1 ht with rfl | ht
      · exact before
      · have hst : s.last.toNat + 1 < t.first.toNat := hs t ht
        have hs' : s.first.toNat ≤ s.last.toNat := s.first_le_last
        have hrs : r.last.toNat + 1 < s.first.toNat := before
        exact show r.last.toNat + 1 < t.first.toNat by omega
    · split
      · next before =>
        exact List.pairwise_cons.2 ⟨CharRange.Before.insertInto before hs, ih r hrest⟩
      · exact ih (r.hull s) hrest

/-! ## Classes -/

/-- A set of characters, as ranges in normal form. -/
@[ext]
structure CharClass where
  ranges : List CharRange
  normal : ranges.Pairwise CharRange.Before
  deriving DecidableEq

/-- The class of no character. -/
def CharClass.empty : CharClass :=
  ⟨[], List.Pairwise.nil⟩

/-- The class with the characters of a range added. -/
def CharClass.insert (cls : CharClass) (r : CharRange) : CharClass :=
  ⟨r.insertInto cls.ranges, r.pairwise_insertInto cls.normal⟩

/-- The class of the characters in any of the ranges, which may come in any order and overlap. -/
def CharClass.ofRanges (ranges : List CharRange) : CharClass :=
  ranges.foldl CharClass.insert CharClass.empty

theorem CharRange.insertInto_of_before {r : CharRange} {ranges : List CharRange}
    (before : ∀ s ∈ ranges, s.Before r) : r.insertInto ranges = ranges ++ [r] := by
  induction ranges with
  | nil => rfl
  | cons s rest ih =>
    have first : s.last.toNat + 1 < r.first.toNat := before s List.mem_cons_self
    have hs : s.first.toNat ≤ s.last.toNat := s.first_le_last
    have hr : r.first.toNat ≤ r.last.toNat := r.first_le_last
    have notBefore : ¬ r.Before s := by
      intro (other : r.last.toNat + 1 < s.first.toNat)
      omega
    rw [CharRange.insertInto, if_neg notBefore, if_pos (before s List.mem_cons_self),
      ih fun t inRest => before t (List.mem_cons_of_mem s inRest), List.cons_append]

theorem CharClass.ranges_foldl_insert {made : CharClass} {rest : List CharRange}
    (normal : (made.ranges ++ rest).Pairwise CharRange.Before) :
    (rest.foldl CharClass.insert made).ranges = made.ranges ++ rest := by
  induction rest generalizing made with
  | nil => exact (List.append_nil _).symm
  | cons r rest ih =>
    have before : ∀ s ∈ made.ranges, s.Before r := fun s inMade =>
      (List.pairwise_append.1 normal).2.2 s inMade r List.mem_cons_self
    have inserted : (made.insert r).ranges = made.ranges ++ [r] :=
      CharRange.insertInto_of_before before
    rw [List.append_cons, ← inserted] at normal
    rw [List.foldl_cons, ih normal, inserted, List.append_assoc, List.singleton_append]

/-- A class is made anew from its own ranges. -/
theorem CharClass.ofRanges_ranges (cls : CharClass) : CharClass.ofRanges cls.ranges = cls := by
  have same : (CharClass.ofRanges cls.ranges).ranges = cls.ranges :=
    CharClass.ranges_foldl_insert cls.normal
  exact CharClass.ext same

def CharClass.isEmpty (cls : CharClass) : Bool :=
  cls.ranges.isEmpty

/-- Whether the class holds the character: only the last range that starts at or before the
character can hold it. -/
def CharClass.contains (cls : CharClass) (c : Char) : Bool :=
  match cls.ranges.findRev? (·.first ≤ c) with
  | some r => c ≤ r.last
  | none => false

/-- Classes are ordered by their ranges, lexicographically. -/
instance : Ord CharClass where
  compare := compareOn CharClass.ranges

instance : Std.TransOrd CharClass :=
  inferInstanceAs (Std.TransCmp (compareOn CharClass.ranges))

instance : Std.LawfulEqOrd CharClass where
  eq_of_compare {a b} h := by
    cases a
    cases b
    simp only [CharClass.mk.injEq]
    exact Std.LawfulEqOrd.eq_of_compare h

/-- The written form of a class: its ranges in square brackets. -/
def CharClass.describe (cls : CharClass) : String :=
  "[" ++ String.join (cls.ranges.map CharRange.describe) ++ "]"

end Scannerless
