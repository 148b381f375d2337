import Mathlib.Data.List.Basic
import Scannerless.Grammar.StackNode

/-!
# Terminals

The text between two offsets, and the terminals that match it: a literal matches its own text, and a
class one character that it contains.
-/

namespace Scannerless

/-! ## Texts of spans -/

/-- The characters from one offset up to another. -/
def Input.text (input : Input) (start stop : Nat) : List Char :=
  (input.chars.extract start stop).toList

theorem Input.text_eq (input : Input) (start stop : Nat) :
    input.text start stop = (input.chars.toList.take stop).drop start := by
  unfold Input.text
  rw [Array.toList_extract, List.extract_eq_drop_take', List.drop_take]

theorem Input.text_append (input : Input) {start middle stop : Nat} (first : start ≤ middle)
    (second : middle ≤ stop) :
    input.text start middle ++ input.text middle stop = input.text start stop := by
  rw [text_eq, text_eq, text_eq]
  have upToMiddle : input.chars.toList.take middle =
      (input.chars.toList.take stop).take middle := by
    rw [List.take_take, Nat.min_eq_left second]
  have fromMiddle : (input.chars.toList.take stop).drop middle =
      ((input.chars.toList.take stop).drop start).drop (middle - start) := by
    rw [List.drop_drop, Nat.add_sub_cancel' first]
  rw [upToMiddle, fromMiddle, List.drop_take, List.take_append_drop]

theorem Input.text_self (input : Input) (start : Nat) : input.text start start = [] := by
  rw [text_eq, List.drop_take, Nat.sub_self, List.take_zero]

theorem Input.length_text (input : Input) {start stop : Nat} (bound : stop ≤ input.length) :
    (input.text start stop).length = stop - start := by
  rw [text_eq, List.length_drop, List.length_take, Array.length_toList]
  unfold Input.length at bound
  omega

/-- A text that stands in the input at an offset ends so many characters on. -/
theorem Input.exists_middle {input : Input} {first second : List Char} {start stop : Nat}
    (ordered : start ≤ stop) (bound : stop ≤ input.length)
    (eq : input.text start stop = first ++ second) :
    ∃ middle, start ≤ middle ∧ middle ≤ stop ∧ input.text start middle = first ∧
      input.text middle stop = second := by
  have length := congrArg List.length eq
  rw [input.length_text bound, List.length_append] at length
  have before : start ≤ start + first.length := Nat.le_add_right _ _
  have after : start + first.length ≤ stop := by omega
  have split := input.text_append before after
  rw [eq] at split
  have lengthFirst : (input.text start (start + first.length)).length = first.length := by
    rw [input.length_text (Nat.le_trans after bound)]
    omega
  obtain ⟨eqFirst, eqSecond⟩ := List.append_inj split lengthFirst
  exact ⟨start + first.length, before, after, eqFirst, eqSecond⟩

theorem Input.text_succ (input : Input) {start : Nat} {c : Char}
    (at_ : input.charAt? start = some c) : input.text start (start + 1) = [c] := by
  unfold Input.charAt? at at_
  rw [← Array.getElem?_toList] at at_
  obtain ⟨bound, eq⟩ := List.getElem?_eq_some_iff.1 at_
  rw [text_eq, List.drop_take, Nat.add_sub_cancel_left, List.take_one, List.head?_drop, at_]
  rfl

/-! ## Matches -/

/-- A literal matches its own text. -/
theorem Symbol.scan_literal_iff {text : String} {input : Input} {start stop : Nat} :
    (Symbol.literal text).scan? input start = some stop ↔
      start ≤ stop ∧ stop ≤ input.length ∧ input.text start stop = text.toList := by
  have chars_eq : input.chars? start (start + text.toList.length) = some text.toList ↔
      start + text.toList.length ≤ input.length ∧
        input.text start (start + text.toList.length) = text.toList := by
    unfold Input.chars? Input.text
    by_cases bound : start + text.toList.length ≤ input.length
    · simp [bound]
    · simp [bound]
  unfold Symbol.scan?
  dsimp only
  constructor
  · intro scanned
    split at scanned
    · next matched =>
      rw [← Option.some.inj scanned]
      obtain ⟨bound, eq⟩ := chars_eq.1 matched
      exact ⟨Nat.le_add_right _ _, bound, eq⟩
    · cases scanned
  · rintro ⟨ordered, bound, eq⟩
    have length : (input.text start stop).length = stop - start := input.length_text bound
    have stop_eq : start + text.toList.length = stop := by
      rw [← eq, length]
      omega
    rw [stop_eq] at chars_eq ⊢
    rw [if_pos (chars_eq.2 ⟨bound, eq⟩)]

/-- A class matches one of its characters. -/
theorem Symbol.scan_charClass_iff {cls : CharClass} {input : Input} {start stop : Nat} :
    (Symbol.charClass cls).scan? input start = some stop ↔
      stop = start + 1 ∧ stop ≤ input.length ∧
        ∃ c, cls.contains c = true ∧ input.text start stop = [c] := by
  unfold Symbol.scan?
  dsimp only
  cases at_ : input.charAt? start with
  | none =>
    have past : input.length ≤ start := by
      unfold Input.charAt? at at_
      exact Array.getElem?_eq_none_iff.1 at_
    constructor
    · intro scanned
      cases scanned
    · rintro ⟨eq, bound, -⟩
      omega
  | some c =>
    have bound : start < input.length := by
      unfold Input.charAt? at at_
      exact (Array.getElem?_eq_some_iff.1 at_).1
    have text := input.text_succ at_
    constructor
    · intro scanned
      dsimp only at scanned
      split at scanned
      · next holds =>
        rw [← Option.some.inj scanned]
        exact ⟨rfl, bound, c, holds, text⟩
      · cases scanned
    · rintro ⟨rfl, -, other, holds, eq⟩
      rw [text] at eq
      cases eq
      exact if_pos holds

theorem Symbol.scan_bounds {symbol : Symbol} {input : Input} {start stop : Nat}
    (scanned : symbol.scan? input start = some stop) : start ≤ stop ∧ stop ≤ input.length := by
  cases symbol with
  | literal text =>
    obtain ⟨ordered, bound, -⟩ := Symbol.scan_literal_iff.1 scanned
    exact ⟨ordered, bound⟩
  | charClass cls =>
    obtain ⟨eq, bound, -⟩ := Symbol.scan_charClass_iff.1 scanned
    omega
  | nonTerminal name => cases scanned
  | list element separators repetition => cases scanned

/-- Only a terminal matches the text itself. -/
theorem Symbol.isTerminal_of_scan {symbol : Symbol} {input : Input} {start stop : Nat}
    (scanned : symbol.scan? input start = some stop) : symbol.isTerminal = true := by
  cases symbol with
  | literal text => rfl
  | charClass cls => rfl
  | nonTerminal name => cases scanned
  | list element separators repetition => cases scanned

end Scannerless
