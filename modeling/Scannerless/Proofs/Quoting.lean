import Mathlib.Data.List.Basic
import Scannerless.Text.Quoted

/-!
# Characters read back

The written forms of characters can be told apart, wherever one ends and the next begins. A
character stands for itself, unless it is a backslash, or it is written as a backslash and a letter,
or it is named by its code point in braces. `Text.Form` collects the three; `Text.Form.inj` says
that no form begins another, so that a written text can be read back from the left.

It follows for quoted texts that the text between the quotes is determined, and what comes after
it (`Text.quoted_inj`).
-/

namespace Scannerless

namespace Text

/-- Texts before the first occurrence of the same character are read back. -/
theorem append_cons_inj {stop : Char} {s t u v : List Char} (before : stop ∉ s) (before' : stop ∉ t)
    (same : s ++ stop :: u = t ++ stop :: v) : s = t ∧ u = v := by
  induction s generalizing t with
  | nil =>
    cases t with
    | nil => exact ⟨rfl, (List.cons.inj same).2⟩
    | cons d t => exact absurd (List.cons.inj same).1 (List.ne_of_not_mem_cons before')
  | cons c s ih =>
    cases t with
    | nil => exact absurd (List.cons.inj same).1.symm (List.ne_of_not_mem_cons before)
    | cons d t =>
      obtain ⟨rfl, rest⟩ := List.cons.inj same
      obtain ⟨rfl, after⟩ := ih (List.not_mem_of_not_mem_cons before)
        (List.not_mem_of_not_mem_cons before') rest
      exact ⟨rfl, after⟩

/-! ## Code points -/

theorem not_mem_toDigits : ∀ (n : Nat), '\x7d' ∉ Nat.toDigits 16 n := by
  intro n
  induction n using Nat.strongRecOn with
  | ind n ih =>
    have digit : ∀ k < 16, '\x7d' ≠ Nat.digitChar k := by decide
    rw [Nat.toDigits_eq_if (by decide)]
    split
    · next small =>
      rw [List.mem_singleton]
      exact digit n small
    · next large =>
      rw [List.mem_append, List.mem_singleton, not_or]
      exact ⟨ih (n / 16) (by omega), digit (n % 16) (by omega)⟩

theorem toDigits_inj : ∀ {m n : Nat}, Nat.toDigits 16 m = Nat.toDigits 16 n → m = n := by
  intro m
  induction m using Nat.strongRecOn with
  | ind m ih =>
    have digit : ∀ j < 16, ∀ k < 16, Nat.digitChar j = Nat.digitChar k → j = k := by decide
    intro n same
    rw [Nat.toDigits_eq_if (by decide), Nat.toDigits_eq_if (n := n) (by decide)] at same
    split at same
    · next small =>
      split at same
      · next small' => exact digit m small n small' (List.singleton_inj.1 same)
      · rw [List.singleton_eq_append_iff] at same
        exact absurd same (by simp [Nat.toDigits_ne_nil])
    · next large =>
      split at same
      · rw [eq_comm, List.singleton_eq_append_iff] at same
        exact absurd same (by simp [Nat.toDigits_ne_nil])
      · next large' =>
        obtain ⟨quotients, last⟩ := List.append_inj' same rfl
        have quotient := ih (m / 16) (by omega) quotients
        have rest := digit (m % 16) (by omega) (n % 16) (by omega) (List.singleton_inj.1 last)
        omega

/-! ## Forms -/

/-- The characters that are written as a backslash and a letter. -/
def shortForms : List (Char × Char) :=
  [('\x00', '0'), ('\t', 't'), ('\r', 'r'), ('\n', 'n'), ('\\', '\\'), ('"', '"'), ('\'', '\'')]

/-- The ways to write a character. -/
inductive Form (c : Char) : List Char → Prop where
  | plain : c ≠ '\\' → Form c [c]
  | short {letter : Char} : (c, letter) ∈ shortForms → Form c ['\\', letter]
  | named : Form c (codePoint c)

/-- No form of a character begins a form of another. -/
theorem Form.inj {c d : Char} {x y u v : List Char} (first : Form c x) (second : Form d y)
    (same : x ++ u = y ++ v) : c = d ∧ u = v := by
  have letters : ∀ p ∈ shortForms, ∀ q ∈ shortForms, p.2 = q.2 → p.1 = q.1 := by decide
  have notNamed : ∀ p ∈ shortForms, p.2 ≠ 'u' := by decide
  cases first with
  | plain notBackslash =>
    cases second with
    | plain => simpa using same
    | short =>
      simp only [List.cons_append, List.nil_append, List.cons.injEq] at same
      exact absurd same.1 notBackslash
    | named =>
      simp only [codePoint, List.cons_append, List.nil_append, List.cons.injEq] at same
      exact absurd same.1 notBackslash
  | short member =>
    cases second with
    | plain notBackslash =>
      simp only [List.cons_append, List.nil_append, List.cons.injEq] at same
      exact absurd same.1.symm notBackslash
    | short member' =>
      simp only [List.cons_append, List.nil_append, List.cons.injEq, true_and] at same
      exact ⟨letters _ member _ member' same.1, same.2⟩
    | named =>
      simp only [codePoint, List.cons_append, List.nil_append, List.cons.injEq, true_and] at same
      exact absurd same.1 (notNamed _ member)
  | named =>
    cases second with
    | plain notBackslash =>
      simp only [codePoint, List.cons_append, List.nil_append, List.cons.injEq] at same
      exact absurd same.1.symm notBackslash
    | short member =>
      simp only [codePoint, List.cons_append, List.nil_append, List.cons.injEq, true_and] at same
      exact absurd same.1.symm (notNamed _ member)
    | named =>
      simp only [codePoint, List.cons_append, List.nil_append, List.append_assoc, List.cons.injEq,
        true_and] at same
      obtain ⟨digits, after⟩ := append_cons_inj (not_mem_toDigits _) (not_mem_toDigits _) same
      exact ⟨Char.toNat_inj.1 (toDigits_inj digits), after⟩

/-- A form begins with a backslash, or it is the character itself. -/
theorem Form.eq_of_cons {c first : Char} {rest : List Char} (form : Form c (first :: rest))
    (notBackslash : first ≠ '\\') : c = first ∧ rest = [] := by
  generalize eq : first :: rest = written at form
  cases form with
  | plain => exact ⟨(List.cons.inj eq).1.symm, (List.cons.inj eq).2⟩
  | short => exact absurd (List.cons.inj eq).1 notBackslash
  | named => exact absurd (List.cons.inj eq).1 notBackslash

theorem Form.exists_cons {c : Char} {written : List Char} (form : Form c written) :
    ∃ first rest, written = first :: rest := by
  cases form with
  | plain => exact ⟨_, _, rfl⟩
  | short => exact ⟨_, _, rfl⟩
  | named => exact ⟨_, _, rfl⟩

theorem form_visible (c : Char) : Form c (visible c) := by
  unfold visible
  split
  · exact .short (by decide)
  · exact .short (by decide)
  · exact .short (by decide)
  · exact .short (by decide)
  · exact .short (by decide)
  · next notBackslash =>
    split
    · exact .named
    · exact .plain notBackslash

theorem form_quotedChar (c : Char) : Form c (quotedChar c) := by
  unfold quotedChar
  split
  · next quote =>
    subst quote
    exact .short (by decide)
  · exact form_visible c

theorem form_bareChar (c : Char) : Form c (bareChar c) := by
  unfold bareChar
  split
  · next quote =>
    rcases quote with rfl | rfl
    · exact .short (by decide)
    · exact .short (by decide)
  · exact form_visible c

/-! ## Quoted texts -/

/-- A quoted character never begins with the closing quote. -/
theorem quotedChar_append_ne (c : Char) (u v : List Char) : quotedChar c ++ u ≠ '"' :: v := by
  intro same
  obtain ⟨first, rest, written⟩ := (form_quotedChar c).exists_cons
  rw [written, List.cons_append, List.cons.injEq] at same
  have form := form_quotedChar c
  rw [written, same.1] at form
  have quote := (form.eq_of_cons (by decide)).1
  rw [quote, same.1] at written
  cases written

theorem flatMap_quotedChar_inj {s t u v : List Char}
    (same : s.flatMap quotedChar ++ '"' :: u = t.flatMap quotedChar ++ '"' :: v) :
    s = t ∧ u = v := by
  induction s generalizing t with
  | nil =>
    cases t with
    | nil => exact ⟨rfl, (List.cons.inj same).2⟩
    | cons d t =>
      rw [List.flatMap_nil, List.nil_append, List.flatMap_cons, List.append_assoc] at same
      exact absurd same.symm (quotedChar_append_ne d _ _)
  | cons c s ih =>
    cases t with
    | nil =>
      rw [List.flatMap_nil, List.nil_append, List.flatMap_cons, List.append_assoc] at same
      exact absurd same (quotedChar_append_ne c _ _)
    | cons d t =>
      rw [List.flatMap_cons, List.flatMap_cons, List.append_assoc, List.append_assoc] at same
      obtain ⟨rfl, rest⟩ := (form_quotedChar c).inj (form_quotedChar d) same
      obtain ⟨rfl, after⟩ := ih rest
      exact ⟨rfl, after⟩

theorem toList_quoted (text : String) :
    (quoted text).toList = '"' :: (text.toList.flatMap quotedChar ++ ['"']) := by
  rw [quoted, String.toList_ofList, List.cons_append]

/-- A quoted text tells the text and what follows the closing quote. -/
theorem quoted_inj {s t : String} {u v : List Char}
    (same : (quoted s).toList ++ u = (quoted t).toList ++ v) : s = t ∧ u = v := by
  rw [toList_quoted, toList_quoted, List.cons_append, List.cons_append, List.append_assoc,
    List.append_assoc] at same
  obtain ⟨texts, after⟩ := flatMap_quotedChar_inj (List.cons.inj same).2
  exact ⟨String.toList_inj.1 texts, after⟩

end Text

end Scannerless
