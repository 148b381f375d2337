import Mathlib.Data.List.Chain
import Scannerless.Proofs.Quoting
import Scannerless.Symbol.Order
import Scannerless.Symbol.Text

/-!
# Symbols read back

Two symbols can be written alike. A literal tells its text, and a list its parts, but a class does
not always tell its ranges: the hyphen between the bounds of a range is written like the hyphen that
is a member, and no range is set off from the next. `CharClass.alike_iff` says when two classes are
written alike: they are the same, or they differ in how one hyphen is read, as `Regrouped` lists the
ways.

For symbols whose names hold none of the characters that symbols are set off with, that is all that
is lost: `Symbol.describe_eq_iff`. The proof reads the symbol from the left. The characters of a
class increase, hyphens aside, so a closing bracket that is a member cannot be taken for the one
that ends the class.
-/

namespace Scannerless

/-! ## What is written for a class -/

/-- The characters that are written for a range. -/
def CharRange.tokens (r : CharRange) : List Char :=
  if r.first = r.last then [r.first] else [r.first, '-', r.last]

theorem CharRange.head_tokens (r : CharRange) : r.tokens.head? = some r.first := by
  unfold tokens
  split
  · rfl
  · rfl

theorem CharRange.getLast_tokens (r : CharRange) : r.tokens.getLast? = some r.last := by
  unfold tokens
  split
  · next single => exact congrArg some single
  · rfl

theorem CharRange.toList_describe (r : CharRange) :
    r.describe.toList = r.tokens.flatMap Text.bareChar := by
  unfold describe tokens
  split
  · rw [String.toList_ofList, List.flatMap_singleton]
  · have hyphen : Text.bareChar '-' = ['-'] := by decide
    simp [hyphen]

namespace CharClass

/-- The characters that are written for a class, between the brackets. -/
def tokens (cls : CharClass) : List Char :=
  cls.ranges.flatMap CharRange.tokens

theorem toList_describe (cls : CharClass) :
    cls.describe.toList = '[' :: (cls.tokens.flatMap Text.bareChar ++ [']']) := by
  have ranges : (String.join (cls.ranges.map CharRange.describe)).toList =
      cls.tokens.flatMap Text.bareChar := by
    rw [String.toList_join, List.flatMap_map, tokens, List.flatMap_assoc]
    simp only [CharRange.toList_describe]
  rw [describe, String.toList_append, String.toList_append, ranges]
  rfl

/-- Whether a character can be written after another inside a class. -/
def Rises (c d : Char) : Prop :=
  c = '-' ∨ d = '-' ∨ c < d

instance : DecidableRel Rises := fun c d =>
  inferInstanceAs (Decidable (c = '-' ∨ d = '-' ∨ c < d))

/-- Hyphens aside, the characters of a class increase. -/
theorem isChain_tokens {ranges : List CharRange} (normal : ranges.Pairwise CharRange.Before) :
    (ranges.flatMap CharRange.tokens).IsChain Rises := by
  induction ranges with
  | nil => exact .nil
  | cons r rest ih =>
    obtain ⟨before, normal⟩ := List.pairwise_cons.1 normal
    rw [List.flatMap_cons, List.isChain_append]
    refine ⟨?_, ih normal, ?_⟩
    · unfold CharRange.tokens
      split
      · exact .singleton _
      · exact .cons_cons (.inr (.inl rfl)) (.cons_cons (.inl rfl) (.singleton _))
    · rw [r.getLast_tokens]
      rintro _ ⟨⟩ d first
      cases rest with
      | nil => cases first
      | cons s rest =>
        rw [List.flatMap_cons, List.head?_append, s.head_tokens] at first
        cases first
        have later : r.last.toNat + 1 < s.first.toNat := before s List.mem_cons_self
        exact .inr (.inr (show r.last.toNat < s.first.toNat by omega))

end CharClass

/-! ## Where a symbol ends -/

/-- What can come after a symbol in the written form of a symbol. -/
inductive Follows : List Char → Prop where
  /-- The symbol is the whole. -/
  | nothing : Follows []
  /-- A separator comes after it. -/
  | separator (rest : List Char) : Follows (' ' :: rest)
  /-- It is the last part of a list. -/
  | closing (repetition : Repetition) (rest : List Char) :
    Follows ('\x7d' :: (repetition.mark.toList ++ rest))

/-- A bracket with nothing but larger characters or hyphens after it inside a class is not one that
ends a symbol. -/
theorem Follows.not_member {tokens rest u : List Char} (follows : Follows u)
    (chain : (']' :: tokens).IsChain CharClass.Rises) :
    u ≠ tokens.flatMap Text.bareChar ++ ']' :: rest := by
  -- Neither the first character of `u` nor its second can be written after the one before it.
  have leads : ∀ {d : Char} {tokens v : List Char}, d ≠ '\\' → d ≠ ']' →
      d :: v = tokens.flatMap Text.bareChar ++ ']' :: rest →
        ∃ others, tokens = d :: others ∧ v = others.flatMap Text.bareChar ++ ']' :: rest := by
    intro d tokens v notBackslash notBracket same
    cases tokens with
    | nil => exact absurd (List.cons.inj same).1 notBracket
    | cons c others =>
      rw [List.flatMap_cons, List.append_assoc] at same
      obtain ⟨rfl, after⟩ := (Text.Form.plain notBackslash).inj (Text.form_bareChar c) same
      exact ⟨others, rfl, after⟩
  intro same
  cases follows with
  | nothing => simp at same
  | separator v =>
    obtain ⟨others, rfl, -⟩ := leads (by decide) (by decide) same
    exact absurd (List.isChain_cons_cons.1 chain).1 (by decide)
  | closing repetition v =>
    obtain ⟨others, rfl, after⟩ := leads (by decide) (by decide) same
    cases repetition with
    | plus =>
      obtain ⟨_, rfl, -⟩ := leads (d := '+') (by decide) (by decide) after
      exact absurd (List.isChain_cons_cons.1 (List.isChain_cons_cons.1 chain).2).1 (by decide)
    | star =>
      obtain ⟨_, rfl, -⟩ := leads (d := '*') (by decide) (by decide) after
      exact absurd (List.isChain_cons_cons.1 (List.isChain_cons_cons.1 chain).2).1 (by decide)

/-- What is written between the brackets of a class can be read back. -/
theorem tokens_inj {s t u v : List Char} (followsU : Follows u) (followsV : Follows v)
    (chainS : s.IsChain CharClass.Rises) (chainT : t.IsChain CharClass.Rises)
    (same : s.flatMap Text.bareChar ++ ']' :: u = t.flatMap Text.bareChar ++ ']' :: v) :
    s = t ∧ u = v := by
  have bracket : Text.Form ']' [']'] := .plain (by decide)
  induction s generalizing t with
  | nil =>
    cases t with
    | nil => exact ⟨rfl, (List.cons.inj same).2⟩
    | cons d t =>
      rw [List.flatMap_cons, List.append_assoc] at same
      obtain ⟨rfl, after⟩ := bracket.inj (Text.form_bareChar d) same
      exact absurd after (followsU.not_member chainT)
  | cons c s ih =>
    cases t with
    | nil =>
      rw [List.flatMap_cons, List.append_assoc] at same
      obtain ⟨rfl, after⟩ := bracket.inj (Text.form_bareChar c) same.symm
      exact absurd after (followsV.not_member chainS)
    | cons d t =>
      rw [List.flatMap_cons, List.flatMap_cons, List.append_assoc, List.append_assoc] at same
      obtain ⟨rfl, after⟩ := (Text.form_bareChar c).inj (Text.form_bareChar d) same
      obtain ⟨rfl, rest⟩ := ih chainS.tail chainT.tail after
      exact ⟨rfl, rest⟩

/-! ## Classes written alike -/

/-- Ranges that are written alike, and in which one hyphen is read in two ways. On the left it is a
member next to `a`, or the first member of a range; on the right it is between the bounds of a
range, or the last member of one. -/
inductive Regrouped : List CharRange → List CharRange → Prop where
  /-- The members `a`, `-`, `b`, and the range from `a` to `b`. -/
  | between (a b : Char) (below : a ≤ b) (several : a ≠ b) (rest : List CharRange) :
    Regrouped (.single a :: .single '-' :: .single b :: rest) (⟨a, b, below⟩ :: rest)
  /-- The member `a` and the range from `-` to `b`, and the range from `a` to `-` and the
  member `b`. -/
  | beside (a b : Char) (below : a ≤ '-') (above : '-' ≤ b) (several : a ≠ '-') (several' : '-' ≠ b)
    (rest : List CharRange) :
    Regrouped (.single a :: ⟨'-', b, above⟩ :: rest) (⟨a, '-', below⟩ :: .single b :: rest)
  | later (r : CharRange) {s t : List CharRange} : Regrouped s t → Regrouped (r :: s) (r :: t)

theorem Regrouped.tokens_eq {s t : List CharRange} (regrouped : Regrouped s t) :
    s.flatMap CharRange.tokens = t.flatMap CharRange.tokens := by
  induction regrouped with
  | between a b below several rest => simp [CharRange.tokens, CharRange.single, several]
  | beside a b below above several several' rest =>
    simp [CharRange.tokens, CharRange.single, several, several']
  | later r _ ih => rw [List.flatMap_cons, List.flatMap_cons, ih]

theorem CharRange.tokens_single (c : Char) : (CharRange.single c).tokens = [c] :=
  if_pos rfl

theorem CharRange.tokens_several {a b : Char} (below : a ≤ b) (several : a ≠ b) :
    (CharRange.mk a b below).tokens = [a, '-', b] :=
  if_neg several

/-- Ranges that are written with `c` first begin with the member `c`, or with a range from `c`. -/
theorem cons_of_tokens {ranges : List CharRange} {c : Char} {u : List Char}
    (written : ranges.flatMap CharRange.tokens = c :: u) :
    (∃ rest, ranges = .single c :: rest ∧ rest.flatMap CharRange.tokens = u) ∨
      ∃ b below rest, c ≠ b ∧ ranges = ⟨c, b, below⟩ :: rest ∧
        '-' :: b :: rest.flatMap CharRange.tokens = u := by
  cases ranges with
  | nil => cases written
  | cons r rest =>
    rw [List.flatMap_cons] at written
    obtain ⟨a, b, below⟩ := r
    by_cases single : a = b
    · subst single
      obtain ⟨rfl, after⟩ := List.cons.inj ((CharRange.tokens_single a) ▸ written)
      exact .inl ⟨rest, rfl, after⟩
    · rw [CharRange.tokens_several below single] at written
      obtain ⟨rfl, after⟩ := List.cons.inj written
      exact .inr ⟨b, below, rest, single, rfl, after⟩

theorem eq_of_tokens_nil {ranges : List CharRange}
    (written : ranges.flatMap CharRange.tokens = []) : ranges = [] := by
  cases ranges with
  | nil => rfl
  | cons r rest =>
    have head := congrArg List.head? written
    rw [List.flatMap_cons, List.head?_append, r.head_tokens] at head
    cases head

theorem tokens_ne_of_above {ranges : List CharRange} {u : List Char}
    (above : ∀ r ∈ ranges, '-'.toNat < r.first.toNat) :
    ranges.flatMap CharRange.tokens ≠ '-' :: u := by
  intro written
  rcases cons_of_tokens written with ⟨_, rfl, -⟩ | ⟨_, _, _, -, rfl, -⟩
  · exact Nat.lt_irrefl _ (above _ List.mem_cons_self)
  · exact Nat.lt_irrefl _ (above _ List.mem_cons_self)

/-- Above the hyphen, the ranges can be read back. -/
theorem eq_of_tokens {s t : List CharRange}
    (aboveS : ∀ r ∈ s, '-'.toNat < r.first.toNat) (aboveT : ∀ r ∈ t, '-'.toNat < r.first.toNat)
    (same : s.flatMap CharRange.tokens = t.flatMap CharRange.tokens) : s = t := by
  induction s generalizing t with
  | nil => exact (eq_of_tokens_nil same.symm).symm
  | cons r s ih =>
    have aboveRest : ∀ q ∈ s, '-'.toNat < q.first.toNat := fun q member =>
      aboveS q (List.mem_cons_of_mem r member)
    obtain ⟨a, b, below⟩ := r
    by_cases single : a = b
    · subst single
      rcases cons_of_tokens (u := s.flatMap CharRange.tokens)
        (same.symm.trans (congrArg (· ++ _) (CharRange.tokens_single a)))
        with ⟨rest, rfl, after⟩ | ⟨_, _, _, -, rfl, after⟩
      · rw [ih aboveRest (fun q member => aboveT q (List.mem_cons_of_mem _ member)) after.symm]
        rfl
      · exact absurd after.symm (tokens_ne_of_above aboveRest)
    · rcases cons_of_tokens (u := '-' :: b :: s.flatMap CharRange.tokens)
        (same.symm.trans (congrArg (· ++ _) (CharRange.tokens_several below single)))
        with ⟨rest, rfl, after⟩ | ⟨_, _, rest, -, rfl, after⟩
      · exact absurd after
          (tokens_ne_of_above fun q member => aboveT q (List.mem_cons_of_mem _ member))
      · obtain ⟨rfl, after'⟩ := List.cons.inj (List.cons.inj after).2
        rw [ih aboveRest (fun q member => aboveT q (List.mem_cons_of_mem _ member)) after'.symm]

theorem above_of_before {r : CharRange} {ranges : List CharRange} (later : ∀ s ∈ ranges, r.Before s)
    (above : '-'.toNat ≤ r.last.toNat) : ∀ s ∈ ranges, '-'.toNat < s.first.toNat := by
  intro s member
  have gap : r.last.toNat + 1 < s.first.toNat := later s member
  omega

/-- Where one reading begins with the member `a` and the other with a range from `a`, a hyphen is
read in two ways. -/
theorem regrouped_of_mixed {a b : Char} {below : a ≤ b} {s t : List CharRange} (several : a ≠ b)
    (normalS : s.Pairwise CharRange.Before) (afterB : ∀ r ∈ t, (CharRange.mk a b below).Before r)
    (same : s.flatMap CharRange.tokens = '-' :: b :: t.flatMap CharRange.tokens) :
    Regrouped (.single a :: s) (⟨a, b, below⟩ :: t) := by
  rcases cons_of_tokens same with ⟨s, rfl, after⟩ | ⟨c, above, s, severalC, rfl, after⟩
  · -- The hyphen is a member on the left, so `b` comes next.
    have aboveS := above_of_before (List.pairwise_cons.1 normalS).1 (Nat.le_refl _)
    rcases cons_of_tokens after with ⟨s, rfl, rest⟩ | ⟨c, belowC, s, -, rfl, rest⟩
    · have aboveB : '-'.toNat < b.toNat := aboveS _ List.mem_cons_self
      have aboveT := above_of_before afterB (Nat.le_of_lt aboveB)
      rw [eq_of_tokens (fun r member => aboveS r (List.mem_cons_of_mem _ member)) aboveT rest]
      exact .between a b below several t
    · have aboveB : '-'.toNat < b.toNat := aboveS _ List.mem_cons_self
      exact absurd rest.symm (tokens_ne_of_above (above_of_before afterB (Nat.le_of_lt aboveB)))
  · -- The hyphen begins a range on the left, so it ends the one on the right.
    obtain ⟨rfl, members⟩ := List.cons.inj after
    have aboveS := above_of_before (List.pairwise_cons.1 normalS).1 above
    have aboveT := above_of_before afterB (Nat.le_refl _)
    rcases cons_of_tokens members.symm with ⟨t, rfl, rest⟩ | ⟨d, belowD, t, -, rfl, rest⟩
    · rw [eq_of_tokens aboveS (fun r member => aboveT r (List.mem_cons_of_mem _ member)) rest.symm]
      exact .beside a c below above several severalC t
    · exact absurd rest.symm (tokens_ne_of_above aboveS)

/-- Ranges that are written with the same characters are the same, but for the reading of one
hyphen. -/
theorem regrouped_of_tokens {s t : List CharRange} (normalS : s.Pairwise CharRange.Before)
    (normalT : t.Pairwise CharRange.Before)
    (same : s.flatMap CharRange.tokens = t.flatMap CharRange.tokens) :
    s = t ∨ Regrouped s t ∨ Regrouped t s := by
  induction s generalizing t with
  | nil => exact .inl (eq_of_tokens_nil same.symm).symm
  | cons r s ih =>
    obtain ⟨afterR, normalRest⟩ := List.pairwise_cons.1 normalS
    have kept : ∀ {t : List CharRange}, s = t ∨ Regrouped s t ∨ Regrouped t s →
        r :: s = r :: t ∨ Regrouped (r :: s) (r :: t) ∨ Regrouped (r :: t) (r :: s) := by
      rintro t (rfl | onLeft | onRight)
      · exact .inl rfl
      · exact .inr (.inl (onLeft.later r))
      · exact .inr (.inr (onRight.later r))
    obtain ⟨a, b, below⟩ := r
    by_cases single : a = b
    · subst single
      rcases cons_of_tokens (u := s.flatMap CharRange.tokens)
        (same.symm.trans (congrArg (· ++ _) (CharRange.tokens_single a)))
        with ⟨t, rfl, after⟩ | ⟨b, belowB, t, several, rfl, after⟩
      · exact kept (ih normalRest (List.pairwise_cons.1 normalT).2 after.symm)
      · exact .inr (.inl (regrouped_of_mixed several normalRest (List.pairwise_cons.1 normalT).1
          after.symm))
    · rcases cons_of_tokens (u := '-' :: b :: s.flatMap CharRange.tokens)
        (same.symm.trans (congrArg (· ++ _) (CharRange.tokens_several below single)))
        with ⟨t, rfl, after⟩ | ⟨c, _, t, -, rfl, after⟩
      · exact .inr (.inr (regrouped_of_mixed single (List.pairwise_cons.1 normalT).2 afterR after))
      · obtain ⟨rfl, rest⟩ := List.cons.inj (List.cons.inj after).2
        exact kept (ih normalRest (List.pairwise_cons.1 normalT).2 rest.symm)

/-- The classes are the same but for the reading of one hyphen. -/
def CharClass.Alike (c d : CharClass) : Prop :=
  c = d ∨ Regrouped c.ranges d.ranges ∨ Regrouped d.ranges c.ranges

theorem CharClass.alike_iff {c d : CharClass} : c.Alike d ↔ c.tokens = d.tokens := by
  constructor
  · rintro (rfl | onLeft | onRight)
    · rfl
    · exact onLeft.tokens_eq
    · exact onRight.tokens_eq.symm
  · intro same
    exact (regrouped_of_tokens c.normal d.normal same).imp_left CharClass.ext

/-- Classes are told apart by their written forms, but for the reading of one hyphen. -/
theorem CharClass.describe_inj {c d : CharClass} {u v : List Char} (followsU : Follows u)
    (followsV : Follows v) (same : c.describe.toList ++ u = d.describe.toList ++ v) :
    c.Alike d ∧ u = v := by
  rw [toList_describe, toList_describe, List.cons_append, List.cons_append, List.append_assoc,
    List.append_assoc] at same
  obtain ⟨tokens, after⟩ := tokens_inj followsU followsV (isChain_tokens c.normal)
    (isChain_tokens d.normal) (List.cons.inj same).2
  exact ⟨alike_iff.2 tokens, after⟩

/-! ## Names -/

/-- A name is plain if it holds none of the characters that symbols are set off with. -/
def Text.Plain (name : String) : Prop :=
  ∀ c ∈ name.toList, c ∉ [' ', '"', '[', '\x7b', '\x7d']

instance : DecidablePred Text.Plain := fun name =>
  List.decidableBAll (fun c => c ∉ [' ', '"', '[', '\x7b', '\x7d']) name.toList

/-- Names made of letters and digits are plain. -/
theorem Text.plain_of_isAlphanum {name : String}
    (alphanumeric : name.toList.all Char.isAlphanum = true) : Text.Plain name := by
  intro c member special
  have known := List.all_eq_true.1 alphanumeric c member
  simp only [List.mem_cons, List.not_mem_nil, or_false] at special
  rcases special with rfl | rfl | rfl | rfl | rfl
  · exact absurd known (by decide)
  · exact absurd known (by decide)
  · exact absurd known (by decide)
  · exact absurd known (by decide)
  · exact absurd known (by decide)

theorem plain_inj {s t u v : List Char} (followsU : Follows u) (followsV : Follows v)
    (plainS : ∀ c ∈ s, c ∉ [' ', '"', '[', '\x7b', '\x7d'])
    (plainT : ∀ c ∈ t, c ∉ [' ', '"', '[', '\x7b', '\x7d'])
    (same : s ++ u = t ++ v) : s = t ∧ u = v := by
  have never : ∀ {c : Char} {w rest : List Char}, Follows w → w = c :: rest →
      c ∈ [' ', '"', '[', '\x7b', '\x7d'] := by
    rintro c w rest (_ | _ | _) begins
    · cases begins
    · obtain ⟨rfl, -⟩ := List.cons.inj begins
      decide
    · obtain ⟨rfl, -⟩ := List.cons.inj begins
      decide
  induction s generalizing t with
  | nil =>
    cases t with
    | nil => exact ⟨rfl, same⟩
    | cons d t => exact absurd (never followsU same) (plainT d List.mem_cons_self)
  | cons c s ih =>
    cases t with
    | nil => exact absurd (never followsV same.symm) (plainS c List.mem_cons_self)
    | cons d t =>
      obtain ⟨rfl, rest⟩ := List.cons.inj same
      obtain ⟨rfl, after⟩ := ih (fun e member => plainS e (List.mem_cons_of_mem c member))
        (fun e member => plainT e (List.mem_cons_of_mem c member)) rest
      exact ⟨rfl, after⟩

/-! ## Symbols written alike -/

namespace Symbol

mutual

/-- Whether all names in a symbol are plain. -/
def PlainNames : Symbol → Prop
  | literal _ => True
  | charClass _ => True
  | nonTerminal name => Text.Plain name
  | list element separators _ => PlainNames element ∧ AllPlainNames separators

/-- Whether all names in symbols are plain. -/
def AllPlainNames : List Symbol → Prop
  | [] => True
  | symbol :: rest => PlainNames symbol ∧ AllPlainNames rest

end

mutual

/-- Looks at all names in a symbol. -/
def decidePlainNames : (symbol : Symbol) → Decidable symbol.PlainNames
  | literal _ => .isTrue trivial
  | charClass _ => .isTrue trivial
  | nonTerminal name => inferInstanceAs (Decidable (Text.Plain name))
  | list element separators _ =>
    @instDecidableAnd _ _ (decidePlainNames element) (decideAllPlainNames separators)

/-- Looks at all names in symbols. -/
def decideAllPlainNames : (symbols : List Symbol) → Decidable (AllPlainNames symbols)
  | [] => .isTrue trivial
  | symbol :: rest => @instDecidableAnd _ _ (decidePlainNames symbol) (decideAllPlainNames rest)

end

instance : DecidablePred PlainNames := decidePlainNames

mutual

/-- The symbols are the same, but for the reading of a hyphen in each of their classes. -/
def Alike : Symbol → Symbol → Prop
  | literal s, literal t => s = t
  | charClass c, charClass d => c.Alike d
  | nonTerminal m, nonTerminal n => m = n
  | list e ss r, list f ts q => Alike e f ∧ AllAlike ss ts ∧ r = q
  | _, _ => False

/-- The sequences agree symbol by symbol, in the same sense. -/
def AllAlike : List Symbol → List Symbol → Prop
  | [], [] => True
  | s :: ss, t :: ts => Alike s t ∧ AllAlike ss ts
  | _, _ => False

end

theorem toList_describe_list (element : Symbol) (separators : List Symbol)
    (repetition : Repetition) :
    (describe (list element separators repetition)).toList =
      '\x7b' :: ((describe element).toList ++ ((describeAfter separators).toList ++
        '\x7d' :: repetition.mark.toList)) := by
  simp [describe]

theorem toList_describeAfter_cons (symbol : Symbol) (rest : List Symbol) :
    (describeAfter (symbol :: rest)).toList =
      ' ' :: ((describe symbol).toList ++ (describeAfter rest).toList) := by
  simp [describeAfter]

theorem follows_describeAfter (separators : List Symbol) (repetition : Repetition)
    (rest : List Char) :
    Follows ((describeAfter separators).toList ++ '\x7d' :: (repetition.mark.toList ++ rest)) := by
  cases separators with
  | nil => exact .closing repetition rest
  | cons symbol others =>
    rw [toList_describeAfter_cons, List.cons_append]
    exact .separator _

/-- The rank of the symbols whose written form begins like the text. -/
def rankOf : List Char → Nat
  | '"' :: _ => 0
  | '[' :: _ => 1
  | '\x7b' :: _ => 3
  | _ => 2

theorem rankOf_describe {symbol : Symbol} {u : List Char} (plain : symbol.PlainNames)
    (follows : Follows u) : rankOf (symbol.describe.toList ++ u) = symbol.rank := by
  cases symbol with
  | literal text =>
    rw [describe, Text.toList_quoted]
    rfl
  | charClass cls =>
    rw [describe, CharClass.toList_describe]
    rfl
  | list element separators repetition =>
    rw [toList_describe_list]
    rfl
  | nonTerminal name =>
    rw [describe]
    rw [PlainNames, Text.Plain] at plain
    cases written : name.toList with
    | nil =>
      cases follows with
      | nothing => rfl
      | separator => rfl
      | closing => rfl
    | cons c rest =>
      rw [written] at plain
      have special := plain c List.mem_cons_self
      rw [List.cons_append]
      unfold rankOf
      split
      · next eq => exact absurd (by decide) ((List.cons.inj eq).1 ▸ special)
      · next eq => exact absurd (by decide) ((List.cons.inj eq).1 ▸ special)
      · next eq => exact absurd (by decide) ((List.cons.inj eq).1 ▸ special)
      · rfl

/-- Symbols written alike are of the same kind. -/
theorem rank_eq_of_describe {s t : Symbol} {u v : List Char} (plainS : s.PlainNames)
    (plainT : t.PlainNames) (followsU : Follows u) (followsV : Follows v)
    (same : s.describe.toList ++ u = t.describe.toList ++ v) : s.rank = t.rank := by
  rw [← rankOf_describe plainS followsU, same, rankOf_describe plainT followsV]

mutual

/-- Symbols with plain names are told apart by their written forms, but for the reading of
hyphens. -/
theorem describe_inj : ∀ (s : Symbol) ⦃t : Symbol⦄ ⦃u v : List Char⦄, s.PlainNames →
    t.PlainNames → Follows u → Follows v → s.describe.toList ++ u = t.describe.toList ++ v →
      s.Alike t ∧ u = v
  | literal s => by
    intro t u v plainS plainT followsU followsV same
    have rank := rank_eq_of_describe plainS plainT followsU followsV same
    cases t with
    | literal t => exact Text.quoted_inj same
    | _ => cases rank
  | charClass c => by
    intro t u v plainS plainT followsU followsV same
    have rank := rank_eq_of_describe plainS plainT followsU followsV same
    cases t with
    | charClass d => exact CharClass.describe_inj followsU followsV same
    | _ => cases rank
  | nonTerminal m => by
    intro t u v plainS plainT followsU followsV same
    have rank := rank_eq_of_describe plainS plainT followsU followsV same
    cases t with
    | nonTerminal n =>
      obtain ⟨names, after⟩ := plain_inj followsU followsV plainS plainT same
      exact ⟨String.toList_inj.1 names, after⟩
    | _ => cases rank
  | list e ss r => by
    intro t u v plainS plainT followsU followsV same
    have rank := rank_eq_of_describe plainS plainT followsU followsV same
    cases t with
    | list f ts q =>
      simp only [toList_describe_list, List.cons_append, List.append_assoc, List.cons.injEq,
        true_and] at same
      obtain ⟨elements, after⟩ := describe_inj e plainS.1 plainT.1 (follows_describeAfter ss r u)
        (follows_describeAfter ts q v) same
      obtain ⟨separators, repetitions, rest⟩ := describeAfter_inj ss plainS.2 plainT.2 after
      exact ⟨⟨elements, separators, repetitions⟩, rest⟩
    | _ => cases rank

/-- So are separators, up to the end of their list. -/
theorem describeAfter_inj : ∀ (ss : List Symbol) ⦃ts : List Symbol⦄ ⦃r q : Repetition⦄
    ⦃u v : List Char⦄, AllPlainNames ss → AllPlainNames ts →
      (describeAfter ss).toList ++ '\x7d' :: (r.mark.toList ++ u) =
        (describeAfter ts).toList ++ '\x7d' :: (q.mark.toList ++ v) →
        AllAlike ss ts ∧ r = q ∧ u = v
  | [] => by
    intro ts r q u v _ _ same
    cases ts with
    | nil => cases r <;> cases q <;> simp_all [describeAfter, Repetition.mark, AllAlike]
    | cons t ts => simp [describeAfter] at same
  | s :: ss => by
    intro ts r q u v plainS plainT same
    cases ts with
    | nil => simp [describeAfter] at same
    | cons t ts =>
      simp only [toList_describeAfter_cons, List.cons_append, List.append_assoc, List.cons.injEq,
        true_and] at same
      obtain ⟨first, after⟩ := describe_inj s plainS.1 plainT.1 (follows_describeAfter ss r u)
        (follows_describeAfter ts q v) same
      obtain ⟨others, repetitions, rest⟩ := describeAfter_inj ss plainS.2 plainT.2 after
      exact ⟨⟨first, others⟩, repetitions, rest⟩

end

mutual

theorem describe_eq_of_alike : ∀ {s t : Symbol}, s.Alike t → s.describe = t.describe
  | literal s, t, alike => by
    cases t with
    | literal t => exact congrArg Text.quoted alike
    | _ => exact alike.elim
  | charClass c, t, alike => by
    cases t with
    | charClass d =>
      refine String.toList_inj.1 ?_
      rw [describe, describe, CharClass.toList_describe, CharClass.toList_describe,
        CharClass.alike_iff.1 alike]
    | _ => exact alike.elim
  | nonTerminal m, t, alike => by
    cases t with
    | nonTerminal n => exact alike
    | _ => exact alike.elim
  | list e ss r, t, alike => by
    cases t with
    | list f ts q =>
      obtain ⟨elements, separators, rfl⟩ := alike
      rw [describe, describe, describe_eq_of_alike elements, describeAfter_eq_of_alike separators]
    | _ => exact alike.elim

theorem describeAfter_eq_of_alike : ∀ {ss ts : List Symbol}, AllAlike ss ts →
    describeAfter ss = describeAfter ts
  | [], [], _ => rfl
  | [], _ :: _, alike => alike.elim
  | _ :: _, [], alike => alike.elim
  | s :: ss, t :: ts, alike => by
    rw [describeAfter, describeAfter, describe_eq_of_alike alike.1,
      describeAfter_eq_of_alike alike.2]

end

/-- Symbols with plain names have the same written form just if they are alike. -/
theorem describe_eq_iff {s t : Symbol} (plainS : s.PlainNames) (plainT : t.PlainNames) :
    s.describe = t.describe ↔ s.Alike t := by
  refine ⟨fun same => ?_, describe_eq_of_alike⟩
  exact (describe_inj s plainS plainT .nothing .nothing
    (congrArg (fun text => text.toList ++ []) same)).1

end Symbol

end Scannerless
