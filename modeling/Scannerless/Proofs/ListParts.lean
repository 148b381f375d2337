import Mathlib.Data.Nat.ModEq
import Scannerless.Proofs.SeparatedLists

/-!
# Parts of a list

A list node is made of any children that can be read as an element and rounds, which their number
alone decides. Elements are found in the children by skipping separators, separators by the
remainder of an index; `Node.Alternating.partitioned` says that the two agree: together they are the
children, and the children come of them again (`Node.weave`).

How far apart the elements are is one more than the arity, and for the greatest machine word that is
no machine word any more. `Node.ofList_partitioned` says what comes of a list for each arity, and
that the greatest one alone is not served as the others are (`Node.TellsApart`).
-/

namespace Scannerless

namespace Node

variable {arity : Nat} {rounds : List Round} {children : List Node}

/-- The elements, with so many separators between each two of them. -/
def weave (arity : Nat) : (elements separators : List Node) → List Node
  | [], _ => []
  | [element], _ => [element]
  | element :: next :: rest, separators =>
    element :: (separators.take arity ++ weave arity (next :: rest) (separators.drop arity))

/-- The children of a list, told apart as elements and separators. -/
structure ListParts.Partitioned (parts : ListParts) : Prop where
  elements_sublist : parts.elements.Sublist parts.children
  separators_sublist : parts.separators.Sublist parts.children
  perm : (parts.elements ++ parts.separators).Perm parts.children
  weave_eq : weave parts.separatorArity parts.elements parts.separators = parts.children
  length_separators : parts.separators.length =
    if parts.elements = [] then 0 else parts.separatorArity * (parts.elements.length - 1)

/-! ## Rounds -/

theorem sublist_ofRounds_elements (rounds : List Round) :
    (rounds.map Prod.snd).Sublist (ofRounds rounds) := by
  induction rounds with
  | nil => exact List.nil_sublist _
  | cons round rest ih =>
    obtain ⟨separators, element⟩ := round
    rw [ofRounds_cons, List.map_cons]
    exact (ih.cons_cons element).trans (List.sublist_append_right separators _)

theorem sublist_ofRounds_separators (rounds : List Round) :
    (rounds.flatMap Prod.fst).Sublist (ofRounds rounds) := by
  induction rounds with
  | nil => exact List.nil_sublist _
  | cons round rest ih =>
    obtain ⟨separators, element⟩ := round
    rw [ofRounds_cons, List.flatMap_cons]
    exact (List.Sublist.refl separators).append (ih.cons element)

theorem perm_ofRounds (rounds : List Round) :
    (rounds.map Prod.snd ++ rounds.flatMap Prod.fst).Perm (ofRounds rounds) := by
  induction rounds with
  | nil => exact .nil
  | cons round rest ih =>
    obtain ⟨separators, element⟩ := round
    rw [ofRounds_cons, List.map_cons, List.flatMap_cons, List.cons_append]
    have moved : (rest.map Prod.snd ++ (separators ++ rest.flatMap Prod.fst)).Perm
        (separators ++ ofRounds rest) :=
      (List.perm_append_comm_assoc _ _ _).trans (ih.append_left separators)
    exact (moved.cons element).trans List.perm_middle.symm

theorem weave_inTurns (even : ∀ round ∈ rounds, round.1.length = arity) (first : Node) :
    weave arity (first :: rounds.map Prod.snd) (rounds.flatMap Prod.fst) =
      inTurns first rounds := by
  induction rounds generalizing first with
  | nil => rfl
  | cons round rest ih =>
    obtain ⟨separators, element⟩ := round
    have length : separators.length = arity := even _ List.mem_cons_self
    have others := ih (fun round inRest => even round (List.mem_cons_of_mem _ inRest)) element
    rw [List.map_cons, List.flatMap_cons, weave, List.take_left' length, List.drop_left' length,
      others]
    unfold inTurns
    rw [ofRounds_cons]

/-- So many children are so many rounds. -/
theorem exists_rounds_of_length (arity : Nat) :
    ∀ {more : Nat} {nodes : List Node}, nodes.length = more * (arity + 1) →
      ∃ rounds : List Round, nodes = ofRounds rounds ∧ ∀ round ∈ rounds, round.1.length = arity
  | 0, nodes, length => by
    rw [Nat.zero_mul] at length
    exact ⟨[], List.length_eq_zero_iff.1 length, fun _ member => absurd member List.not_mem_nil⟩
  | more + 1, nodes, length => by
    rw [Nat.succ_mul] at length
    have within : (nodes.take arity).length = arity := List.length_take_of_le (by omega)
    cases after : nodes.drop arity with
    | nil =>
      have short := List.drop_eq_nil_iff.1 after
      omega
    | cons element rest =>
      have left := congrArg List.length after
      rw [List.length_drop, List.length_cons] at left
      have others : rest.length = more * (arity + 1) := by omega
      obtain ⟨rounds, rest_eq, even⟩ := exists_rounds_of_length arity others
      refine ⟨(nodes.take arity, element) :: rounds, ?_, List.forall_mem_cons.2 ⟨within, even⟩⟩
      rw [ofRounds_cons, ← rest_eq, ← after, List.take_append_drop]

/-! ## Lists -/

/-- Elements and separators take turns just if some number of rounds leaves one child over. -/
theorem alternating_iff : Alternating arity children ↔
    children = [] ∨ children.length ≡ 1 [MOD arity + 1] := by
  unfold Alternating
  refine or_congr_right' fun some_ => ?_
  have positive : 1 ≤ children.length := List.length_pos_iff.2 some_
  rw [Nat.ModEq.comm, Nat.modEq_iff_dvd' positive, Nat.dvd_iff_mod_eq_zero]

theorem Alternating.nil_or_inTurns (alternating : Alternating arity children) :
    children = [] ∨ ∃ (first : Node) (rounds : List Round), children = inTurns first rounds ∧
      ∀ round ∈ rounds, round.1.length = arity := by
  cases children with
  | nil => exact .inl rfl
  | cons first rest =>
    rcases alternating with empty | turns
    · cases empty
    · rw [List.length_cons, Nat.add_sub_cancel] at turns
      obtain ⟨more, length⟩ := Nat.dvd_of_mod_eq_zero turns
      rw [Nat.mul_comm] at length
      obtain ⟨rounds, rfl, even⟩ := exists_rounds_of_length arity length
      exact .inr ⟨first, rounds, rfl, even⟩

theorem length_flatMap_even (even : ∀ round ∈ rounds, round.1.length = arity) :
    (rounds.flatMap Prod.fst).length = arity * rounds.length := by
  have lengths : rounds.map (fun round => round.1.length) = List.replicate rounds.length arity :=
    List.eq_replicate_iff.2 ⟨List.length_map _, List.forall_mem_map.2 even⟩
  rw [List.length_flatMap, lengths, List.sum_replicate_nat, Nat.mul_comm]

theorem Alternating.partitioned (alternating : Alternating arity children) :
    ListParts.Partitioned ⟨arity, children⟩ := by
  rcases alternating.nil_or_inTurns with rfl | ⟨first, rounds, rfl, even⟩
  · exact ⟨.slnil, .slnil, .nil, rfl, rfl⟩
  have elements_eq := elements_inTurns even first
  have separators_eq := separators_inTurns even first
  constructor
  case elements_sublist =>
    rw [elements_eq]
    exact (sublist_ofRounds_elements rounds).cons_cons first
  case separators_sublist =>
    rw [separators_eq]
    exact (sublist_ofRounds_separators rounds).cons first
  case perm =>
    rw [elements_eq, separators_eq, List.cons_append]
    exact (perm_ofRounds rounds).cons first
  case weave_eq =>
    rw [elements_eq, separators_eq]
    exact weave_inTurns even first
  case length_separators =>
    rw [elements_eq, separators_eq, if_neg (List.cons_ne_nil _ _), length_flatMap_even even,
      List.length_cons, List.length_map, Nat.add_sub_cancel]

/-! ## Lists of a given arity -/

theorem stride?_eq_some (within : arity + 1 < UInt64.size) : stride? arity = some (arity + 1) :=
  if_pos within

theorem stride?_eq_none_iff : stride? arity = none ↔ ¬ arity + 1 < UInt64.size := by
  rw [stride?, ite_eq_right_iff]
  simp

/-- If the elements are not too far apart, they are found, and so are the separators. -/
theorem ListParts.found (parts : ListParts) (within : parts.separatorArity + 1 < UInt64.size) :
    parts.elements? = some parts.elements ∧ parts.separators? = some parts.separators := by
  unfold elements? separators?
  rw [stride?_eq_some within]
  exact ⟨rfl, rfl⟩

theorem ListParts.elements?_eq_none_iff {parts : ListParts} :
    parts.elements? = none ↔ ¬ parts.separatorArity + 1 < UInt64.size := by
  unfold elements?
  rw [Option.map_eq_none_iff, stride?_eq_none_iff]

section OfList

variable {id : Nat} {tag : String} {symbol : Symbol} {span : Span} {word : UInt64}

/-- For an arity below the greatest one, a list is made as if the arity had been counted. -/
theorem ofList_eq (within : word.toNat + 1 < UInt64.size) :
    ofList id tag symbol span word children =
      match list? id tag symbol span word.toNat children with
      | some node => .ok node
      | none => .error .uneven := by
  cases children with
  | nil => rfl
  | cons first rest =>
    have turns : Alternating word.toNat (first :: rest) ↔
        ((first :: rest).length - 1) % (word.toNat + 1) = 0 :=
      or_iff_right (List.cons_ne_nil first rest)
    unfold ofList list?
    rw [stride?_eq_some within]
    by_cases even : ((first :: rest).length - 1) % (word.toNat + 1) = 0
    · rw [if_pos (turns.2 even)]
      exact if_pos even
    · rw [if_neg (mt turns.1 even)]
      exact if_neg even

/-- For the greatest arity, a list is made of no children only. -/
theorem ofList_of_greatest (greatest : word.toNat + 1 = UInt64.size) :
    ofList id tag symbol span word children =
      if children = [] then .ok (.list id tag symbol span word.toNat []) else .error .overflow := by
  cases children with
  | nil => rfl
  | cons first rest =>
    unfold ofList
    rw [stride?_eq_none_iff.2 (Nat.not_lt.2 (Nat.le_of_eq greatest.symm))]
    rfl

/-- Below the greatest arity, lists are refused for how many children there are, and for nothing
else. -/
theorem ofList_eq_error_iff (within : word.toNat + 1 < UInt64.size) {fault : ListFault} :
    ofList id tag symbol span word children = .error fault ↔
      fault = .uneven ∧ children ≠ [] ∧ ¬ children.length ≡ 1 [MOD word.toNat + 1] := by
  rw [ofList_eq within, list?, ← not_or, ← alternating_iff]
  by_cases turns : Alternating word.toNat children
  · rw [if_pos turns]
    refine iff_of_false ?_ fun refused => refused.2 turns
    intro refused
    cases refused
  · rw [if_neg turns]
    exact ⟨fun refused => ⟨(Except.error.inj refused).symm, turns⟩, fun refused => refused.1 ▸ rfl⟩

/-- Whatever the arity, a list that is made can be made with its arity counted. -/
theorem list?_of_ofList {node : Node} (made : ofList id tag symbol span word children = .ok node) :
    list? id tag symbol span word.toNat children = some node := by
  by_cases within : word.toNat + 1 < UInt64.size
  · rw [ofList_eq within] at made
    split at made
    · next counted =>
      cases made
      exact counted
    · cases made
  · have greatest : word.toNat + 1 = UInt64.size :=
      Nat.le_antisymm word.toNat_lt_size (Nat.not_lt.1 within)
    rw [ofList_of_greatest greatest] at made
    split at made
    · next empty =>
      cases made
      subst empty
      rfl
    · cases made

theorem partitioned_of_ofList {node : Node}
    (made : ofList id tag symbol span word children = .ok node) :
    node.listParts? = some ⟨word.toNat, children⟩ ∧
      ListParts.Partitioned ⟨word.toNat, children⟩ := by
  obtain ⟨turns, rfl⟩ := list?_eq_some_iff.1 (list?_of_ofList made)
  exact ⟨rfl, turns.partitioned⟩

/-- What a list of a given arity is expected to be: refused just for children that are some in
number, but not one more than whole rounds, and otherwise made so that its elements and separators
can be told apart. -/
structure TellsApart (id : Nat) (tag : String) (symbol : Symbol) (span : Span) (word : UInt64)
    (children : List Node) : Prop where
  refused_iff : (∃ fault, ofList id tag symbol span word children = .error fault) ↔
    children ≠ [] ∧ ¬ children.length ≡ 1 [MOD word.toNat + 1]
  parted : ∀ {node : Node}, ofList id tag symbol span word children = .ok node →
    ∃ parts, node.listParts? = some parts ∧ parts.separatorArity = word.toNat ∧
      parts.children = children ∧ parts.elements? = some parts.elements ∧
      parts.separators? = some parts.separators ∧ parts.Partitioned

theorem tellsApart_of_within (within : word.toNat + 1 < UInt64.size) :
    TellsApart id tag symbol span word children where
  refused_iff := by
    simp only [ofList_eq_error_iff within, exists_eq_left]
  parted made := by
    obtain ⟨isList, partitioned⟩ := partitioned_of_ofList made
    have found := ListParts.found ⟨word.toNat, children⟩ within
    exact ⟨_, isList, rfl, rfl, found.1, found.2, partitioned⟩

/-- For the greatest arity, only refusals are as expected. -/
theorem tellsApart_iff_of_greatest (greatest : word.toNat + 1 = UInt64.size) :
    TellsApart id tag symbol span word children ↔
      children ≠ [] ∧ ¬ children.length ≡ 1 [MOD word.toNat + 1] := by
  have tooFar : ¬ word.toNat + 1 < UInt64.size := Nat.not_lt.2 (Nat.le_of_eq greatest.symm)
  have made_eq : ofList id tag symbol span word children = _ := ofList_of_greatest greatest
  constructor
  · intro tells
    have some_ : children ≠ [] := by
      intro empty
      rw [if_pos empty] at made_eq
      obtain ⟨parts, -, arity_eq, -, found, -⟩ := tells.parted made_eq
      rw [ListParts.elements?_eq_none_iff.2 (arity_eq ▸ tooFar)] at found
      cases found
    rw [if_neg some_] at made_eq
    exact tells.refused_iff.1 ⟨.overflow, made_eq⟩
  · intro refused
    rw [if_neg refused.1] at made_eq
    refine ⟨⟨fun _ => refused, fun _ => ⟨.overflow, made_eq⟩⟩, fun made => ?_⟩
    rw [made_eq] at made
    cases made

end OfList

/-- For the greatest arity, a list is refused unless it has no children, and then its elements cannot
be found. For any other, it is refused just for children that are some in number, but not one more
than whole rounds. Otherwise its elements and separators are its children, each once and in order;
its children are the elements with all separators of a round between each two; and so the number of
the elements tells that of the separators. So lists are what they are expected to be, but for lists
of the greatest arity without children, or with as many as would do. -/
theorem ofList_partitioned (id : Nat) (tag : String) (symbol : Symbol) (span : Span)
    (word : UInt64) (children : List Node) :
    (ofList id tag symbol span word children = .error .overflow ↔
      word.toNat + 1 = UInt64.size ∧ children ≠ []) ∧
    (ofList id tag symbol span word children = .error .uneven ↔
      word.toNat + 1 ≠ UInt64.size ∧ children ≠ [] ∧
        ¬ children.length ≡ 1 [MOD word.toNat + 1]) ∧
    (∀ {node : Node}, ofList id tag symbol span word children = .ok node →
      ∃ parts, node.listParts? = some parts ∧ parts.separatorArity = word.toNat ∧
        parts.children = children ∧ parts.Partitioned ∧
        (word.toNat + 1 ≠ UInt64.size → parts.elements? = some parts.elements ∧
          parts.separators? = some parts.separators) ∧
        (word.toNat + 1 = UInt64.size → children = [] ∧ parts.elements? = none)) ∧
    (TellsApart id tag symbol span word children ↔
      ¬ (word.toNat + 1 = UInt64.size ∧
        (children = [] ∨ children.length ≡ 1 [MOD word.toNat + 1]))) := by
  by_cases greatest : word.toNat + 1 = UInt64.size
  · have made_eq : ofList id tag symbol span word children = _ := ofList_of_greatest greatest
    refine ⟨?_, ?_, fun {node} made => ?_, ?_⟩
    · rw [made_eq, ite_eq_right_iff, and_iff_right greatest]
      exact ⟨fun refused empty => (nomatch refused empty), fun some_ empty => absurd empty some_⟩
    · rw [made_eq]
      refine iff_of_false ?_ fun refused => refused.1 greatest
      split <;> nofun
    · obtain ⟨isList, partitioned⟩ := partitioned_of_ofList made
      refine ⟨_, isList, rfl, rfl, partitioned, fun below => absurd greatest below, fun _ => ?_⟩
      rw [made_eq] at made
      split at made
      · next empty =>
        refine ⟨empty, ListParts.elements?_eq_none_iff.2 ?_⟩
        exact Nat.not_lt.2 (Nat.le_of_eq greatest.symm)
      · cases made
    · rw [tellsApart_iff_of_greatest greatest, and_iff_right greatest, not_or]
  · have within : word.toNat + 1 < UInt64.size := Nat.lt_of_le_of_ne word.toNat_lt_size greatest
    refine ⟨?_, ?_, fun {node} made => ?_, ?_⟩
    · simp [ofList_eq_error_iff within, greatest]
    · simp [ofList_eq_error_iff within, greatest]
    · obtain ⟨isList, partitioned⟩ := partitioned_of_ofList made
      exact ⟨_, isList, rfl, rfl, partitioned, fun _ => ListParts.found _ within,
        fun isGreatest => absurd isGreatest greatest⟩
    · exact iff_of_true (tellsApart_of_within within) fun fails => greatest fails.1

/-- A node for one character of a text. -/
def character (text : String) (offset : Nat) : Node :=
  .leaf offset (.literal text) text ⟨offset, offset + 1⟩

/-- Two elements with two separators between them. Without the second separator there is no
list. -/
theorem ofList_partitioned_pair :
    let children := [character "a" 0, character "," 1, character ";" 2, character "b" 3]
    (∃ node parts, ofList 4 "Pair" (.nonTerminal "S") ⟨0, 4⟩ 2 children = .ok node ∧
      node.listParts? = some parts ∧ parts.Partitioned ∧
      parts.elements? = some [character "a" 0, character "b" 3] ∧
      parts.separators? = some [character "," 1, character ";" 2]) ∧
    ofList 4 "Pair" (.nonTerminal "S") ⟨0, 3⟩ 2 (children.eraseIdx 2) = .error .uneven := by
  intro children
  obtain ⟨-, -, accepted, -⟩ :=
    ofList_partitioned 4 "Pair" (.nonTerminal "S") ⟨0, 4⟩ 2 children
  obtain ⟨-, refused, -, -⟩ :=
    ofList_partitioned 4 "Pair" (.nonTerminal "S") ⟨0, 3⟩ 2 (children.eraseIdx 2)
  refine ⟨?_, refused.2 (by decide)⟩
  have made : ofList 4 "Pair" (.nonTerminal "S") ⟨0, 4⟩ 2 children =
      .ok (.list 4 "Pair" (.nonTerminal "S") ⟨0, 4⟩ 2 children) := by
    simp [ofList, stride?, UInt64.size, children]
  obtain ⟨parts, isParts, -, -, partitioned, -, -⟩ := accepted made
  cases isParts
  exact ⟨_, _, made, rfl, partitioned, rfl, by
    simp [ListParts.separators?, stride?, UInt64.size, children]⟩

/-- A single element takes turns with any number of separators, but there is no list of it for the
greatest machine word. -/
theorem not_tellsApart_greatest :
    ¬ TellsApart 1 "Items" (.nonTerminal "S") ⟨0, 1⟩ 18446744073709551615 [character "a" 0] := by
  intro tells
  have refused : ofList 1 "Items" (.nonTerminal "S") ⟨0, 1⟩ 18446744073709551615
      [character "a" 0] = .error .overflow := by rfl
  obtain ⟨-, uneven⟩ := tells.refused_iff.1 ⟨_, refused⟩
  exact uneven (Nat.ModEq.refl 1)

end Node

end Scannerless
