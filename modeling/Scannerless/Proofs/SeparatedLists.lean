import Scannerless.Grammar.Example
import Scannerless.Proofs.Policies

/-!
# Separated lists

The laws of the list nodes of a forest: elements and separators stand in turn, and only the list
that needs no element goes without. A list node has its children in one sequence and finds the
elements and the separators in it by their index. `Node.inTurns` puts such a sequence together from
an element and rounds, each of which has all of the separators and a further element, so that what
is found by index can be read off the rounds.
-/

namespace Scannerless

namespace Node

/-! ## Rounds -/

/-- A round of a list: separators, and the element after them. -/
abbrev Round := List Node × Node

/-- The nodes of rounds, one round after another. -/
def ofRounds (rounds : List Round) : List Node :=
  rounds.flatMap fun round => round.1 ++ [round.2]

theorem ofRounds_cons (separators : List Node) (element : Node) (rounds : List Round) :
    ofRounds ((separators, element) :: rounds) = separators ++ element :: ofRounds rounds := by
  unfold ofRounds
  rw [List.flatMap_cons, List.append_assoc, List.singleton_append]

/-- The children of a list: an element, and then round after round. -/
def inTurns (first : Node) (rounds : List Round) : List Node :=
  first :: ofRounds rounds

theorem everyAfter_append (step : Nat) (skipped rest : List Node) :
    everyAfter step skipped.length (skipped ++ rest) = everyAfter step 0 rest := by
  induction skipped with
  | nil => rfl
  | cons node skipped ih => exact ih

variable {arity : Nat} {rounds : List Round}

theorem mem_of_mem_everyAfter {step skip : Nat} {node : Node} {nodes : List Node}
    (member : node ∈ everyAfter step skip nodes) : node ∈ nodes := by
  induction nodes generalizing skip with
  | nil =>
    rw [everyAfter] at member
    exact member
  | cons head rest ih =>
    cases skip with
    | zero =>
      rw [everyAfter, List.mem_cons] at member
      rcases member with rfl | later
      · exact List.mem_cons_self
      · exact List.mem_cons_of_mem head (ih later)
    | succ skip => exact List.mem_cons_of_mem head (ih member)

theorem mem_parts_of_mem_elements {node element : Node} {parts : ListParts}
    (listParts : node.listParts? = some parts) (member : element ∈ parts.elements) :
    element ∈ node.parts := by
  cases node with
  | leaf | branch | ambiguity => cases listParts
  | list =>
    cases listParts
    exact mem_of_mem_everyAfter member

theorem mem_everyAfter_of_getElem? {arity : Nat} {node : Node} : ∀ (skip turn : Nat)
    {nodes : List Node}, nodes[skip + turn * (arity + 1)]? = some node →
      node ∈ everyAfter arity skip nodes
  | _, _, [], found => by simp at found
  | 0, 0, head :: rest, found => by
    rw [everyAfter]
    simp at found
    exact found ▸ List.mem_cons_self
  | 0, turn + 1, head :: rest, found => by
    rw [everyAfter]
    refine List.mem_cons_of_mem head (mem_everyAfter_of_getElem? arity turn ?_)
    rw [← found, show 0 + (turn + 1) * (arity + 1) = arity + turn * (arity + 1) + 1 by ring,
      List.getElem?_cons_succ]
  | skip + 1, turn, head :: rest, found => by
    rw [everyAfter]
    refine mem_everyAfter_of_getElem? skip turn ?_
    rw [← found, show skip + 1 + turn * (arity + 1) = skip + turn * (arity + 1) + 1 by ring,
      List.getElem?_cons_succ]

/-- The children of a list are its elements and its separators. -/
theorem mem_elements_or_separators (arity : Nat) {node : Node} {children : List Node}
    (member : node ∈ children) : node ∈ ListParts.elements ⟨arity, children⟩ ∨
      node ∈ ListParts.separators ⟨arity, children⟩ := by
  obtain ⟨index, found⟩ := List.mem_iff_getElem?.1 member
  by_cases due : index % (arity + 1) = 0
  · obtain ⟨turn, rfl⟩ := Nat.dvd_of_mod_eq_zero due
    refine .inl (mem_everyAfter_of_getElem? 0 turn ?_)
    rw [← found]
    congr 1
    ring
  · refine .inr (List.mem_map.2 ⟨(node, index), List.mem_filter.2 ⟨?_, by simpa using due⟩, rfl⟩)
    exact List.mem_zipIdx_iff_getElem?.2 found

theorem mem_of_mem_separators {parts : ListParts} {node : Node}
    (member : node ∈ parts.separators) : node ∈ parts.children := by
  obtain ⟨⟨_, index⟩, kept, rfl⟩ := List.mem_map.1 member
  exact List.mem_of_getElem? (List.mem_zipIdx_iff_getElem?.1 (List.mem_filter.1 kept).1)

theorem everyAfter_ofRounds (even : ∀ round ∈ rounds, round.1.length = arity) :
    everyAfter arity arity (ofRounds rounds) = rounds.map Prod.snd := by
  induction rounds with
  | nil =>
    cases arity with
    | zero => rfl
    | succ arity => rfl
  | cons round rest ih =>
    obtain ⟨separators, element⟩ := round
    have length : separators.length = arity := even _ List.mem_cons_self
    have others := ih fun round inRest => even round (List.mem_cons_of_mem _ inRest)
    have skips := everyAfter_append arity separators (element :: ofRounds rest)
    rw [length] at skips
    rw [ofRounds_cons, skips, everyAfter, others, List.map_cons]

/-- The elements are the first one and those of the rounds. -/
theorem elements_inTurns (even : ∀ round ∈ rounds, round.1.length = arity) (first : Node) :
    ListParts.elements ⟨arity, inTurns first rounds⟩ = first :: rounds.map Prod.snd := by
  unfold ListParts.elements inTurns
  rw [everyAfter, everyAfter_ofRounds even]

/-- The nodes, counted from an index on, that do not stand where an element is due. -/
def between (arity start : Nat) (nodes : List Node) : List Node :=
  ((nodes.zipIdx start).filter fun (_, i) => i % (arity + 1) != 0).map Prod.fst

theorem between_append (start : Nat) (first second : List Node) :
    between arity start (first ++ second) =
      between arity start first ++ between arity (start + first.length) second := by
  unfold between
  rw [List.zipIdx_append, List.filter_append, List.map_append]

theorem between_cons (start : Nat) (node : Node) (rest : List Node) :
    between arity start (node :: rest) =
      (if start % (arity + 1) = 0 then [] else [node]) ++ between arity (start + 1) rest := by
  unfold between
  rw [List.zipIdx_cons, List.filter_cons]
  by_cases due : start % (arity + 1) = 0
  · simp [due]
  · simp [due]

/-- As many nodes as there are separators, right after an element. -/
theorem between_separators (turn : Nat) {separators : List Node}
    (length : separators.length = arity) :
    between arity (turn * (arity + 1) + 1) separators = separators := by
  have all : ∀ indexed ∈ separators.zipIdx (turn * (arity + 1) + 1),
      (indexed.2 % (arity + 1) != 0) = true := by
    rintro ⟨node, index⟩ member
    obtain ⟨after, within, -⟩ := List.mem_zipIdx member
    obtain ⟨offset, rfl⟩ := Nat.exists_eq_add_of_le after
    have small : 1 + offset < arity + 1 := by omega
    rw [bne_iff_ne, Nat.add_assoc, Nat.mul_add_mod', Nat.mod_eq_of_lt small]
    omega
  unfold between
  rw [List.filter_eq_self.2 all, List.zipIdx_map_fst]

theorem between_ofRounds (even : ∀ round ∈ rounds, round.1.length = arity) :
    ∀ turn : Nat, between arity (turn * (arity + 1) + 1) (ofRounds rounds) =
      rounds.flatMap Prod.fst := by
  induction rounds with
  | nil => exact fun _ => rfl
  | cons round rest ih =>
    obtain ⟨separators, element⟩ := round
    intro turn
    have length : separators.length = arity := even _ List.mem_cons_self
    have others := ih (fun round inRest => even round (List.mem_cons_of_mem _ inRest)) (turn + 1)
    have next : turn * (arity + 1) + 1 + separators.length = (turn + 1) * (arity + 1) := by
      rw [length, Nat.succ_mul]
      omega
    rw [ofRounds_cons, between_append, between_separators turn length, between_cons, next,
      Nat.mul_mod_left, if_pos rfl, List.nil_append, others, List.flatMap_cons]

/-- The separators are those of the rounds. -/
theorem separators_inTurns (even : ∀ round ∈ rounds, round.1.length = arity) (first : Node) :
    ListParts.separators ⟨arity, inTurns first rounds⟩ = rounds.flatMap Prod.fst := by
  have whole : ListParts.separators ⟨arity, inTurns first rounds⟩ =
      between arity 0 (first :: ofRounds rounds) := rfl
  have rest := between_ofRounds even 0
  rw [Nat.zero_mul] at rest
  rw [whole, between_cons, Nat.zero_mod, if_pos rfl, List.nil_append, rest]

/-- Nodes of the symbols of so many rounds are the nodes of as many rounds. -/
theorem exists_rounds {element : Symbol} {separators : List Symbol} :
    ∀ {more : Nat} {nodes : List Node},
      nodes.map Node.symbol = (List.replicate more (separators ++ [element])).flatten →
        ∃ rounds : List Round, nodes = ofRounds rounds ∧
          rounds.map (fun round => (round.1.map Node.symbol, round.2.symbol)) =
            List.replicate more (separators, element)
  | 0, nodes, symbols => ⟨[], List.map_eq_nil_iff.1 symbols, rfl⟩
  | more + 1, nodes, symbols => by
    rw [List.replicate_succ, List.flatten_cons, List.append_assoc, List.singleton_append]
      at symbols
    obtain ⟨between, others, rfl, isSeparators, symbols⟩ := List.map_eq_append_iff.1 symbols
    obtain ⟨node, rest, rfl, isElement, symbols⟩ := List.map_eq_cons_iff.1 symbols
    obtain ⟨rounds, rfl, each⟩ := exists_rounds symbols
    refine ⟨(between, node) :: rounds, (ofRounds_cons _ _ _).symm, ?_⟩
    rw [List.map_cons, each, List.replicate_succ, isSeparators, isElement]

/-- What the symbols of the rounds say of the elements and separators found by index. -/
theorem symbols_inTurns {first : Node} {element : Symbol} {separators : List Symbol}
    (isElement : first.symbol = element)
    (each : rounds.map (fun round => (round.1.map Node.symbol, round.2.symbol)) =
      List.replicate rounds.length (separators, element)) :
    let parts : ListParts := ⟨separators.length, inTurns first rounds⟩
    parts.elements.length = rounds.length + 1 ∧ (∀ node ∈ parts.elements, node.symbol = element) ∧
      parts.separators.map Node.symbol = (List.replicate rounds.length separators).flatten := by
  intro parts
  have round_eq := (List.eq_replicate_iff.1 each).2
  have even : ∀ round ∈ rounds, round.1.length = separators.length := by
    intro round member
    have same := congrArg Prod.fst (round_eq _ (List.mem_map_of_mem member))
    rw [← congrArg List.length same, List.length_map]
  have elements_eq : parts.elements = first :: rounds.map Prod.snd := elements_inTurns even first
  have separators_eq : parts.separators = rounds.flatMap Prod.fst := separators_inTurns even first
  refine ⟨?_, fun node member => ?_, ?_⟩
  · rw [elements_eq, List.length_cons, List.length_map]
  · rw [elements_eq] at member
    rcases List.mem_cons.1 member with rfl | later
    · exact isElement
    · obtain ⟨round, inRounds, rfl⟩ := List.mem_map.1 later
      exact congrArg Prod.snd (round_eq _ (List.mem_map_of_mem inRounds))
  · have firsts := congrArg (List.map Prod.fst) each
    rw [List.map_map, List.map_replicate] at firsts
    rw [separators_eq, List.map_flatMap, List.flatMap_def, ← firsts]
    rfl

/-! ## The laws -/

/-- The laws of a separated list over a span, with the element, the separators and the repetition
of its production. -/
structure ListLaws (element : Symbol) (separators : List Symbol) (repetition : Repetition)
    (span : Span) (parts : ListParts) : Prop where
  separatorArity_eq : parts.separatorArity = separators.length
  symbol_of_element : ∀ node ∈ parts.elements, node.symbol = element
  map_symbol_separators : parts.separators.map Node.symbol =
    (List.replicate (parts.elements.length - 1) separators).flatten
  length_separators : parts.elements ≠ [] →
    parts.separators.length = separators.length * (parts.elements.length - 1)
  separators_eq_nil : parts.elements = [] → parts.separators = []
  elements_of_plus : repetition = .plus → parts.elements ≠ []
  star_of_no_elements : parts.elements = [] → repetition = .star ∧ span.isEmpty = true
  plus_of_empty_element : separators = [] → ∀ node ∈ parts.elements, node.span.isEmpty = true →
    repetition = .plus ∧ parts.elements = [node] ∧ span.isEmpty = true
  nodup_places : (parts.children.mapIdx fun index child =>
    (child.span.start, index % (separators.length + 1))).Nodup

/-- The children of a reduction by a list production: none, or an element and rounds. -/
theorem Reduces.nil_or_inTurns {production : Production} {symbol : Symbol} {span : Span}
    {children : List Node} (reduces : Reduces production symbol span children)
    {repetition : Repetition} (kind : production.kind = .list repetition) {element : Symbol}
    {separators : List Symbol} (rhs : production.rhs = element :: separators) :
    (children = [] ∧ repetition = .star ∧ span.isEmpty = true) ∨
      ∃ (first : Node) (rounds : List Round), children = inTurns first rounds ∧
        first.symbol = element ∧
        rounds.map (fun round => (round.1.map Node.symbol, round.2.symbol)) =
          List.replicate rounds.length (separators, element) := by
  have expands := reduces.expands
  generalize symbols_eq : children.map Node.symbol = symbols at expands
  cases expands with
  | sequence other =>
    rw [kind] at other
    cases other
  | empty other =>
    rw [kind] at other
    cases other
    obtain rfl := List.map_eq_nil_iff.1 symbols_eq
    have here : span.start = span.stop := reduces.tiles
    exact .inl ⟨rfl, rfl, beq_iff_eq.2 here⟩
  | list _ more =>
    unfold Production.unroll at symbols_eq
    rw [rhs] at symbols_eq
    obtain ⟨first, rest, rfl, isElement, symbols⟩ := List.map_eq_cons_iff.1 symbols_eq
    obtain ⟨rounds, rfl, each⟩ := exists_rounds symbols
    have length := congrArg List.length each
    rw [List.length_map, List.length_replicate] at length
    exact .inr ⟨first, rounds, rfl, isElement, length ▸ each⟩

/-- The children of a reduction begin at different places. -/
theorem Reduces.nodup_starts {production : Production} {symbol : Symbol} {span : Span}
    {children : List Node} (reduces : Reduces production symbol span children) :
    (children.mapIdx fun index child => (child.span.start, index % production.arity)).Nodup := by
  have nodup := reduces.tight.nodup
  unfold Production.places at nodup
  have starts_eq : children.mapIdx (fun index child =>
        (child.span.start, index % production.arity)) =
      (children.map Node.span).mapIdx (fun index span => (span.start, index % production.arity)) := by
    apply List.ext_getElem?
    intro index
    rw [List.getElem?_mapIdx, List.getElem?_mapIdx, List.getElem?_map, Option.map_map]
    rfl
  rw [starts_eq]
  exact (List.nodup_append.1 nodup).1

/-- A reduction by a list production keeps the laws of a separated list. -/
theorem Reduces.listLaws {production : Production} {symbol : Symbol} {span : Span}
    {children : List Node} (reduces : Reduces production symbol span children)
    {repetition : Repetition} (kind : production.kind = .list repetition) {element : Symbol}
    {separators : List Symbol} (rhs : production.rhs = element :: separators) :
    ListLaws element separators repetition span ⟨production.separatorArity, children⟩ := by
  have arity_eq : production.arity = separators.length + 1 := by
    rw [Production.arity, rhs, List.length_cons]
  have separatorArity_eq : production.separatorArity = separators.length := by
    unfold Production.separatorArity
    rw [kind, arity_eq]
    rfl
  have starts := reduces.nodup_starts
  rw [arity_eq] at starts
  -- An element that matches nothing is one of the children, and the only one.
  have alone : separators = [] →
      ∀ node ∈ ListParts.elements ⟨separators.length, children⟩, node.span.isEmpty = true →
        repetition = .plus ∧ children = [node] ∧ span.isEmpty = true := by
    intro bare node member empty
    have isChild := mem_of_mem_everyAfter member
    obtain ⟨plus, single, whole⟩ := reduces.tight.elements kind
      (by rw [separatorArity_eq, bare, List.length_nil]) _ (List.mem_map_of_mem isChild) empty
    obtain ⟨only, rfl, -⟩ := List.map_eq_singleton_iff.1 single
    rw [List.mem_singleton.1 isChild]
    exact ⟨plus, rfl, whole⟩
  rw [separatorArity_eq]
  rcases reduces.nil_or_inTurns kind rhs with
    ⟨rfl, rfl, whole⟩ | ⟨first, rounds, rfl, isElement, each⟩
  · have none_ : ListParts.elements ⟨separators.length, []⟩ = [] := by
      unfold ListParts.elements
      rw [everyAfter]
    constructor
    case separatorArity_eq => rfl
    case symbol_of_element => exact fun node member => absurd (none_ ▸ member) List.not_mem_nil
    case map_symbol_separators =>
      rw [none_]
      rfl
    case length_separators => exact fun some_ => absurd none_ some_
    case separators_eq_nil => exact fun _ => rfl
    case elements_of_plus =>
      intro plus
      cases plus
    case star_of_no_elements => exact fun _ => ⟨rfl, whole⟩
    case plus_of_empty_element => exact fun _ _ member => absurd (none_ ▸ member) List.not_mem_nil
    case nodup_places => exact starts
  · obtain ⟨length, symbol_of_element, symbols⟩ := symbols_inTurns isElement each
    have some_ : ListParts.elements ⟨separators.length, inTurns first rounds⟩ ≠ [] := by
      intro none_
      rw [none_] at length
      cases length
    constructor
    case separatorArity_eq => rfl
    case symbol_of_element => exact symbol_of_element
    case map_symbol_separators =>
      rw [length, Nat.add_sub_cancel]
      exact symbols
    case length_separators =>
      intro _
      have lengths := congrArg List.length symbols
      rw [List.length_map, List.length_flatten, List.map_replicate, List.sum_replicate_nat]
        at lengths
      rw [length, Nat.add_sub_cancel, lengths, Nat.mul_comm]
    case separators_eq_nil => exact fun none_ => absurd none_ some_
    case elements_of_plus => exact fun _ => some_
    case star_of_no_elements => exact fun none_ => absurd none_ some_
    case plus_of_empty_element =>
      intro bare node member empty
      obtain ⟨plus, single, whole⟩ := alone bare node member empty
      refine ⟨plus, ?_, whole⟩
      rw [single]
      unfold ListParts.elements
      rw [everyAfter, everyAfter]
    case nodup_places => exact starts

end Node

namespace Grammar

/-- Every list node of a parsed text is a reduction by a list production of its symbol, and keeps
the laws of the list with the element, the separators and the repetition of that production. -/
theorem list_laws_of_parsed {start : Symbol} {script : List Declaration} {g : Grammar}
    (built : (Grammar.ofScript start script).value = .ok g) {policy : OnAmbiguity}
    {symbol : Symbol} {text : String} {root : Node}
    (parsed : (g.parseSymbol policy symbol text).value = .ok root) {node : Node}
    (reaches : root.Reaches node) {parts : Node.ListParts}
    (isList : node.listParts? = some parts) :
    ∃ (p : ProdId) (entry : WiredProduction) (repetition : Repetition), g.prod? p = some entry ∧
      node.tag? = some entry.production.label ∧ entry.production.lhs = node.symbol ∧
      entry.production.kind = .list repetition ∧
      ∀ {element : Symbol} {separators : List Symbol},
        entry.production.rhs = element :: separators →
          Node.ListLaws element separators repetition node.span parts := by
  have wired := Wired.of_script built
  have sound := (wired.faithful_of_parsed parsed).sound reaches
  cases sound with
  | leaf => cases isList
  | branch => cases isList
  | ambiguity => cases isList
  | @list id tag symbol span children p entry repetition labels found kind _ reduces =>
    cases isList
    refine ⟨p, entry, repetition, found, ?_, reduces.lhs, kind, fun rhs => ?_⟩
    · rw [wired.label_of_withLabel labels found]
      rfl
    · exact reduces.listLaws kind rhs

/-- `S ::= {A "b"}+` and `A ::= "a"`: in the list over the text `ababa`, two separators stand between
three elements. -/
theorem list_laws_of_parsed_separatedPlus : ∃ (g : Grammar) (root : Node) (parts : Node.ListParts),
    (Grammar.ofScript (.nonTerminal "S") Example.separatedPlus).value = .ok g ∧
    (g.parseSymbol .keep (.nonTerminal "S") "ababa").value = .ok root ∧
    root.listParts? = some parts ∧ parts.elements.length = 3 ∧
    (∀ element ∈ parts.elements, element.symbol = .nonTerminal "A") ∧
    parts.separators.map Node.symbol = [.literal "b", .literal "b"] := by
  obtain ⟨g, built, tested⟩ := exists_of_script (.nonTerminal "S") Example.separatedPlus
    (fun g =>
      (g.parseSymbol .keep (.nonTerminal "S") "ababa").value.toOption.any (fun root : Node =>
        decide (root.symbol = .nonTerminal "S") &&
          root.listParts?.any (fun parts : Node.ListParts => parts.elements.length == 3)) &&
      g.prodIds.all (fun p => (g.prod? p).all fun entry : WiredProduction =>
        decide (entry.production.lhs = .nonTerminal "S" →
          entry.production.rhs = [.nonTerminal "A", .literal "b"])))
    (by decide +kernel)
  rw [Bool.and_eq_true, List.all_eq_true] at tested
  obtain ⟨root, parsed, passes⟩ := exists_ok_of_any tested.1
  simp only [Bool.and_eq_true, Option.any_eq_true, beq_iff_eq, decide_eq_true_eq] at passes
  obtain ⟨symbol, parts, isList, three⟩ := passes
  obtain ⟨p, entry, repetition, found, -, lhs, -, laws⟩ :=
    list_laws_of_parsed built parsed (.root root) isList
  have inGrammar : p ∈ g.prodIds := List.mem_range.2 (Array.getElem?_eq_some_iff.1 found).1
  have defines := tested.2 p inGrammar
  rw [found] at defines
  have laws := laws (of_decide_eq_true defines (lhs.trans symbol))
  have separators := laws.map_symbol_separators
  rw [three] at separators
  exact ⟨g, root, parts, built, parsed, isList, three, laws.symbol_of_element, separators⟩

end Grammar

end Scannerless
