import Scannerless.Proofs.HandlerArguments
import Scannerless.Proofs.TreeCount
import Scannerless.Reading.Filter

/-!
# Disambiguation

Where one alternative of each ambiguity is kept, a forest stands for a single tree: that in which
the alternative that is kept has taken the place of the ambiguity (`Node.chosen`). To read the
forest is to read that tree. Both go through the same reductions, with the same text under them, so
that handlers that do not look further than that cannot tell them apart
(`Interpreter.alike_chosen`).
-/

namespace Scannerless

/-! ## The tree that is chosen -/

namespace Node

mutual

/-- The node with the first alternative that is kept in place of each ambiguity. -/
def chosen (keeps : Node → Bool) : Node → Node
  | leaf id symbol text span => leaf id symbol text span
  | branch id tag symbol span children => branch id tag symbol span (chosenAll keeps children)
  | list id tag symbol span arity children =>
    list id tag symbol span arity (chosenAll keeps children)
  | ambiguity id symbol span alternatives =>
    chosenAmong keeps (ambiguity id symbol span alternatives) alternatives

/-- What is chosen for each of the nodes. -/
def chosenAll (keeps : Node → Bool) : List Node → List Node
  | [] => []
  | node :: rest => chosen keeps node :: chosenAll keeps rest

/-- What is chosen for the first of the nodes that is kept, if there is one. -/
def chosenAmong (keeps : Node → Bool) (otherwise : Node) : List Node → Node
  | [] => otherwise
  | node :: rest => if keeps node then chosen keeps node else chosenAmong keeps otherwise rest

end

variable {keeps : Node → Bool}

theorem chosenAll_eq_map (nodes : List Node) :
    chosenAll keeps nodes = nodes.map (chosen keeps) := by
  induction nodes with
  | nil => rfl
  | cons node rest ih => rw [chosenAll, ih, List.map_cons]

theorem chosenAmong_eq {otherwise alternative : Node} {nodes : List Node}
    (sole : nodes.filter keeps = [alternative]) :
    chosenAmong keeps otherwise nodes = alternative.chosen keeps := by
  induction nodes with
  | nil => cases sole
  | cons node rest ih =>
    rw [List.filter_cons] at sole
    rw [chosenAmong]
    split at sole
    · injection sole with same
      rw [if_pos ‹_›, same]
    · rw [if_neg ‹_›, ih sole]

theorem everyAfter_map (f : Node → Node) (step skip : Nat) (nodes : List Node) :
    everyAfter step skip (nodes.map f) = (everyAfter step skip nodes).map f := by
  induction nodes generalizing skip with
  | nil =>
    rw [List.map_nil, everyAfter]
    rfl
  | cons node rest ih =>
    cases skip with
    | zero => rw [List.map_cons, everyAfter, everyAfter, ih, List.map_cons]
    | succ skip => rw [List.map_cons, everyAfter, everyAfter, ih]

/-- Whether exactly one alternative of every ambiguity of the forest is kept. -/
def DecidedBy (keeps : Node → Bool) (root : Node) : Prop :=
  ∀ {node : Node}, root.Reaches node → node.isAmbiguous = true →
    ∃ alternative, node.parts.filter keeps = [alternative]

theorem DecidedBy.exists_sole {id : Nat} {symbol : Symbol} {span : Span} {alternatives : List Node}
    (decided : (ambiguity id symbol span alternatives).DecidedBy keeps) :
    ∃ alternative ∈ alternatives, alternatives.filter keeps = [alternative] := by
  obtain ⟨alternative, sole⟩ := decided (.root _) rfl
  have sole : alternatives.filter keeps = [alternative] := sole
  exact ⟨alternative, List.mem_of_mem_filter (sole ▸ List.mem_singleton_self _), sole⟩

theorem DecidedBy.part {root part : Node} (decided : root.DecidedBy keeps)
    (member : part ∈ root.parts) : part.DecidedBy keeps :=
  fun reaches => decided (.part member reaches)

/-- If one alternative of each ambiguity is kept, what is chosen is a tree. -/
theorem DecidedBy.plain_of_reaches {node : Node} (decided : node.DecidedBy keeps) :
    ∀ {other : Node}, (node.chosen keeps).Reaches other → other.isAmbiguous = false := by
  induction node using induction_parts with
  | step node ih =>
    have below {children : List Node} (areParts : ∀ child ∈ children, child ∈ node.parts)
        {part other : Node} (member : part ∈ chosenAll keeps children)
        (reaches : part.Reaches other) : other.isAmbiguous = false := by
      rw [chosenAll_eq_map] at member
      obtain ⟨child, isChild, rfl⟩ := List.mem_map.1 member
      have isPart := areParts child isChild
      exact ih child isPart (decided.part isPart) reaches
    intro other reaches
    cases node with
    | leaf =>
      rw [chosen] at reaches
      cases reaches with
      | root => rfl
      | part member => cases member
    | branch | list =>
      rw [chosen] at reaches
      cases reaches with
      | root => rfl
      | part member reaches => exact below (fun _ isPart => isPart) member reaches
    | ambiguity id symbol span alternatives =>
      obtain ⟨alternative, member, sole⟩ := decided.exists_sole
      rw [chosen, chosenAmong_eq sole] at reaches
      exact ih alternative member (decided.part member) reaches

variable {g : Grammar} {input : Input} {node : Node}

/-- What is chosen stands for the same text. -/
theorem FaithfulTo.yieldText_chosen (decided : node.DecidedBy keeps) :
    ∀ {constituent : Constituent}, node.FaithfulTo g input constituent →
      (node.chosen keeps).yieldText = node.yieldText := by
  induction node using induction_parts with
  | step node ih =>
    intro constituent faithful
    have each (part : Node) (member : part ∈ node.parts) :
        (part.chosen keeps).yieldText = part.yieldText :=
      ih part member (decided.part member) (faithful.part member)
    have children {nodes : List Node} (areParts : nodes = node.parts) :
        yieldAll (chosenAll keeps nodes) = yieldAll nodes := by
      subst areParts
      rw [yieldAll_eq_foldr, yieldAll_eq_foldr, chosenAll_eq_map, List.foldr_map]
      exact List.foldr_ext _ _ _ fun part member rest => by rw [each part member]
    cases node with
    | leaf => rfl
    | branch | list =>
      rw [chosen, yieldText, yieldText]
      exact children rfl
    | ambiguity id symbol span alternatives =>
      obtain ⟨alternative, member, sole⟩ := decided.exists_sole
      have span_eq := congrArg Constituent.span (faithful.constituent_of_part rfl member)
      rw [chosen, chosenAmong_eq sole, each alternative member,
        (faithful.part member).yieldText_eq, faithful.yieldText_eq]
      exact congrArg input.slice span_eq

end Node

/-! ## Reading the tree that is chosen -/

namespace Interpreter

variable {α : Type} {interpreter : Interpreter α}

/-- Whether the handlers look at nothing of a reduction but its tag, its symbol, its span and its
text. -/
def Uniform (interpreter : Interpreter α) : Prop :=
  ∀ {tag : String} {handler : Handler α}, interpreter.handlers[tag]? = some handler →
    ∀ {node other : Node}, node.tag? = other.tag? → node.constituent = other.constituent →
      node.yieldText = other.yieldText → handler node = handler other

/-- The interpreter that keeps all alternatives, and may refuse ambiguities or not. -/
def unfiltered (interpreter : Interpreter α) (refuses : Bool) : Interpreter α :=
  { interpreter with keeps := fun _ => true, refusesAmbiguity := refuses }

/-- Reductions with corresponding parts and the same text get the same answers. -/
theorem Uniform.corresponding (uniform : interpreter.Uniform) {refuses : Bool} {tag : String}
    {node counterpart : Node}
    (same : SameParts interpreter (interpreter.unfiltered refuses) tag node counterpart)
    (text_eq : counterpart.yieldText = node.yieldText) :
    Corresponding interpreter (interpreter.unfiltered refuses) tag node counterpart := by
  refine ⟨same, fun _ _ => ?_⟩
  unfold unfiltered
  dsimp only
  cases registered : interpreter.handlers[tag]? with
  | none => exact .none
  | some handler =>
    have answers := uniform registered (same.tagged.trans same.taggedToo.symm)
      (congrArg₂ Constituent.mk same.symbol same.span) text_eq.symm
    exact .some fun arguments _ => congrFun answers arguments

/-- An ambiguity of which one alternative is kept is read as that alternative. -/
theorem alike_of_sole {other : Interpreter α} {id : Nat} {symbol : Symbol} {span : Span}
    {alternatives : List Node} {alternative counterpart : Node}
    (sole : alternatives.filter interpreter.keeps = [alternative])
    (symbol_eq : alternative.symbol = symbol) (inner : alternative.isLeaf = false)
    (alike : Alike interpreter other alternative counterpart) :
    Alike interpreter other (.ambiguity id symbol span alternatives) counterpart := by
  have counted : ExceptT.mk (pure (interpreter.countKept symbol span alternatives)) =
      (pure 1 : Attempt Nat) :=
    congrArg (fun count => ExceptT.mk (pure count))
      (countKept_eq_ok_iff.2 ⟨congrArg List.length sole, admits_one⟩)
  refine ⟨?_, symbol_eq.symm.trans alike.symbol, ?_, ?_⟩
  · rw [← alike.isLeaf, inner]
    rfl
  · rw [read, counted, readKept_eq, sole, List.mapM_cons, List.mapM_nil, alike.read]
    simp [reportKept, Reading.ofAlternatives]
  · rw [readLists, counted, readKeptLists_eq, sole, List.mapM_cons, List.mapM_nil, alike.readLists]
    simp

/-- A node is read like what is chosen for it. -/
theorem alike_chosen {g : Grammar} (wired : g.Wired) {input : Input} (uniform : interpreter.Uniform)
    (refuses : Bool) {node : Node} (decided : node.DecidedBy interpreter.keeps) :
    ∀ {constituent : Constituent}, node.FaithfulTo g input constituent →
      Alike interpreter (interpreter.unfiltered refuses) node (node.chosen interpreter.keeps) := by
  induction node using Node.induction_parts with
  | step node ih =>
    intro constituent faithful
    have each (part : Node) (member : part ∈ node.parts) :=
      ih part member (decided.part member) (faithful.part member)
    have children {nodes : List Node} (areParts : ∀ child ∈ nodes, child ∈ node.parts) :
        List.Forall₂ (Alike interpreter (interpreter.unfiltered refuses)) nodes
          (nodes.map (Node.chosen interpreter.keeps)) :=
      List.forall₂_map_right_iff.2 (List.forall₂_same.2 fun child isChild =>
        each child (areParts child isChild))
    have text := faithful.yieldText_chosen decided
    cases node with
    | leaf => exact ⟨rfl, rfl, rfl, rfl⟩
    | branch id tag symbol span parts =>
      have same := children (fun child (isChild : child ∈ parts) => isChild)
      rw [Node.chosen, Node.chosenAll_eq_map] at text ⊢
      have sameParts : SameParts interpreter (interpreter.unfiltered refuses) tag
          (.branch id tag symbol span parts)
          (.branch id tag symbol span (parts.map (Node.chosen interpreter.keeps))) :=
        ⟨rfl, rfl, rfl, rfl, rfl, same, .none⟩
      exact (uniform.corresponding sameParts text).alike
    | list id tag symbol span arity parts =>
      have same := children (fun child (isChild : child ∈ parts) => isChild)
      have elements := children fun child (isElement : child ∈ Node.everyAfter arity 0 parts) =>
        Node.mem_of_mem_everyAfter isElement
      rw [Node.chosen, Node.chosenAll_eq_map] at text ⊢
      rw [← Node.everyAfter_map] at elements
      have sameParts : SameParts interpreter (interpreter.unfiltered refuses) tag
          (.list id tag symbol span arity parts)
          (.list id tag symbol span arity (parts.map (Node.chosen interpreter.keeps))) :=
        ⟨rfl, rfl, rfl, rfl, rfl, same, .some elements⟩
      exact (uniform.corresponding sameParts text).alike
    | ambiguity id symbol span alternatives =>
      obtain ⟨alternative, member, sole⟩ := decided.exists_sole
      have symbol_eq : alternative.symbol = symbol :=
        congrArg Constituent.symbol (faithful.constituent_of_part rfl member)
      have inner := faithful.isLeaf_of_part wired rfl member
      rw [Node.chosen, Node.chosenAmong_eq sole]
      exact alike_of_sole sole symbol_eq inner (each alternative member)

end Interpreter

namespace Grammar

/-- If exactly one alternative of every ambiguity of a parsed text is kept, reading its forest is
reading, without a filter, the tree that has the alternatives that are kept in place of the
ambiguities: it ends with the same value or the same error, whether ambiguities are refused or not,
for all handlers that look at nothing but the tag, the symbol, the span and the text of a reduction,
and at its arguments. -/
theorem read_chosen {start : Symbol} {script : List Declaration} {g : Grammar}
    (built : (Grammar.ofScript start script).value = .ok g) {policy : OnAmbiguity}
    {symbol : Symbol} {text : String} {root : Node}
    (parsed : (g.parseSymbol policy symbol text).value = .ok root) {α : Type}
    {interpreter : Interpreter α} (uniform : interpreter.Uniform)
    (decided : root.DecidedBy interpreter.keeps) (refuses : Bool) :
    (∀ {node : Node}, (root.chosen interpreter.keeps).Reaches node → node.isAmbiguous = false) ∧
    interpreter.read root =
      (interpreter.unfiltered refuses).read (root.chosen interpreter.keeps) := by
  have wired := Wired.of_script built
  have alike := Interpreter.alike_chosen wired uniform refuses decided
    (wired.faithful_of_parsed parsed)
  exact ⟨decided.plain_of_reaches, alike.read⟩

/-- Reads expressions with brackets around their operands, and sums from the left: of an ambiguity
it keeps the alternative that ends with a single digit. -/
def leftReader (g : Grammar) : Interpreter String :=
  { Interpreter.ofHandler g fun node arguments => .ok <|
      match Argument.values arguments with
      | [] => node.yieldText
      | values => "(" ++ "+".intercalate values ++ ")" with
    keeps := AlternativeFilter.passes { maxLastSpan := some 1 } }

/-- The sum `1+2+3` is ambiguous, and is read as `1+2` and `3` if sums are read from the left. -/
theorem read_chosen_sum : ∃ (g : Grammar) (root : Node),
    (Grammar.ofScript (.nonTerminal "Expr") Example.expr).value = .ok g ∧
    (g.parseSymbol .keep (.nonTerminal "Expr") "1+2+3").value = .ok root ∧
    (leftReader g).Uniform ∧ root.DecidedBy (leftReader g).keeps ∧ root.isAmbiguous = true ∧
    (leftReader g).ReadsAs root (.value "(((1)+(2))+(3))") ∧
    ((leftReader g).unfiltered true).ReadsAs (root.chosen (leftReader g).keeps)
      (.value "(((1)+(2))+(3))") := by
  obtain ⟨g, built, tested⟩ := exists_of_script (.nonTerminal "Expr") Example.expr
    (fun g =>
      (g.parseSymbol .keep (.nonTerminal "Expr") "1+2+3").value.toOption.any fun root : Node =>
        root.isAmbiguous &&
        (root.preorder.all fun node : Node => !node.isAmbiguous ||
          (node.parts.filter (leftReader g).keeps).length == 1) &&
        ((leftReader g).read root).run.value.toOption.any fun reading =>
          reading.value? == some "(((1)+(2))+(3))")
    (by decide +kernel)
  obtain ⟨root, parsed, passes⟩ := exists_ok_of_any tested
  simp only [Bool.and_eq_true, List.all_eq_true, beq_iff_eq, Bool.or_eq_true,
    Bool.not_eq_true'] at passes
  obtain ⟨⟨ambiguous, eachSole⟩, isRead⟩ := passes
  have decided : root.DecidedBy (leftReader g).keeps := by
    intro node reaches ambiguous
    rcases eachSole node (Node.mem_preorder_iff.2 reaches) with plain | sole
    · rw [ambiguous] at plain
      cases plain
    · exact List.length_eq_one_iff.1 sole
  have uniform : (leftReader g).Uniform := by
    intro tag handler found node other _ _ text_eq
    rw [Interpreter.eq_of_registered found]
    dsimp only
    rw [text_eq]
  obtain ⟨reading, read, value⟩ := exists_ok_of_any isRead
  have reads : (leftReader g).ReadsAs root (.value "(((1)+(2))+(3))") := by
    cases reading with
    | several => cases value
    | value a =>
      obtain rfl : a = "(((1)+(2))+(3))" := Option.some.inj (eq_of_beq value)
      exact read
  have same := (read_chosen built parsed uniform decided true).2
  refine ⟨g, root, built, parsed, uniform, decided, ambiguous, reads, ?_⟩
  unfold Interpreter.ReadsAs
  rw [← same]
  exact reads

end Grammar

end Scannerless
