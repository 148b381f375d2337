import Scannerless.Proofs.HandlerCalls
import Scannerless.Proofs.WellFormed

/-!
# Arguments of handlers

A reduction hands its children to its handler by what they look like: leaves are passed over,
children of a list symbol give the readings of their elements, and all others a reading of their
own. The production is not looked at. In the forest of a parsed text that comes to the same: leaves
are the nodes of terminals (`Node.FaithfulTo.isLeaf_eq`), and the derivations of a list symbol are
reductions of list productions (`Node.FaithfulTo.exists_listParts`). So the arguments line up with
the right-hand side of the production: `Grammar.linesUp_of_makes`.
-/

namespace Scannerless

namespace Symbol

theorem exists_of_isList {symbol : Symbol} (isList : symbol.isList = true) :
    ∃ element separators repetition, symbol = .list element separators repetition := by
  cases symbol with
  | list element separators repetition => exact ⟨element, separators, repetition, rfl⟩
  | _ => cases isList

/-- A symbol with productions that is no list is a nonterminal. -/
theorem exists_name {symbol : Symbol} (notTerminal : symbol.isTerminal = false)
    (notList : symbol.isList = false) : ∃ name, symbol = .nonTerminal name := by
  cases symbol with
  | literal | charClass => cases notTerminal
  | list => cases notList
  | nonTerminal name => exact ⟨name, rfl⟩

end Symbol

namespace Node

variable {g : Grammar} {input : Input} {node : Node}

/-- Leaves with the same symbol and span have the same structure. -/
theorem Sound.erase_eq {other : Node} (sound : node.Sound g input) (soundToo : other.Sound g input)
    (leaf : node.isLeaf = true) (leafToo : other.isLeaf = true)
    (same : node.constituent = other.constituent) : node.erase = other.erase := by
  cases sound with
  | branch | list | ambiguity => cases leaf
  | leaf =>
    cases soundToo with
    | branch | list | ambiguity => cases leafToo
    | leaf =>
      injection same with symbol span
      cases symbol
      cases span
      rfl

/-- The leaves of a sound forest are its nodes of terminals. -/
theorem FaithfulTo.isLeaf_eq (wired : g.Wired) : ∀ {constituent : Constituent},
    node.FaithfulTo g input constituent → node.isLeaf = node.symbol.isTerminal := by
  induction node using induction_parts with
  | step node ih =>
    intro constituent faithful
    have whole := faithful.sound (.root node)
    cases whole with
    | leaf scanned => exact (Symbol.isTerminal_of_scan scanned).symm
    | branch labels found _ _ reduces =>
      have notTerminal := wired.isTerminal_of_lhs found
      rw [reduces.lhs] at notTerminal
      exact notTerminal.symm
    | list labels found _ _ reduces =>
      have notTerminal := wired.isTerminal_of_lhs found
      rw [reduces.lhs] at notTerminal
      exact notTerminal.symm
    | @ambiguity id symbol span alternatives several different plain alike =>
      -- Two alternatives of a terminal would be the same leaf.
      cases terminal : symbol.isTerminal with
      | false => exact terminal.symm
      | true =>
        match alternatives, several with
        | first :: second :: rest, _ =>
          have isFirst : first ∈ first :: second :: rest := List.mem_cons_self
          have isSecond : second ∈ first :: second :: rest :=
            List.mem_cons_of_mem _ List.mem_cons_self
          have leaf (part : Node) (member : part ∈ first :: second :: rest) :
              part.isLeaf = true := by
            have symbol_eq : part.symbol = symbol :=
              congrArg Constituent.symbol (alike part member)
            rw [ih part member (faithful.part member), symbol_eq, terminal]
          have same := ((faithful.part isFirst).sound (.root first)).erase_eq
            ((faithful.part isSecond).sound (.root second)) (leaf first isFirst)
            (leaf second isSecond) ((alike first isFirst).trans (alike second isSecond).symm)
          exact absurd same ((List.pairwise_cons.1 different).1 second List.mem_cons_self)

/-- The alternatives of an ambiguity have its symbol and its span. -/
theorem FaithfulTo.constituent_of_part {constituent : Constituent}
    (faithful : node.FaithfulTo g input constituent) (ambiguous : node.isAmbiguous = true)
    {part : Node} (member : part ∈ node.parts) : part.constituent = node.constituent := by
  have whole := faithful.sound (.root node)
  cases whole with
  | leaf | branch | list => cases ambiguous
  | ambiguity _ _ _ alike => exact alike part member

/-- The alternatives of an ambiguity are no leaves. -/
theorem FaithfulTo.isLeaf_of_part (wired : g.Wired) {constituent : Constituent}
    (faithful : node.FaithfulTo g input constituent) (ambiguous : node.isAmbiguous = true)
    {part : Node} (member : part ∈ node.parts) : part.isLeaf = false := by
  have symbol_eq : part.symbol = node.symbol :=
    congrArg Constituent.symbol (faithful.constituent_of_part ambiguous member)
  rw [(faithful.part member).isLeaf_eq wired, symbol_eq, ← faithful.isLeaf_eq wired]
  cases node with
  | leaf => cases ambiguous
  | _ => rfl

/-- The derivations of a list symbol are reductions of list productions. -/
theorem FaithfulTo.exists_listParts (wired : g.Wired) {constituent : Constituent}
    (faithful : node.FaithfulTo g input constituent) (isList : node.symbol.isList = true)
    (plain : node.isAmbiguous = false) : ∃ parts, node.listParts? = some parts := by
  obtain ⟨element, separators, repetition, symbol_eq⟩ := Symbol.exists_of_isList isList
  have whole := faithful.sound (.root node)
  cases whole with
  | ambiguity => cases plain
  | list => exact ⟨_, rfl⟩
  | leaf scanned =>
    have terminal := Symbol.isTerminal_of_scan scanned
    cases symbol_eq
    cases terminal
  | branch labels found kind _ reduces =>
    have defines := wired.definesLhs found
    obtain ⟨isList, -⟩ := Production.list_of_definesLhs defines (reduces.lhs.trans symbol_eq)
    rw [kind] at isList
    cases isList

/-- Below a reduction by a sequence production, the nodes that are no leaves are those of the
symbols that have productions. -/
theorem map_symbol_inner {nodes : List Node}
    (leaves : ∀ node ∈ nodes, node.isLeaf = node.symbol.isTerminal) :
    (inner nodes).map Node.symbol = (nodes.map Node.symbol).filter Symbol.hasProductions := by
  induction nodes with
  | nil => rfl
  | cons node rest ih =>
    have others := ih fun other member => leaves other (List.mem_cons_of_mem _ member)
    unfold inner at others ⊢
    rw [List.filter_cons, List.map_cons, List.filter_cons, leaves node List.mem_cons_self, ← others]
    unfold Symbol.hasProductions
    split <;> rfl

end Node

namespace Interpreter

variable {α : Type}

/-- Which argument stands for a child of a symbol that has productions: a single reading for a
nonterminal, and for a list symbol the readings of the elements of each derivation that counts, in
the order of the list. -/
inductive StandsFor (interpreter : Interpreter α) (child : Node) : Argument α → Prop
  | single {name : String} {reading : Reading α} (symbol : child.symbol = .nonTerminal name)
    (reads : interpreter.ReadsAs child reading) : StandsFor interpreter child (.single reading)
  | elements {derivation : Node} {parts : Node.ListParts} {readings : List (Reading α)}
    (isList : child.symbol.isList = true) (sole : interpreter.kept child = [derivation])
    (listParts : derivation.listParts? = some parts)
    (each : List.Forall₂ interpreter.ReadsAs parts.elements readings) :
    StandsFor interpreter child (.elements readings)
  | severalLists {lists : List (List (Reading α))} (isList : child.symbol.isList = true)
    (several : 2 ≤ lists.length)
    (each : List.Forall₂
      (fun derivation readings => ∃ parts : Node.ListParts, derivation.listParts? = some parts ∧
        List.Forall₂ interpreter.ReadsAs parts.elements readings)
      (interpreter.kept child) lists) :
    StandsFor interpreter child (.severalLists lists)

/-- How arguments line up with the right-hand side of a production. -/
inductive LinesUp (interpreter : Interpreter α) (production : Production) (node : Node) :
    List (Argument α) → Prop
  /-- A lexical production has none. -/
  | lexical (lexical : production.attributes.lexical = true) :
    LinesUp interpreter production node []
  /-- A list production has one, with a reading for each element. -/
  | list {repetition : Repetition} {parts : Node.ListParts} {readings : List (Reading α)}
    (notLexical : production.attributes.lexical = false)
    (kind : production.kind = .list repetition) (listParts : node.listParts? = some parts)
    (each : List.Forall₂ interpreter.ReadsAs parts.elements readings) :
    LinesUp interpreter production node [.elements readings]
  /-- A sequence production has one for each symbol that has productions. -/
  | sequence {arguments : List (Argument α)}
    (notLexical : production.attributes.lexical = false) (kind : production.kind = .sequence)
    (symbols : (Node.inner node.children).map Node.symbol =
      production.rhs.filter Symbol.hasProductions)
    (each : List.Forall₂ interpreter.StandsFor (Node.inner node.children) arguments) :
    LinesUp interpreter production node arguments

section LinesUp

variable {interpreter : Interpreter α} {g : Grammar} {input : Input}

theorem listParts_of_kept (wired : g.Wired) {child derivation : Node} {constituent : Constituent}
    (faithful : child.FaithfulTo g input constituent) (isList : child.symbol.isList = true)
    (counts : derivation ∈ interpreter.kept child) :
    ∃ parts, derivation.listParts? = some parts := by
  cases ambiguous : child.isAmbiguous with
  | false =>
    rw [kept_of_plain ambiguous, List.mem_singleton] at counts
    exact counts ▸ faithful.exists_listParts wired isList ambiguous
  | true =>
    have whole := faithful.sound (.root child)
    cases whole with
    | leaf | branch | list => cases ambiguous
    | @ambiguity id symbol span alternatives _ _ plain alike =>
      have member : derivation ∈ alternatives := List.mem_of_mem_filter counts
      have symbol_eq : derivation.symbol = symbol :=
        congrArg Constituent.symbol (alike derivation member)
      refine (faithful.part member).exists_listParts wired ?_ (plain derivation member)
      rw [symbol_eq]
      exact isList

/-- What a child gives stands for it. -/
theorem standsFor_of_gives (wired : g.Wired) {child : Node} {constituent : Constituent}
    (faithful : child.FaithfulTo g input constituent) (inner : child.isLeaf = false)
    {argument : Argument α} (given : Attempt.Gives (interpreter.argument child) argument) :
    interpreter.StandsFor child argument := by
  have expansion {derivation : Node} {readings : List (Reading α)}
      (isList : child.symbol.isList = true) (counts : derivation ∈ interpreter.kept child)
      (expands : interpreter.ExpandsTo derivation readings) :
      ∃ parts : Node.ListParts, derivation.listParts? = some parts ∧
        List.Forall₂ interpreter.ReadsAs parts.elements readings := by
    obtain ⟨parts, listParts⟩ := listParts_of_kept wired faithful isList counts
    rw [expandsTo_iff, listParts] at expands
    exact ⟨parts, listParts, expands⟩
  have argumentFor := argumentFor_of_gives (faithful.sound (.root child)).forked given
  cases argumentFor with
  | single notList reads =>
    have notTerminal := faithful.isLeaf_eq wired
    rw [inner] at notTerminal
    obtain ⟨name, symbol_eq⟩ := Symbol.exists_name notTerminal.symm notList
    exact .single symbol_eq reads
  | elements isList sole expands =>
    obtain ⟨parts, listParts, each⟩ := expansion isList (sole ▸ List.mem_singleton_self _) expands
    exact .elements isList sole listParts each
  | severalLists isList several _ each =>
    have counted := (List.forall₂_and_left _ _).2 ⟨fun _ counts => counts, each⟩
    exact .severalLists isList several
      (counted.imp fun _ _ both => expansion isList both.1 both.2)

/-- What is handed to the handler of a reduction lines up with its production. -/
theorem linesUp_of_gives (wired : g.Wired) (ofGrammar : interpreter.grammar = g) {node : Node}
    {constituent : Constituent} (faithful : node.FaithfulTo g input constituent) {tag : String}
    (tagged : node.tag? = some tag) {arguments : List (Argument α)}
    (given : Attempt.Gives (interpreter.handed tag node) arguments) :
    ∃ p entry, g.prod? p = some entry ∧ tag = entry.production.label ∧
      interpreter.LinesUp entry.production node arguments := by
  subst ofGrammar
  rw [gives_handed_iff] at given
  have whole := faithful.sound (.root node)
  cases whole with
  | leaf => cases tagged
  | ambiguity => cases tagged
  | @branch id label symbol span children p entry labels found kind rhs reduces =>
    cases tagged
    refine ⟨p, entry, found, (wired.label_of_withLabel labels found).symm, ?_⟩
    rw [attributes_of_label labels found] at given
    split at given
    · next lexical => exact given ▸ .lexical lexical
    · next notLexical =>
      have leaves : ∀ child ∈ children, child.isLeaf = child.symbol.isTerminal :=
        fun child member => (faithful.part member).isLeaf_eq wired
      refine .sequence (Bool.eq_false_iff.2 notLexical) kind ?_ ?_
      · rw [← rhs]
        exact Node.map_symbol_inner leaves
      · have inner := (List.forall₂_and_left _ _).2
          ⟨fun _ member => Node.mem_inner_iff.1 member, given⟩
        exact inner.imp fun _ _ both =>
          standsFor_of_gives wired (faithful.part both.1.1) both.1.2 both.2
  | list labels found kind _ reduces =>
    cases tagged
    refine ⟨_, _, found, (wired.label_of_withLabel labels found).symm, ?_⟩
    rw [attributes_of_label labels found] at given
    split at given
    · next lexical => exact given ▸ .lexical lexical
    · next notLexical =>
      obtain ⟨readings, each, rfl⟩ := given
      exact .list (Bool.eq_false_iff.2 notLexical) kind rfl each

end LinesUp

end Interpreter

namespace Grammar

/-- Every call that is made on the way to the reading of a parsed text is of a reduction in its
forest, with arguments that line up with the production of that reduction. -/
theorem linesUp_of_makes {start : Symbol} {script : List Declaration} {g : Grammar}
    (built : (Grammar.ofScript start script).value = .ok g) {policy : OnAmbiguity}
    {symbol : Symbol} {text : String} {root : Node}
    (parsed : (g.parseSymbol policy symbol text).value = .ok root) {α : Type}
    {interpreter : Interpreter α} (ofGrammar : interpreter.grammar = g) {call : HandlerCall α}
    (makes : interpreter.Makes root call) :
    ∃ p entry, g.prod? p = some entry ∧ call.tag = entry.production.label ∧
      root.Reaches call.node ∧ call.node.tag? = some call.tag ∧
      interpreter.LinesUp entry.production call.node call.arguments := by
  have wired := Wired.of_script built
  obtain ⟨reaches, due⟩ := makes.due
  have faithful := (wired.faithful_of_parsed parsed).reaches reaches
  obtain ⟨p, entry, found, label, linesUp⟩ :=
    Interpreter.linesUp_of_gives wired ofGrammar faithful due.tagged due.handed
  exact ⟨p, entry, found, label, reaches, due.tagged, linesUp⟩

/-- `S ::= "(" {A}+ B ")"`, where one `A` is as good as two: the list of two `a` has two
derivations. -/
def enclosed : List Declaration :=
  [.rule (.nonTerminal "S") [.sequence "S"
      [.literal "(", .list (.nonTerminal "A") [] .plus, .nonTerminal "B", .literal ")"] []],
    .rule (.nonTerminal "A")
      [.sequence "One" [.literal "a"] [], .sequence "Two" [.literal "a", .literal "a"] []],
    .rule (.nonTerminal "B") [.sequence "B" [.literal "b"] [.lexical]]]

/-- In the text `(aab)`, the handler of `S` is called with two arguments: the elements of both
derivations of the list, and the reading of `B`. -/
theorem linesUp_of_makes_enclosed : ∃ (g : Grammar) (root : Node)
    (arguments : List (Argument String)),
    (Grammar.ofScript (.nonTerminal "S") enclosed).value = .ok g ∧
    (g.parseSymbol .keep (.nonTerminal "S") "(aab)").value = .ok root ∧
    (Interpreter.textReader g).Makes root ⟨"S", root, arguments⟩ ∧
    (∀ p ∈ g.prodIds, ∀ entry ∈ g.prod? p, entry.production.label = "S" →
      entry.production.attributes.lexical = false ∧ entry.production.kind = .sequence) ∧
    List.Forall₂ ((Interpreter.textReader g).StandsFor) (Node.inner root.children) arguments := by
  obtain ⟨g, built, tested⟩ := exists_of_script (.nonTerminal "S") enclosed
    (fun g =>
      (g.parseSymbol .keep (.nonTerminal "S") "(aab)").value.toOption.any (fun root : Node =>
        decide (root.tag? = some "S") &&
        ((Interpreter.textReader g).read root).run.value.toOption.any (fun _ => true) &&
        !((Interpreter.textReader g).attributes "S").bracket) &&
      decide (∀ p ∈ g.prodIds, ∀ entry ∈ g.prod? p, entry.production.label = "S" →
        entry.production.attributes.lexical = false ∧ entry.production.kind = .sequence))
    (by decide +kernel)
  rw [Bool.and_eq_true, decide_eq_true_eq] at tested
  obtain ⟨root, parsed, passes⟩ := exists_ok_of_any tested.1
  simp only [Bool.and_eq_true, decide_eq_true_eq, Bool.not_eq_true'] at passes
  obtain ⟨⟨tagged, isRead⟩, notBracket⟩ := passes
  obtain ⟨reading, reads, -⟩ := exists_ok_of_any isRead
  obtain ⟨arguments, due⟩ := Interpreter.exists_due tagged notBracket reads
  have makes := due.makes_of_visits ⟨reading, reads⟩ .refl
  obtain ⟨p, entry, found, label, -, -, linesUp⟩ :=
    linesUp_of_makes built parsed (rfl : (Interpreter.textReader g).grammar = g) makes
  have inGrammar : p ∈ g.prodIds := List.mem_range.2 (Array.getElem?_eq_some_iff.1 found).1
  obtain ⟨notLexical, sequence⟩ := tested.2 p inGrammar entry found label.symm
  refine ⟨g, root, arguments, built, parsed, makes, tested.2, ?_⟩
  cases linesUp with
  | lexical lexical =>
    rw [notLexical] at lexical
    cases lexical
  | list _ kind =>
    rw [sequence] at kind
    cases kind
  | sequence _ _ _ each => exact each

end Grammar

end Scannerless
