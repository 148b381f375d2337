import Scannerless.Proofs.BuildOrder
import Scannerless.Proofs.HandlerArguments

/-!
# Complete handlers

An interpreter is complete if it has a handler for every production, none of which fails, and leaves
every ambiguity open. Such an interpreter reads every forest of a grammar without sealed fragments
and brackets, unless it comes to a terminal: nobody makes a value of a terminal. Terminals are
passed over among the children of a reduction, but not among the elements of a list, so that the
lists of terminals that are looked into are all that stands in the way
(`Grammar.readable_iff_of_complete`).
-/

namespace Scannerless

theorem Node.Sound.exists_label {g : Grammar} {input : Input} {node : Node}
    (sound : node.Sound g input) {tag : String} (tagged : node.tag? = some tag) :
    ∃ p entry, g.withLabel? tag = some p ∧ g.prod? p = some entry := by
  cases sound with
  | leaf | ambiguity => cases tagged
  | branch labels found | list labels found =>
    cases tagged
    exact ⟨_, _, labels, found⟩

/-- A text is not parsed as a leaf. -/
theorem Grammar.Wired.isLeaf_of_parsed {g : Grammar} (wired : g.Wired) {policy : OnAmbiguity}
    {symbol : Symbol} {text : String} {root : Node}
    (parsed : (g.parseSymbol policy symbol text).value = .ok root) : root.isLeaf = false := by
  have faithful := wired.faithful_of_parsed parsed
  have symbol_eq : root.symbol = symbol := congrArg Constituent.symbol faithful.constituent_eq
  rw [faithful.isLeaf_eq wired, symbol_eq]
  exact wired.isTerminal_of_isDefined (Packing.isDefined_of_pack (wired.packed_of_parsed parsed))

/-- An element of a list that is sound throughout is a leaf only if the list production has
terminals for elements. -/
theorem Node.FaithfulTo.exists_element {g : Grammar} {input : Input} {node : Node}
    {constituent : Constituent} (faithful : node.FaithfulTo g input constituent)
    (wired : g.Wired) {parts : ListParts} (listParts : node.listParts? = some parts)
    {part : Node} (member : part ∈ parts.elements) (leaf : part.isLeaf = true) :
    ∃ p entry repetition element separators, g.prod? p = some entry ∧
      entry.production.kind = .list repetition ∧
      entry.production.rhs = element :: separators ∧ element.isTerminal = true := by
  have isPart := mem_parts_of_mem_elements listParts member
  have whole := faithful.sound (.root node)
  cases whole with
  | leaf | branch | ambiguity => cases listParts
  | @list id tag symbol span children p entry repetition labels found kind turns reduces =>
    cases listParts
    obtain ⟨index, at_⟩ := List.mem_iff_getElem?.1 isPart
    have turn := turns at_
    cases rhs : entry.production.rhs with
    | nil =>
      rw [rhs] at turn
      cases turn
    | cons element separators =>
      refine ⟨p, entry, repetition, element, separators, found, kind, rhs, ?_⟩
      rw [← (reduces.listLaws kind rhs).symbol_of_element part member,
        ← (faithful.part isPart).isLeaf_eq wired]
      exact leaf

namespace Interpreter

variable {α : Type} {interpreter : Interpreter α} {node : Node}

/-! ## Where reading comes to -/

theorem LooksAt.reaches {here next : Taking × Node} (looks : interpreter.LooksAt here next) :
    here.2.Reaches next.2 := by
  cases looks with
  | derivation ambiguous counts => exact .part (mem_parts_of_kept ambiguous counts) (.root _)
  | itself => exact .root _
  | expanded listParts member | element _ _ _ listParts member =>
    exact .part (Node.mem_parts_of_mem_elements listParts member) (.root _)
  | bracketed _ _ inner | child _ _ _ _ inner =>
    exact .part (Node.mem_parts_of_mem_children (Node.mem_inner_iff.1 inner).1) (.root _)

theorem Visits.reaches {here there : Taking × Node} (visits : interpreter.Visits here there) :
    here.2.Reaches there.2 := by
  induction visits with
  | refl => exact .root _
  | tail _ looks ih => exact ih.trans looks.reaches

/-- Below a node that is no leaf, reading comes to leaves only as to the elements of a list. -/
theorem exists_list_of_visits {g : Grammar} (wired : g.Wired) {input : Input}
    {constituent : Constituent} (faithful : node.FaithfulTo g input constituent)
    (inner : node.isLeaf = false) {taking : Taking} {there : Taking × Node}
    (visits : interpreter.Visits (taking, node) there) (leaf : there.2.isLeaf = true) :
    ∃ above parts, interpreter.Visits (taking, node) above ∧ above.2.listParts? = some parts ∧
      there.2 ∈ parts.elements := by
  induction visits with
  | refl =>
    rw [inner] at leaf
    cases leaf
  | tail visits looks ih =>
    cases looks with
    | derivation ambiguous counts =>
      have whole := faithful.reaches (Visits.reaches visits)
      rw [whole.isLeaf_of_part wired ambiguous (mem_parts_of_kept ambiguous counts)] at leaf
      cases leaf
    | itself => exact ih leaf
    | expanded listParts member | element _ _ _ listParts member =>
      exact ⟨_, _, visits, listParts, member⟩
    | bracketed _ _ isInner | child _ _ _ _ isInner =>
      rw [(Node.mem_inner_iff.1 isInner).2] at leaf
      cases leaf

/-! ## Complete interpreters -/

/-- An interpreter that has a handler for every production, none of which fails, and that leaves
every ambiguity open, of a grammar without sealed fragments and brackets. -/
structure Complete (interpreter : Interpreter α) : Prop where
  notSealed : ∀ {p : ProdId} {entry : WiredProduction}, interpreter.grammar.prod? p = some entry →
    entry.production.attributes.sealed = false
  notBracket : ∀ {p : ProdId} {entry : WiredProduction}, interpreter.grammar.prod? p = some entry →
    entry.production.attributes.bracket = false
  registered : ∀ {p : ProdId} {entry : WiredProduction}, interpreter.grammar.prod? p = some entry →
    ∃ handler, interpreter.handlers[entry.production.label]? = some handler ∧
      ∀ node arguments, ∃ a, handler node arguments = .ok a
  unfiltered : ∀ node, interpreter.keeps node = true
  tolerant : interpreter.refusesAmbiguity = false

section Complete

variable {input : Input}

/-- A complete interpreter reads a reduction if its handler can be handed the arguments. -/
theorem Complete.readable_of_handed (complete : interpreter.Complete)
    (wired : interpreter.grammar.Wired) (sound : node.Sound interpreter.grammar input)
    {tag : String} (tagged : node.tag? = some tag)
    (handed : (interpreter.attributes tag).bracket = false →
      ∃ arguments, Attempt.Gives (interpreter.handed tag node) arguments) :
    interpreter.Readable node := by
  obtain ⟨p, entry, labels, found⟩ := sound.exists_label tagged
  have attributes := attributes_of_label labels found
  have notSealed := complete.notSealed found
  have notBracket := complete.notBracket found
  obtain ⟨handler, registered, answers⟩ := complete.registered found
  rw [wired.label_of_withLabel labels found] at registered
  rw [← attributes] at notSealed notBracket
  obtain ⟨arguments, given⟩ := handed notBracket
  obtain ⟨a, answered⟩ := answers node arguments
  exact (readable_of_tagged tagged notBracket).2
    ⟨notSealed, handler, arguments, a, registered, given, answered⟩

theorem Complete.admits (complete : interpreter.Complete) (forked : node.Forked)
    (ambiguous : node.isAmbiguous = true) : interpreter.Admits (interpreter.kept node).length := by
  refine ⟨fun none_ => ?_, fun _ => complete.tolerant⟩
  have several := (forked ambiguous).1
  cases node with
  | leaf | branch | list => cases ambiguous
  | ambiguity id symbol span alternatives =>
    have all : alternatives.filter interpreter.keeps = alternatives :=
      List.filter_eq_self.2 fun alternative _ => complete.unfiltered alternative
    have several : 2 ≤ alternatives.length := several
    have none_ : (alternatives.filter interpreter.keeps).length = 0 := none_
    rw [all] at none_
    rw [none_] at several
    exact absurd several (Nat.not_succ_le_zero 1)

theorem complete_textReader {g : Grammar}
    (plain : ∀ p ∈ g.prodIds, ∀ entry ∈ g.prod? p,
      entry.production.attributes.sealed = false ∧ entry.production.attributes.bracket = false) :
    (textReader g).Complete := by
  have plain {p : ProdId} {entry : WiredProduction} (found : g.prod? p = some entry) :=
    plain p (List.mem_range.2 (Array.getElem?_eq_some_iff.1 found).1) entry found
  exact ⟨fun found => (plain found).1, fun found => (plain found).2,
    fun found => ⟨_, registered_of_prod found, fun node _ => ⟨node.yieldText, rfl⟩⟩,
    fun _ => rfl, rfl⟩

/-- A complete interpreter comes to leaves, or has what a node is taken for. -/
theorem Complete.provides (complete : interpreter.Complete)
    (wired : interpreter.grammar.Wired) : ∀ {constituent : Constituent},
    node.FaithfulTo interpreter.grammar input constituent → ∀ {taking : Taking},
      (∀ {there : Taking × Node}, interpreter.Visits (taking, node) there →
        there.2.isLeaf = false) → interpreter.Provides (taking, node) := by
  induction node using Node.induction_parts with
  | step node ih =>
    intro constituent faithful
    have sound := faithful.sound (.root node)
    have below {here next : Taking} {part : Node} (member : part ∈ node.parts)
        (looks : interpreter.LooksAt (here, node) (next, part))
        (clear : ∀ {there : Taking × Node}, interpreter.Visits (here, node) there →
          there.2.isLeaf = false) : interpreter.Provides (next, part) :=
      ih part member (faithful.part member) fun visits => clear (.head looks visits)
    have readable (clear : ∀ {there : Taking × Node}, interpreter.Visits (.read, node) there →
        there.2.isLeaf = false) : interpreter.Readable node := by
      cases ambiguous : node.isAmbiguous with
      | true =>
        refine (readable_of_ambiguous ambiguous).2 ⟨complete.admits sound.forked ambiguous,
          fun derivation counts => ?_⟩
        exact below (mem_parts_of_kept ambiguous counts) (.derivation ambiguous counts) clear
      | false =>
        obtain ⟨tag, tagged⟩ := Node.exists_tag (clear .refl) ambiguous
        refine complete.readable_of_handed wired sound tagged fun notBracket => ?_
        cases lexical : (interpreter.attributes tag).lexical with
        | true => exact exists_handed_of_lexical lexical
        | false =>
          cases listParts : node.listParts? with
          | some parts =>
            refine (exists_handed_of_list lexical listParts).2 fun element member => ?_
            exact below (Node.mem_parts_of_mem_elements listParts member)
              (.element tagged notBracket lexical listParts member) clear
          | none =>
            refine (exists_handed_of_other lexical listParts).2 fun child inner => ?_
            exact below (Node.mem_parts_of_mem_children (Node.mem_inner_iff.1 inner).1)
              (.child tagged notBracket lexical listParts inner) clear
    intro taking clear
    cases taking with
    | read => exact readable clear
    | expanded =>
      cases ambiguous : node.isAmbiguous with
      | true =>
        refine (expandable_of_ambiguous ambiguous).2 ⟨complete.admits sound.forked ambiguous,
          fun derivation counts => ?_⟩
        exact below (mem_parts_of_kept ambiguous counts) (.derivation ambiguous counts) clear
      | false =>
        cases listParts : node.listParts? with
        | some parts =>
          refine (expandable_of_list listParts).2 fun element member => ?_
          exact below (Node.mem_parts_of_mem_elements listParts member)
            (.expanded listParts member) clear
        | none =>
          refine (expandable_of_other ambiguous listParts).2 (readable fun visits => ?_)
          exact clear (.head (.itself ambiguous listParts) visits)

end Complete

end Interpreter

namespace Grammar

/-- A complete interpreter reads the forest of a parsed text if, and only if, it comes to no
terminal in it. It can come to a terminal only as to an element of a list, so that it reads all
forests if no list has terminals for elements. -/
theorem readable_iff_of_complete {start : Symbol} {script : List Declaration} {g : Grammar}
    (built : (Grammar.ofScript start script).value = .ok g) {policy : OnAmbiguity}
    {symbol : Symbol} {text : String} {root : Node}
    (parsed : (g.parseSymbol policy symbol text).value = .ok root) {α : Type}
    {interpreter : Interpreter α} (ofGrammar : interpreter.grammar = g)
    (complete : interpreter.Complete) :
    ((∃ reading, (interpreter.read root).run.value = .ok reading) ↔
      ∀ there : Interpreter.Taking × Node, interpreter.Visits (.read, root) there →
        there.2.isLeaf = false) ∧
    (∀ there : Interpreter.Taking × Node, interpreter.Visits (.read, root) there →
      there.2.isLeaf = true → ∃ list parts, interpreter.Visits (.read, root) list ∧
        list.2.listParts? = some parts ∧ there.2 ∈ parts.elements) ∧
    ((∀ p entry, g.prod? p = some entry → ∀ repetition element separators,
      entry.production.kind = .list repetition →
        entry.production.rhs = element :: separators → element.isTerminal = false) →
      ∃ reading, (interpreter.read root).run.value = .ok reading) := by
  subst ofGrammar
  have wired := Wired.of_script built
  have faithful := wired.faithful_of_parsed parsed
  have inList (there : Interpreter.Taking × Node) (visits : interpreter.Visits (.read, root) there)
      (leaf : there.2.isLeaf = true) :=
    Interpreter.exists_list_of_visits wired faithful (wired.isLeaf_of_parsed parsed) visits leaf
  have readable (clear : ∀ there : Interpreter.Taking × Node,
      interpreter.Visits (.read, root) there → there.2.isLeaf = false) :
      interpreter.Readable root :=
    complete.provides wired faithful fun visits => clear _ visits
  refine ⟨⟨fun reads there visits => ?_, readable⟩, inList, fun noLetters => ?_⟩
  · have provides : interpreter.Provides (.read, root) := reads
    exact (provides.of_visits visits).isLeaf_eq
  · refine readable fun there visits => ?_
    rw [← Bool.not_eq_true]
    intro leaf
    obtain ⟨above, parts, visitsAbove, listParts, member⟩ := inList there visits leaf
    have whole := faithful.reaches (Interpreter.Visits.reaches visitsAbove)
    obtain ⟨p, entry, repetition, element, separators, found, kind, rhs, terminal⟩ :=
      whole.exists_element wired listParts member leaf
    rw [noLetters p entry found repetition element separators kind rhs] at terminal
    cases terminal

/-- The text `(aab)` is read, whatever its list is, and no terminal of it is come to. -/
theorem readable_iff_of_complete_enclosed : ∃ (g : Grammar) (root : Node),
    (Grammar.ofScript (.nonTerminal "S") enclosed).value = .ok g ∧
    (g.parseSymbol .keep (.nonTerminal "S") "(aab)").value = .ok root ∧
    (Interpreter.textReader g).Complete ∧
    (∃ reading, ((Interpreter.textReader g).read root).run.value = .ok reading) ∧
    ∀ there : Interpreter.Taking × Node,
      (Interpreter.textReader g).Visits (.read, root) there → there.2.isLeaf = false := by
  obtain ⟨g, built, tested⟩ := exists_of_script (.nonTerminal "S") enclosed
    (fun g =>
      (g.parseSymbol .keep (.nonTerminal "S") "(aab)").value.toOption.any (fun root : Node =>
        ((Interpreter.textReader g).read root).run.value.toOption.any (fun _ => true)) &&
      decide (∀ p ∈ g.prodIds, ∀ entry ∈ g.prod? p,
        entry.production.attributes.sealed = false ∧ entry.production.attributes.bracket = false))
    (by decide +kernel)
  rw [Bool.and_eq_true, decide_eq_true_eq] at tested
  obtain ⟨root, parsed, isRead⟩ := exists_ok_of_any tested.1
  obtain ⟨reading, read, -⟩ := exists_ok_of_any isRead
  have complete := Interpreter.complete_textReader tested.2
  have clear := (readable_iff_of_complete built parsed rfl complete).1.1 ⟨reading, read⟩
  exact ⟨g, root, built, parsed, complete, ⟨reading, read⟩, clear⟩

/-- `S ::= {"a"}+`: the elements of the list are terminals. -/
def letters : List Declaration :=
  [.rule (.nonTerminal "S") [.list "S" (.literal "a") [] .plus]]

/-- A complete interpreter does not read a list of terminals: it comes to the first of them. -/
theorem complete_not_readable : ∃ (g : Grammar) (root : Node),
    (Grammar.ofScript (.nonTerminal "S") letters).value = .ok g ∧
    (g.parseSymbol .keep (.nonTerminal "S") "aa").value = .ok root ∧
    (Interpreter.textReader g).grammar = g ∧ (Interpreter.textReader g).Complete ∧
    ((Interpreter.textReader g).read root).run.value =
      .error (.unreadable "\"a\"" ⟨0, 1⟩ .terminal) := by
  obtain ⟨g, built, tested⟩ := exists_of_script (.nonTerminal "S") letters
    (fun g =>
      (g.parseSymbol .keep (.nonTerminal "S") "aa").value.toOption.any (fun root : Node =>
        match ((Interpreter.textReader g).read root).run.value with
        | .ok _ => false
        | .error error => decide (error = .unreadable "\"a\"" ⟨0, 1⟩ .terminal)) &&
      decide (∀ p ∈ g.prodIds, ∀ entry ∈ g.prod? p,
        entry.production.attributes.sealed = false ∧ entry.production.attributes.bracket = false))
    (by decide +kernel)
  rw [Bool.and_eq_true, decide_eq_true_eq] at tested
  obtain ⟨root, parsed, fails⟩ := exists_ok_of_any tested.1
  refine ⟨g, root, built, parsed, rfl, Interpreter.complete_textReader tested.2, ?_⟩
  split at fails
  · cases fails
  · next error eq =>
    rw [eq, of_decide_eq_true fails]

end Grammar

end Scannerless
