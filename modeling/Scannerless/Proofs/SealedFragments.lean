import Scannerless.Proofs.SeparatedLists
import Scannerless.Proofs.Visits

/-!
# Sealed fragments

A sealed fragment has no reading. A forest with one in it has a reading all the same if nobody asks
for a reading of the fragment: lexical reductions do not look at what is below them, separators are
not passed on, and a list that is an argument is asked for its elements.

The nodes outside of lexical reductions and separators are exposed (`Interpreter.Exposed`), and are
taken in one of two ways: for a reading of their own, or, if they stand for a list, for the readings
of the elements. What an exposed node is taken for is what a step of reading looks at it for. By
induction on the way there, it has what it is taken for (`Interpreter.Exposed.taken`). So in a
forest that has a reading, a sealed fragment outside of the lexical reductions is in a separator, or
it is a list that is taken for its elements (`Grammar.sealed_of_read`).
-/

namespace Scannerless

namespace Interpreter

variable {α : Type} {interpreter : Interpreter α}

/-- Whether a node has what it is taken for. Leaves are passed over. -/
def Taken (interpreter : Interpreter α) (node : Node) : Taking → Prop
  | .read => node.isLeaf = true ∨ interpreter.Readable node
  | .expanded => node.isLeaf = true ∨ interpreter.Expandable node

/-- How a child of a reduction is taken: for its elements if it stands for a list, unless the
reduction is a bracket. -/
def takingOf (interpreter : Interpreter α) (tag : String) (child : Node) : Taking :=
  if child.symbol.isList && !(interpreter.attributes tag).bracket then .expanded else .read

theorem taken_of_provides {node : Node} : ∀ {taking : Taking},
    interpreter.Provides (taking, node) → interpreter.Taken node taking
  | .read, provides => .inr provides
  | .expanded, provides => .inr provides

section Tagged

variable {tag : String} {node : Node}

/-- The children of a reduction by a sequence production that is read have what they are taken for,
unless it is lexical. -/
theorem Readable.taken_of_child (readable : interpreter.Readable node)
    (tagged : node.tag? = some tag) (noList : node.listParts? = none)
    (notLexical : (interpreter.attributes tag).lexical = false) {child : Node}
    (member : child ∈ node.children) :
    interpreter.Taken child (interpreter.takingOf tag child) := by
  have provides : interpreter.Provides (.read, node) := readable
  unfold takingOf
  cases leaf : child.isLeaf with
  | true => split <;> exact .inl leaf
  | false =>
    have inner : child ∈ Node.inner node.children := Node.mem_inner_iff.2 ⟨member, leaf⟩
    cases bracket : (interpreter.attributes tag).bracket with
    | true =>
      rw [Bool.not_true, Bool.and_false]
      exact taken_of_provides (provides.of_looksAt (.bracketed tagged bracket inner))
    | false =>
      rw [Bool.not_false, Bool.and_true]
      exact taken_of_provides (provides.of_looksAt (.child tagged bracket notLexical noList inner))

/-- The elements of a reduction by a list production that is read have readings, unless it is
lexical. -/
theorem Readable.taken_of_element (readable : interpreter.Readable node)
    (tagged : node.tag? = some tag) {parts : Node.ListParts}
    (listParts : node.listParts? = some parts)
    (notLexical : (interpreter.attributes tag).lexical = false) {element : Node}
    (isChild : element ∈ node.children) (member : element ∈ parts.elements) :
    interpreter.Taken element .read := by
  have provides : interpreter.Provides (.read, node) := readable
  cases bracket : (interpreter.attributes tag).bracket with
  | true =>
    cases leaf : element.isLeaf with
    | true => exact .inl leaf
    | false =>
      have inner : element ∈ Node.inner node.children := Node.mem_inner_iff.2 ⟨isChild, leaf⟩
      exact taken_of_provides (provides.of_looksAt (.bracketed tagged bracket inner))
  | false =>
    exact taken_of_provides
      (provides.of_looksAt (.element tagged bracket notLexical listParts member))

end Tagged

/-! ## Exposed nodes -/

/-- The nodes of a forest outside of lexical reductions and separators, with how they are taken. -/
inductive Exposed (interpreter : Interpreter α) (root : Node) : Taking → Node → Prop where
  | root : Exposed interpreter root .read root
  | alternative {taking : Taking} {id : Nat} {symbol : Symbol} {span : Span}
    {alternatives : List Node} {alternative : Node}
    (above : Exposed interpreter root taking (.ambiguity id symbol span alternatives))
    (member : alternative ∈ alternatives) : Exposed interpreter root taking alternative
  | child {taking : Taking} {id : Nat} {tag : String} {symbol : Symbol} {span : Span}
    {children : List Node} {child : Node}
    (above : Exposed interpreter root taking (.branch id tag symbol span children))
    (notLexical : (interpreter.attributes tag).lexical = false) (member : child ∈ children) :
    Exposed interpreter root (interpreter.takingOf tag child) child
  | element {taking : Taking} {id : Nat} {tag : String} {symbol : Symbol} {span : Span}
    {arity : Nat} {children : List Node} {element : Node}
    (above : Exposed interpreter root taking (.list id tag symbol span arity children))
    (notLexical : (interpreter.attributes tag).lexical = false)
    (member : element ∈ Node.ListParts.elements ⟨arity, children⟩) :
    Exposed interpreter root .read element

/-- The nodes of a forest that are not below a lexical reduction on some way down to them. -/
inductive Outside (interpreter : Interpreter α) (root : Node) : Node → Prop where
  | root : Outside interpreter root root
  | part {above part : Node} (outside : Outside interpreter root above)
    (notLexical : ∀ tag ∈ above.tag?, (interpreter.attributes tag).lexical = false)
    (member : part ∈ above.parts) : Outside interpreter root part

/-- The nodes of a forest that are in the separators of its lists, and not below a lexical
reduction on the way there and on. -/
inductive InSeparator (interpreter : Interpreter α) (root : Node) : Node → Prop where
  | separator {id : Nat} {tag : String} {symbol : Symbol} {span : Span} {arity : Nat}
    {children : List Node} {separator : Node}
    (outside : Outside interpreter root (.list id tag symbol span arity children))
    (notLexical : (interpreter.attributes tag).lexical = false)
    (member : separator ∈ Node.ListParts.separators ⟨arity, children⟩) :
    InSeparator interpreter root separator
  | part {above part : Node} (inSeparator : InSeparator interpreter root above)
    (notLexical : ∀ tag ∈ above.tag?, (interpreter.attributes tag).lexical = false)
    (member : part ∈ above.parts) : InSeparator interpreter root part

variable {root : Node}

/-- If there is a reading of the root, all exposed nodes have what they are taken for. -/
theorem Exposed.taken (unfiltered : ∀ node, interpreter.keeps node = true)
    (readable : interpreter.Readable root) {taking : Taking} {node : Node}
    (exposed : interpreter.Exposed root taking node) : interpreter.Taken node taking := by
  induction exposed with
  | root => exact .inr readable
  | @alternative taking id symbol span alternatives alternative _ member ih =>
    have counts : alternative ∈ interpreter.kept (.ambiguity id symbol span alternatives) :=
      List.mem_filter.2 ⟨member, unfiltered alternative⟩
    cases taking with
    | read =>
      have above := ih.resolve_left Bool.false_ne_true
      exact .inr (((readable_of_ambiguous rfl).1 above).2 alternative counts)
    | expanded =>
      have above := ih.resolve_left Bool.false_ne_true
      exact .inr (((expandable_of_ambiguous rfl).1 above).2 alternative counts)
  | @child taking id tag symbol span children child _ notLexical member ih =>
    have above : interpreter.Readable (.branch id tag symbol span children) := by
      cases taking with
      | read => exact ih.resolve_left Bool.false_ne_true
      | expanded => exact (expandable_of_other rfl rfl).1 (ih.resolve_left Bool.false_ne_true)
    exact above.taken_of_child rfl rfl notLexical member
  | @element taking id tag symbol span arity children element _ notLexical member ih =>
    cases taking with
    | read =>
      have above := ih.resolve_left Bool.false_ne_true
      exact Readable.taken_of_element above rfl rfl notLexical (Node.mem_of_mem_everyAfter member)
        member
    | expanded =>
      have above := ih.resolve_left Bool.false_ne_true
      exact .inr ((expandable_of_list rfl).1 above element member)

theorem Exposed.outside {taking : Taking} {node : Node}
    (exposed : interpreter.Exposed root taking node) : interpreter.Outside root node := by
  induction exposed with
  | root => exact .root
  | alternative _ member ih => exact ih.part (fun _ => nofun) member
  | child _ notLexical member ih =>
    refine ih.part ?_ member
    rintro _ ⟨⟩
    exact notLexical
  | element _ notLexical member ih =>
    refine ih.part ?_ (Node.mem_of_mem_everyAfter member)
    rintro _ ⟨⟩
    exact notLexical

theorem InSeparator.outside {node : Node} (inSeparator : interpreter.InSeparator root node) :
    interpreter.Outside root node := by
  induction inSeparator with
  | separator outside notLexical member =>
    refine outside.part ?_ (Node.mem_of_mem_separators member)
    rintro _ ⟨⟩
    exact notLexical
  | part _ notLexical member ih => exact ih.part notLexical member

/-- Outside of lexical reductions, every node is exposed or in a separator. -/
theorem Outside.exposed_or_inSeparator {node : Node} (outside : interpreter.Outside root node) :
    (∃ taking, interpreter.Exposed root taking node) ∨ interpreter.InSeparator root node := by
  induction outside with
  | root => exact .inl ⟨.read, .root⟩
  | @part above part outside notLexical member ih =>
    rcases ih with ⟨taking, exposed⟩ | inSeparator
    · cases above with
      | leaf => cases member
      | branch => exact .inl ⟨_, exposed.child (notLexical _ rfl) member⟩
      | list id tag symbol span arity children =>
        rcases Node.mem_elements_or_separators arity member with element | separator
        · exact .inl ⟨_, exposed.element (notLexical _ rfl) element⟩
        · exact .inr (.separator outside (notLexical _ rfl) separator)
      | ambiguity => exact .inl ⟨_, exposed.alternative member⟩
    · exact .inr (inSeparator.part notLexical member)

/-- No sealed fragment is read, and none is exposed but as a list that is taken for its elements. -/
theorem Exposed.expanded_of_sealed (unfiltered : ∀ node, interpreter.keeps node = true)
    (readable : interpreter.Readable root) {taking : Taking} {node : Node}
    (exposed : interpreter.Exposed root taking node) {tag : String} (tagged : node.tag? = some tag)
    (isSealed : (interpreter.attributes tag).sealed = true) :
    taking = .expanded ∧ node.listParts?.isSome = true := by
  have notReadable : ¬ interpreter.Readable node := by
    intro readable
    rw [readable.not_sealed tagged] at isSealed
    cases isSealed
  have inner : ¬ node.isLeaf = true := by
    rw [Node.isLeaf_of_tagged tagged]
    exact Bool.false_ne_true
  have taken := exposed.taken unfiltered readable
  cases taking with
  | read => exact absurd (taken.resolve_left inner) notReadable
  | expanded =>
    refine ⟨rfl, ?_⟩
    by_contra noList
    rw [Bool.not_eq_true, Option.isSome_eq_false_iff, Option.isNone_iff_eq_none] at noList
    have plain := Node.plain_of_tagged tagged
    exact notReadable ((expandable_of_other plain noList).1 (taken.resolve_left inner))

end Interpreter

namespace Grammar

/-- Whether a node is a reduction by a sealed production. -/
def Seals (g : Grammar) (node : Node) : Prop :=
  ∃ p ∈ g.prodIds, ∃ entry ∈ g.prod? p, node.tag? = some entry.production.label ∧
    entry.production.attributes.sealed = true

instance (g : Grammar) (node : Node) : Decidable (g.Seals node) :=
  inferInstanceAs (Decidable (∃ p ∈ g.prodIds, ∃ entry ∈ g.prod? p,
    node.tag? = some entry.production.label ∧ entry.production.attributes.sealed = true))

/-- In a forest that has a reading for which all alternatives count, a reduction by a sealed
production is not exposed, unless it is a list that is taken for its elements. So there is no sealed
fragment outside of the lexical reductions just if there is none among the lists that are taken for
their elements, and none in the separators. -/
theorem sealed_of_read {start : Symbol} {script : List Declaration} {g : Grammar}
    (built : (Grammar.ofScript start script).value = .ok g) {α : Type} {interpreter : Interpreter α}
    (ofGrammar : interpreter.grammar = g) (unfiltered : ∀ node, interpreter.keeps node = true)
    {root : Node} {reading : Reading α} (read : (interpreter.read root).run.value = .ok reading) :
    (∀ taking node, interpreter.Exposed root taking node → g.Seals node →
      taking = .expanded ∧ node.listParts?.isSome = true) ∧
    ((∀ node, interpreter.Outside root node → ¬ g.Seals node) ↔
      (∀ node, interpreter.Exposed root .expanded node → node.listParts?.isSome = true →
        ¬ g.Seals node) ∧
      ∀ node, interpreter.InSeparator root node → ¬ g.Seals node) := by
  have expanded : ∀ taking node, interpreter.Exposed root taking node → g.Seals node →
      taking = .expanded ∧ node.listParts?.isSome = true := by
    rintro taking node exposed ⟨p, -, entry, found, tagged, isSealed⟩
    refine exposed.expanded_of_sealed unfiltered ⟨reading, read⟩ tagged ?_
    have labels := (Wired.of_script built).withLabel_iff.2 ⟨entry, found, rfl⟩
    unfold Interpreter.attributes
    rw [ofGrammar, labels, Option.bind_some, found]
    exact isSealed
  refine ⟨expanded, fun none_ => ⟨fun node exposed _ => none_ node exposed.outside,
    fun node inSeparator => none_ node inSeparator.outside⟩, ?_⟩
  rintro ⟨noList, noSeparator⟩ node outside isSealed
  rcases outside.exposed_or_inSeparator with ⟨taking, exposed⟩ | inSeparator
  · obtain ⟨rfl, isList⟩ := expanded taking node exposed isSealed
    exact noList node exposed isList isSealed
  · exact noSeparator node inSeparator isSealed

/-- `{A Comma}+` -/
def commaList : Symbol :=
  .list (.nonTerminal "A") [.nonTerminal "Comma"] .plus

/-- `S ::= {A Comma}+`, `A ::= "a"` and `Comma ::= ","`, with attributes for the list and the
comma. -/
def commas (list comma : List Attribute) : List Declaration :=
  [.nonTerminal 0 "A",
    .nonTerminal 1 "Comma",
    .wired (list.foldl Production.withAttribute
      (.ofList "Items" commaList (.nonTerminal "A") [.nonTerminal "Comma"] .plus)) [0, 1],
    .rule (.nonTerminal "S") [.sequence "S" [commaList] []],
    Example.ruleA,
    .rule (.nonTerminal "Comma") [.sequence "Comma" [.literal ","] comma]]

/-- Reads `S` and `A`, and nothing else. -/
def commaReader (g : Grammar) : Interpreter Unit :=
  let bare : Interpreter Unit := { grammar := g }
  (bare.withHandler "S" fun _ _ => .ok ()).withHandler "A" fun _ _ => .ok ()

/-- The text `a,a` has a reading, though its list is sealed. Nothing else is. -/
theorem exists_reading_commas : ∃ g root reading list,
    (Grammar.ofScript (.nonTerminal "S") (commas [.sealed] [])).value = .ok g ∧
    (g.parseSymbol .keep (.nonTerminal "S") "a,a").value = .ok root ∧
    ((commaReader g).read root).run.value = .ok reading ∧
    (commaReader g).Outside root list ∧ g.Seals list ∧
    ∀ p ∈ g.prodIds, ∀ entry ∈ g.prod? p,
      entry.production.attributes.sealed = true → entry.production.label = "Items" := by
  obtain ⟨g, built, tested⟩ := exists_of_script (.nonTerminal "S") (commas [.sealed] [])
    (fun g =>
      (g.parseSymbol .keep (.nonTerminal "S") "a,a").value.toOption.any (fun root =>
        ((commaReader g).read root).run.value.toOption.any (fun _ => true) &&
        decide (∀ tag ∈ root.tag?, ((commaReader g).attributes tag).lexical = false) &&
        root.parts.any fun list => decide (g.Seals list)) &&
      decide (∀ p ∈ g.prodIds, ∀ entry ∈ g.prod? p,
        entry.production.attributes.sealed = true → entry.production.label = "Items"))
    (by decide +kernel)
  rw [Bool.and_eq_true, decide_eq_true_eq] at tested
  obtain ⟨root, parsed, passes⟩ := exists_ok_of_any tested.1
  simp only [Bool.and_eq_true, decide_eq_true_eq, List.any_eq_true] at passes
  obtain ⟨⟨isRead, notLexical⟩, list, inRoot, isSealed⟩ := passes
  obtain ⟨reading, read, -⟩ := exists_ok_of_any isRead
  exact ⟨g, root, reading, list, built, parsed, read,
    Interpreter.Outside.root.part notLexical inRoot, isSealed, tested.2⟩

/-- The list of the commas is exposed for its elements only. -/
theorem sealed_of_read_commas : ∃ g root reading list,
    (Grammar.ofScript (.nonTerminal "S") (commas [.sealed] [])).value = .ok g ∧
    (g.parseSymbol .keep (.nonTerminal "S") "a,a").value = .ok root ∧
    ((commaReader g).read root).run.value = .ok reading ∧
    (commaReader g).Outside root list ∧ g.Seals list ∧
    ∀ taking, (commaReader g).Exposed root taking list → taking = .expanded := by
  obtain ⟨g, root, reading, list, built, parsed, read, outside, isSealed, -⟩ :=
    exists_reading_commas
  obtain ⟨expanded, -⟩ :=
    sealed_of_read built (rfl : (commaReader g).grammar = g) (fun _ => rfl) read
  exact ⟨g, root, reading, list, built, parsed, read, outside, isSealed,
    fun taking exposed => (expanded taking list exposed isSealed).1⟩

/-- A forest can have a reading with a sealed list in it, outside of any lexical reduction, though
nothing but the list is sealed. -/
theorem sealed_in_reading : ∃ g root reading list,
    (Grammar.ofScript (.nonTerminal "S") (commas [.sealed] [])).value = .ok g ∧
    (g.parseSymbol .keep (.nonTerminal "S") "a,a").value = .ok root ∧
    ((commaReader g).read root).run.value = .ok reading ∧
    (∀ node, (commaReader g).keeps node = true) ∧
    (∀ p ∈ g.prodIds, ∀ entry ∈ g.prod? p,
      entry.production.attributes.sealed = true → entry.production.label = "Items") ∧
    (commaReader g).Outside root list ∧ g.Seals list := by
  obtain ⟨g, root, reading, list, built, parsed, read, outside, isSealed, only⟩ :=
    exists_reading_commas
  exact ⟨g, root, reading, list, built, parsed, read, fun _ => rfl, only, outside, isSealed⟩

/-- Separators are not passed on, so a comma may be sealed. -/
example : (Grammar.ofScript (.nonTerminal "S") (commas [] [.sealed])).value.toOption.any (fun g =>
    (g.parseSymbol .keep (.nonTerminal "S") "a,a").value.toOption.any fun root =>
      ((commaReader g).read root).run.value.toOption.any (fun _ => true) &&
      root.parts.any fun list => list.parts.any fun comma => decide (g.Seals comma)) = true := by
  decide +kernel

end Grammar

end Scannerless
