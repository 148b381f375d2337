import Mathlib.Logic.Relation
import Scannerless.Proofs.Readings

/-!
# What reading looks at

Whether a node has a reading depends on the nodes that are looked at to make it: on each derivation
of an ambiguity that counts, on what is inside of a bracket, and on the parts that a handler is
handed something of. Nodes are taken in one of two ways: for a reading of their own, or, if they
stand for a list, for the readings of the elements.

One step of reading is described twice, by what has to be there for it to succeed, and by the nodes
that it looks at (`Interpreter.LooksAt`). If it succeeds, it does so for all of these
(`Interpreter.Provides.of_visits`).
-/

namespace Scannerless

/-- There are results for a sequence of inputs if there is a result for each of them. -/
theorem exists_forall₂_iff {β γ : Type} {related : β → γ → Prop} {inputs : List β} :
    (∃ results, List.Forall₂ related inputs results) ↔
      ∀ input ∈ inputs, ∃ result, related input result := by
  induction inputs with
  | nil => exact iff_of_true ⟨[], .nil⟩ fun _ member => absurd member List.not_mem_nil
  | cons input rest ih =>
    rw [List.forall_mem_cons, ← ih]
    simp only [List.forall₂_cons_left_iff]
    constructor
    · rintro ⟨_, result, others, here, each, _⟩
      exact ⟨⟨result, here⟩, others, each⟩
    · rintro ⟨⟨result, here⟩, others, each⟩
      exact ⟨result :: others, result, others, here, each, rfl⟩

namespace Attempt

/-- Whether the attempt ends with a value. -/
def Succeeds {α : Type} (attempt : Attempt α) : Prop :=
  ∃ a, attempt.run.value = .ok a

end Attempt

namespace Interpreter

variable {α : Type} {interpreter : Interpreter α} {node : Node}

/-! ## What it takes to be read -/

/-- Whether the node has a reading. -/
def Readable (interpreter : Interpreter α) (node : Node) : Prop :=
  Attempt.Succeeds (interpreter.read node)

/-- Whether the node has the readings of its elements, as a list does. -/
def Expandable (interpreter : Interpreter α) (node : Node) : Prop :=
  Attempt.Succeeds (interpreter.readLists node)

/-- How a node is taken by what is above it. -/
inductive Taking where
  /-- For a reading of its own. -/
  | read
  /-- As an argument that is a list, for the readings of its elements. -/
  | expanded

/-- Whether a node has what it is taken for. -/
def Provides (interpreter : Interpreter α) : Taking × Node → Prop
  | (.read, node) => interpreter.Readable node
  | (.expanded, node) => interpreter.Expandable node

/-- How a child is taken for an argument: for its elements if it stands for a list. -/
def takenFor (child : Node) : Taking :=
  if child.symbol.isList then .expanded else .read

theorem not_readable_leaf (leaf : node.isLeaf = true) : ¬ interpreter.Readable node :=
  fun ⟨_, reads⟩ => not_readsAs_leaf leaf reads

theorem readable_of_ambiguous (ambiguous : node.isAmbiguous = true) :
    interpreter.Readable node ↔ interpreter.Admits (interpreter.kept node).length ∧
      ∀ derivation ∈ interpreter.kept node, interpreter.Readable derivation := by
  have step (reading : Reading α) : interpreter.ReadsAs node reading ↔ _ :=
    readsAs_of_ambiguous ambiguous
  refine (exists_congr step).trans ⟨?_, ?_⟩
  · rintro ⟨_, admits, readings, each, _⟩
    exact ⟨admits, exists_forall₂_iff.1 ⟨readings, each⟩⟩
  · rintro ⟨admits, each⟩
    obtain ⟨readings, each⟩ := exists_forall₂_iff.2 each
    exact ⟨_, admits, readings, each, rfl⟩

theorem expandable_of_ambiguous (ambiguous : node.isAmbiguous = true) :
    interpreter.Expandable node ↔ interpreter.Admits (interpreter.kept node).length ∧
      ∀ derivation ∈ interpreter.kept node, interpreter.Expandable derivation := by
  cases node with
  | leaf | branch | list => cases ambiguous
  | ambiguity id symbol span alternatives =>
    have step (lists : List (List (Reading α))) :
        Attempt.Gives (interpreter.readLists (.ambiguity id symbol span alternatives)) lists ↔
          interpreter.Admits (alternatives.filter interpreter.keeps).length ∧
          ∃ nested,
            List.Forall₂ (fun derivation => Attempt.Gives (interpreter.readLists derivation))
              (alternatives.filter interpreter.keeps) nested ∧ nested.flatten = lists := by
      rw [readLists, readKeptLists_eq]
      simp only [Attempt.gives_bind_iff, gives_countKept_iff, Attempt.gives_map_iff,
        Attempt.gives_mapM_iff]
      constructor
      · rintro ⟨_, ⟨rfl, admits⟩, nested⟩
        exact ⟨admits, nested⟩
      · rintro ⟨admits, nested⟩
        exact ⟨_, ⟨rfl, admits⟩, nested⟩
    refine (exists_congr step).trans ⟨?_, ?_⟩
    · rintro ⟨_, admits, nested, each, _⟩
      exact ⟨admits, exists_forall₂_iff.1 ⟨nested, each⟩⟩
    · rintro ⟨admits, each⟩
      obtain ⟨nested, each⟩ := exists_forall₂_iff.2 each
      exact ⟨_, admits, nested, each, rfl⟩

theorem expandable_of_plain (plain : node.isAmbiguous = false) :
    interpreter.Expandable node ↔ ∃ readings, interpreter.ExpandsTo node readings := by
  unfold Expandable
  rw [interpreter.readLists_of_plain plain]
  constructor
  · rintro ⟨_, given⟩
    obtain ⟨readings, expands, -⟩ := Attempt.gives_map_iff.1 given
    exact ⟨readings, expands⟩
  · rintro ⟨readings, expands⟩
    exact ⟨[readings], Attempt.gives_map_iff.2 ⟨readings, expands, rfl⟩⟩

theorem expandable_of_list {parts : Node.ListParts} (listParts : node.listParts? = some parts) :
    interpreter.Expandable node ↔ ∀ element ∈ parts.elements, interpreter.Readable element := by
  have plain : node.isAmbiguous = false := by
    cases node with
    | ambiguity => cases listParts
    | _ => rfl
  rw [expandable_of_plain plain]
  simp only [expandsTo_iff, listParts]
  exact exists_forall₂_iff

theorem expandable_of_other (plain : node.isAmbiguous = false) (noList : node.listParts? = none) :
    interpreter.Expandable node ↔ interpreter.Readable node := by
  rw [expandable_of_plain plain]
  simp only [expandsTo_iff, noList]
  constructor
  · rintro ⟨_, reading, reads, _⟩
    exact ⟨reading, reads⟩
  · rintro ⟨reading, reads⟩
    exact ⟨_, reading, reads, rfl⟩

section Tagged

variable {tag : String}

theorem Readable.not_sealed (readable : interpreter.Readable node) (tagged : node.tag? = some tag) :
    (interpreter.attributes tag).sealed = false := by
  obtain ⟨_, reads⟩ := readable
  exact ((readsAs_of_tagged tagged).1 reads).1

theorem readable_of_bracket (tagged : node.tag? = some tag)
    (bracket : (interpreter.attributes tag).bracket = true) :
    interpreter.Readable node ↔ (interpreter.attributes tag).sealed = false ∧
      ∃ child, Node.inner node.children = [child] ∧ interpreter.Readable child := by
  have step (reading : Reading α) : interpreter.ReadsAs node reading ↔ _ :=
    readsAs_of_tagged tagged
  simp only [if_pos bracket] at step
  refine (exists_congr step).trans ⟨?_, ?_⟩
  · rintro ⟨reading, notSealed, child, inner, reads⟩
    exact ⟨notSealed, child, inner, reading, reads⟩
  · rintro ⟨notSealed, child, inner, reading, reads⟩
    exact ⟨reading, notSealed, child, inner, reads⟩

theorem readable_of_tagged (tagged : node.tag? = some tag)
    (notBracket : (interpreter.attributes tag).bracket = false) :
    interpreter.Readable node ↔ (interpreter.attributes tag).sealed = false ∧
      ∃ handler arguments a, interpreter.handlers[tag]? = some handler ∧
        Attempt.Gives (interpreter.handed tag node) arguments ∧
        handler node arguments = .ok a := by
  have step (reading : Reading α) : interpreter.ReadsAs node reading ↔ _ :=
    readsAs_of_tagged tagged
  simp only [notBracket, if_neg Bool.false_ne_true] at step
  refine (exists_congr step).trans ⟨?_, ?_⟩
  · rintro ⟨_, notSealed, handler, arguments, a, registered, handed, answered, _⟩
    exact ⟨notSealed, handler, arguments, a, registered, handed, answered⟩
  · rintro ⟨notSealed, handler, arguments, a, registered, handed, answered⟩
    exact ⟨_, notSealed, handler, arguments, a, registered, handed, answered, rfl⟩

theorem exists_argument_iff {child : Node} :
    (∃ argument, Attempt.Gives (interpreter.argument child) argument) ↔
      interpreter.Provides (takenFor child, child) := by
  unfold Interpreter.argument takenFor
  split <;> simp only [Attempt.gives_map_iff]
  · constructor
    · rintro ⟨_, lists, given, _⟩
      exact ⟨lists, given⟩
    · rintro ⟨lists, given⟩
      exact ⟨_, lists, given, rfl⟩
  · constructor
    · rintro ⟨_, reading, reads, _⟩
      exact ⟨reading, reads⟩
    · rintro ⟨reading, reads⟩
      exact ⟨_, reading, reads, rfl⟩

/-- The handler of a lexical reduction is handed nothing. -/
theorem exists_handed_of_lexical (lexical : (interpreter.attributes tag).lexical = true) :
    ∃ arguments, Attempt.Gives (interpreter.handed tag node) arguments := by
  unfold handed
  rw [if_pos lexical]
  exact ⟨[], rfl⟩

/-- The handler of a list can be handed its elements if all of them have readings. -/
theorem exists_handed_of_list (notLexical : (interpreter.attributes tag).lexical = false)
    {parts : Node.ListParts} (listParts : node.listParts? = some parts) :
    (∃ arguments, Attempt.Gives (interpreter.handed tag node) arguments) ↔
      ∀ element ∈ parts.elements, interpreter.Readable element := by
  unfold handed
  rw [notLexical, listParts, if_neg Bool.false_ne_true]
  refine Iff.trans ⟨?_, ?_⟩ exists_forall₂_iff
  · rintro ⟨_, given⟩
    obtain ⟨readings, each, -⟩ := Attempt.gives_map_iff.1 given
    exact ⟨readings, Attempt.gives_mapM_iff.1 each⟩
  · rintro ⟨readings, each⟩
    exact ⟨_, Attempt.gives_map_iff.2 ⟨readings, Attempt.gives_mapM_iff.2 each, rfl⟩⟩

/-- Any other handler can be handed its arguments if all children that are no leaves have what they
are taken for. -/
theorem exists_handed_of_other (notLexical : (interpreter.attributes tag).lexical = false)
    (noList : node.listParts? = none) :
    (∃ arguments, Attempt.Gives (interpreter.handed tag node) arguments) ↔
      ∀ child ∈ Node.inner node.children, interpreter.Provides (takenFor child, child) := by
  unfold handed
  rw [notLexical, noList, if_neg Bool.false_ne_true]
  simp only [Attempt.gives_mapM_iff, ← exists_argument_iff]
  exact exists_forall₂_iff

end Tagged

/-! ## What is looked at -/

/-- The nodes that are looked at in one step of reading, with how they are taken. -/
inductive LooksAt (interpreter : Interpreter α) : Taking × Node → Taking × Node → Prop
  /-- The derivations of an ambiguity that count. -/
  | derivation {taking : Taking} {node derivation : Node} (ambiguous : node.isAmbiguous = true)
    (counts : derivation ∈ interpreter.kept node) :
    LooksAt interpreter (taking, node) (taking, derivation)
  /-- The elements of a list that is taken for them. -/
  | expanded {node element : Node} {parts : Node.ListParts}
    (listParts : node.listParts? = some parts) (member : element ∈ parts.elements) :
    LooksAt interpreter (.expanded, node) (.read, element)
  /-- A derivation of a list that is no reduction of a list production is its own only element. -/
  | itself {node : Node} (plain : node.isAmbiguous = false) (noList : node.listParts? = none) :
    LooksAt interpreter (.expanded, node) (.read, node)
  /-- What is inside of a bracket. -/
  | bracketed {tag : String} {node child : Node} (tagged : node.tag? = some tag)
    (bracket : (interpreter.attributes tag).bracket = true)
    (inner : child ∈ Node.inner node.children) : LooksAt interpreter (.read, node) (.read, child)
  /-- The elements that a handler is handed. -/
  | element {tag : String} {node element : Node} {parts : Node.ListParts}
    (tagged : node.tag? = some tag) (notBracket : (interpreter.attributes tag).bracket = false)
    (notLexical : (interpreter.attributes tag).lexical = false)
    (listParts : node.listParts? = some parts) (member : element ∈ parts.elements) :
    LooksAt interpreter (.read, node) (.read, element)
  /-- The children that a handler is handed something of. -/
  | child {tag : String} {node child : Node} (tagged : node.tag? = some tag)
    (notBracket : (interpreter.attributes tag).bracket = false)
    (notLexical : (interpreter.attributes tag).lexical = false) (noList : node.listParts? = none)
    (inner : child ∈ Node.inner node.children) :
    LooksAt interpreter (.read, node) (takenFor child, child)

/-- The nodes that are looked at in any number of steps. -/
abbrev Visits (interpreter : Interpreter α) : Taking × Node → Taking × Node → Prop :=
  Relation.ReflTransGen interpreter.LooksAt

/-- A step that succeeds does so for all that it looks at. -/
theorem Provides.of_looksAt {here next : Taking × Node} (provides : interpreter.Provides here)
    (looks : interpreter.LooksAt here next) : interpreter.Provides next := by
  have handed {tag : String} {node : Node} (tagged : node.tag? = some tag)
      (notBracket : (interpreter.attributes tag).bracket = false)
      (readable : interpreter.Readable node) :
      ∃ arguments, Attempt.Gives (interpreter.handed tag node) arguments := by
    obtain ⟨-, _, arguments, _, _, given, _⟩ := (readable_of_tagged tagged notBracket).1 readable
    exact ⟨arguments, given⟩
  cases looks with
  | @derivation taking node derivation ambiguous counts =>
    cases taking with
    | read => exact ((readable_of_ambiguous ambiguous).1 provides).2 derivation counts
    | expanded => exact ((expandable_of_ambiguous ambiguous).1 provides).2 derivation counts
  | expanded listParts member => exact (expandable_of_list listParts).1 provides _ member
  | itself plain noList => exact (expandable_of_other plain noList).1 provides
  | bracketed tagged bracket inner =>
    obtain ⟨-, sole, inner_eq, readable⟩ := (readable_of_bracket tagged bracket).1 provides
    rw [inner_eq, List.mem_singleton] at inner
    exact inner ▸ readable
  | element tagged notBracket notLexical listParts member =>
    have given := handed tagged notBracket provides
    exact (exists_handed_of_list notLexical listParts).1 given _ member
  | child tagged notBracket notLexical noList inner =>
    have given := handed tagged notBracket provides
    exact (exists_handed_of_other notLexical noList).1 given _ inner

/-- Leaves have nothing that they could be taken for. -/
theorem Provides.isLeaf_eq {here : Taking × Node} (provides : interpreter.Provides here) :
    here.2.isLeaf = false := by
  rw [← Bool.not_eq_true]
  intro leaf
  obtain ⟨taking, node⟩ := here
  cases node with
  | branch | list | ambiguity => cases leaf
  | leaf =>
    cases taking with
    | read => exact not_readable_leaf leaf provides
    | expanded => exact not_readable_leaf leaf ((expandable_of_other rfl rfl).1 provides)

/-- Reading that succeeds does so for all that it looks at. -/
theorem Provides.of_visits {here there : Taking × Node} (provides : interpreter.Provides here)
    (visits : interpreter.Visits here there) : interpreter.Provides there := by
  induction visits with
  | refl => exact provides
  | tail _ looks ih => exact ih.of_looksAt looks

end Interpreter

end Scannerless
