import Mathlib.Data.List.Forall2
import Scannerless.Proofs.SoundNodes
import Scannerless.Reading.Interpreter

/-!
# What is read

Reading goes through the alternatives of an ambiguity, through the children of a reduction and
through the elements of a list. Each of these walks is one traversal (`List.mapM`) of the nodes that
count: those that are kept, those that are no leaves, and those that stand where an element is due.
So what an attempt gives over a sequence of nodes is what it gives for each of them, in order
(`Attempt.gives_mapM_iff`).

That says all that there is to reading: what an ambiguity is read as
(`Interpreter.readsAs_of_ambiguous`), what a reduction is read as (`Interpreter.readsAs_of_tagged`),
with the arguments that are handed to its handler, and which argument a child gives
(`Interpreter.argumentFor_of_gives`).
-/

namespace Scannerless

/-- What stands in one of two related sequences is related to something in the other. -/
theorem exists_of_mem_right {β γ : Type} {related : β → γ → Prop} {inputs : List β}
    {results : List γ} (each : List.Forall₂ related inputs results) {result : γ}
    (member : result ∈ results) : ∃ input ∈ inputs, related input result := by
  induction each with
  | nil => cases member
  | cons here _ ih =>
    rcases List.mem_cons.1 member with rfl | later
    · exact ⟨_, List.mem_cons_self, here⟩
    · obtain ⟨input, isInput, given⟩ := ih later
      exact ⟨input, List.mem_cons_of_mem _ isInput, given⟩

theorem exists_of_getElem?_right {β γ : Type} {related : β → γ → Prop} {inputs : List β}
    {results : List γ} (each : List.Forall₂ related inputs results) {index : Nat} {result : γ}
    (at_ : results[index]? = some result) :
    ∃ input, inputs[index]? = some input ∧ related input result := by
  obtain ⟨bound, rfl⟩ := List.getElem?_eq_some_iff.1 at_
  have within := each.length_eq ▸ bound
  exact ⟨inputs[index], List.getElem?_eq_getElem within, each.get within bound⟩

/-! ## Attempts -/

namespace Attempt

variable {α β γ : Type}

/-- Whether the attempt ends with the value. -/
def Gives (attempt : Attempt α) (a : α) : Prop :=
  attempt.run.value = .ok a

theorem Gives.unique {attempt : Attempt α} {a b : α} (first : Gives attempt a)
    (second : Gives attempt b) : a = b :=
  Except.ok.inj (first.symm.trans second)

theorem not_gives_throw {error : ReadingError} {a : α} : ¬ Gives (throw error : Attempt α) a := by
  rintro ⟨⟩

theorem gives_pure_iff {a b : α} : Gives (pure a) b ↔ a = b := by
  constructor
  · rintro ⟨⟩
    rfl
  · rintro rfl
    rfl

/-- After a step that gives a value, the outcome is that of the next step. -/
theorem value_bind {attempt : Attempt α} {next : α → Attempt β} {a : α} (given : Gives attempt a) :
    (attempt >>= next).run.value = (next a).run.value := by
  have value_eq : (attempt >>= next).run.value =
    (ExceptT.bindCont next attempt.run.value).value := rfl
  have outcome : attempt.run.value = .ok a := given
  rw [value_eq, outcome]
  rfl

theorem gives_bind_iff {attempt : Attempt α} {next : α → Attempt β} {b : β} :
    Gives (attempt >>= next) b ↔ ∃ a, Gives attempt a ∧ Gives (next a) b := by
  constructor
  · intro given
    have value_eq : (ExceptT.bindCont next attempt.run.value).value = .ok b := given
    cases outcome : attempt.run.value with
    | ok a => exact ⟨a, outcome, (value_bind outcome).symm.trans given⟩
    | error error =>
      rw [outcome] at value_eq
      cases value_eq
  · rintro ⟨a, first, second⟩
    exact (value_bind first).trans second

theorem gives_map_iff {attempt : Attempt α} {f : α → β} {b : β} :
    Gives (f <$> attempt) b ↔ ∃ a, Gives attempt a ∧ f a = b := by
  rw [← bind_pure_comp, gives_bind_iff]
  exact exists_congr fun a => and_congr_right fun _ => gives_pure_iff

/-- A traversal gives what each of its steps gives, in order. -/
theorem gives_mapM_iff {f : β → Attempt α} {inputs : List β} {results : List α} :
    Gives (inputs.mapM f) results ↔
      List.Forall₂ (fun input a => Gives (f input) a) inputs results := by
  induction inputs generalizing results with
  | nil =>
    rw [List.mapM_nil, gives_pure_iff, List.forall₂_nil_left_iff]
    exact eq_comm
  | cons input rest ih =>
    rw [List.mapM_cons, gives_bind_iff, List.forall₂_cons_left_iff]
    simp only [gives_bind_iff, gives_pure_iff, ih]
    constructor
    · rintro ⟨a, given, others, each, rfl⟩
      exact ⟨a, others, given, each, rfl⟩
    · rintro ⟨a, others, given, each, rfl⟩
      exact ⟨a, given, others, each, rfl⟩

/-- The second step only matters for what the first step gives. -/
theorem bind_congr {attempt : Attempt α} {next other : α → Attempt β}
    (same : ∀ a, Gives attempt a → next a = other a) : attempt >>= next = attempt >>= other := by
  have conts : ExceptT.bindCont next attempt.run.value =
      ExceptT.bindCont other attempt.run.value := by
    cases outcome : attempt.run.value with
    | ok a => exact same a outcome
    | error error => rfl
  have bind_eq (next : α → Attempt β) : attempt >>= next =
    ExceptT.mk ⟨(ExceptT.bindCont next attempt.run.value).value,
      attempt.run.events ++ (ExceptT.bindCont next attempt.run.value).events⟩ := rfl
  rw [bind_eq, bind_eq, conts]

/-- Traversals with the same steps are the same. -/
theorem mapM_congr {f : β → Attempt α} {g : γ → Attempt α} {inputs : List β} {others : List γ}
    (same : List.Forall₂ (fun input other => f input = g other) inputs others) :
    inputs.mapM f = others.mapM g := by
  induction same with
  | nil => rfl
  | cons here _ ih => rw [List.mapM_cons, List.mapM_cons, here, ih]

end Attempt

/-! ## Nodes that count -/

namespace Node

/-- The nodes that are no leaves. -/
def inner (nodes : List Node) : List Node :=
  nodes.filter fun node => !node.isLeaf

theorem mem_inner_iff {nodes : List Node} {node : Node} :
    node ∈ inner nodes ↔ node ∈ nodes ∧ node.isLeaf = false := by
  unfold inner
  rw [List.mem_filter, Bool.not_eq_true']

theorem isLeaf_of_tagged {node : Node} {tag : String} (tagged : node.tag? = some tag) :
    node.isLeaf = false := by
  cases node with
  | leaf => cases tagged
  | _ => rfl

theorem plain_of_tagged {node : Node} {tag : String} (tagged : node.tag? = some tag) :
    node.isAmbiguous = false := by
  cases node with
  | ambiguity => cases tagged
  | _ => rfl

theorem mem_parts_of_mem_children {node child : Node} (member : child ∈ node.children) :
    child ∈ node.parts := by
  cases node with
  | leaf | ambiguity => cases member
  | branch | list => exact member

/-- A node is a leaf, a reduction or an ambiguity. -/
theorem exists_tag {node : Node} (inner : node.isLeaf = false) (plain : node.isAmbiguous = false) :
    ∃ tag, node.tag? = some tag := by
  cases node with
  | leaf => cases inner
  | branch | list => exact ⟨_, rfl⟩
  | ambiguity => cases plain

/-- Whether the node, if it is an ambiguity, has several alternatives, and no ambiguity among
them. -/
def Forked (node : Node) : Prop :=
  node.isAmbiguous = true → 2 ≤ node.parts.length ∧ ∀ part ∈ node.parts, part.isAmbiguous = false

theorem Sound.forked {g : Grammar} {input : Input} {node : Node} (sound : node.Sound g input) :
    node.Forked := by
  intro ambiguous
  cases sound with
  | leaf | branch | list => cases ambiguous
  | ambiguity several _ plain _ => exact ⟨several, plain⟩

end Node

namespace Interpreter

variable {α : Type} (interpreter : Interpreter α)

variable {interpreter} in
/-- The attributes of a tag are those of the production that it labels. -/
theorem attributes_of_label {tag : String} {p : ProdId} {entry : WiredProduction}
    (labels : interpreter.grammar.withLabel? tag = some p)
    (found : interpreter.grammar.prod? p = some entry) :
    interpreter.attributes tag = entry.production.attributes := by
  unfold attributes
  rw [labels, Option.bind_some, found]

/-! ## Walks as traversals -/

theorem readKept_eq (nodes : List Node) :
    interpreter.readKept nodes = (nodes.filter interpreter.keeps).mapM interpreter.read := by
  induction nodes with
  | nil => rfl
  | cons node rest ih =>
    rw [readKept, List.filter_cons, ih]
    split
    · rw [List.mapM_cons]
    · rfl

theorem readInner_eq (nodes : List Node) :
    interpreter.readInner nodes = (Node.inner nodes).mapM interpreter.read := by
  induction nodes with
  | nil => rfl
  | cons node rest ih =>
    rw [readInner, Node.inner, List.filter_cons, ih]
    cases node.isLeaf with
    | true => rfl
    | false => exact List.mapM_cons.symm

theorem readElements_eq (arity skip : Nat) (nodes : List Node) :
    interpreter.readElements arity skip nodes =
      (Node.everyAfter arity skip nodes).mapM interpreter.read := by
  induction nodes generalizing skip with
  | nil =>
    rw [readElements, Node.everyAfter]
    rfl
  | cons node rest ih =>
    cases skip with
    | zero => rw [readElements, Node.everyAfter, List.mapM_cons, ih]
    | succ skip => rw [readElements, Node.everyAfter, ih]

/-- The argument that a child gives. -/
def argument (child : Node) : Attempt (Argument α) :=
  if child.symbol.isList then Argument.ofLists <$> interpreter.readLists child
  else .single <$> interpreter.read child

theorem arguments_eq (nodes : List Node) :
    interpreter.arguments nodes = (Node.inner nodes).mapM interpreter.argument := by
  induction nodes with
  | nil => rfl
  | cons node rest ih =>
    rw [arguments, ih]
    cases leaf : node.isLeaf with
    | true =>
      rw [Node.inner, Node.inner, List.filter_cons, leaf]
      rfl
    | false =>
      have inner_eq : Node.inner (node :: rest) = node :: Node.inner rest := by
        rw [Node.inner, List.filter_cons, leaf]
        rfl
      rw [inner_eq, List.mapM_cons, argument]
      cases node.symbol.isList with
      | true => simp
      | false => simp

theorem readKeptLists_eq (nodes : List Node) :
    interpreter.readKeptLists nodes =
      List.flatten <$> (nodes.filter interpreter.keeps).mapM interpreter.readLists := by
  induction nodes with
  | nil => rfl
  | cons node rest ih =>
    rw [readKeptLists, List.filter_cons, ih]
    split
    · simp
    · rfl

/-! ## Lists and their derivations -/

/-- The readings of the elements of a derivation of a list. One that is no reduction of a list
production is its own only element. -/
def expansion (derivation : Node) : Attempt (List (Reading α)) :=
  match derivation.listParts? with
  | some parts => parts.elements.mapM interpreter.read
  | none => (fun reading => [reading]) <$> interpreter.read derivation

theorem readLists_of_plain {node : Node} (plain : node.isAmbiguous = false) :
    interpreter.readLists node = (fun readings => [readings]) <$> interpreter.expansion node := by
  cases node with
  | leaf => rfl
  | branch =>
    rw [readLists, expansion, read]
    simp [Node.listParts?]
  | list id tag symbol span arity children =>
    rw [readLists, expansion, Node.listParts?, readElements_eq]
    simp
    rfl
  | ambiguity => cases plain

theorem readKeptLists_of_plain {nodes : List Node}
    (plain : ∀ node ∈ nodes, node.isAmbiguous = false) :
    interpreter.readKeptLists nodes =
      (nodes.filter interpreter.keeps).mapM interpreter.expansion := by
  induction nodes with
  | nil => rfl
  | cons node rest ih =>
    have others := ih fun other member => plain other (List.mem_cons_of_mem _ member)
    rw [readKeptLists, List.filter_cons, others,
      interpreter.readLists_of_plain (plain node List.mem_cons_self)]
    split
    · simp
    · rfl

/-! ## Reductions -/

/-- The arguments that the handler of a reduction is called with. -/
def handed (tag : String) (node : Node) : Attempt (List (Argument α)) :=
  if (interpreter.attributes tag).lexical then pure []
  else
    match node.listParts? with
    | some parts => (fun readings => [.elements readings]) <$> parts.elements.mapM interpreter.read
    | none => (Node.inner node.children).mapM interpreter.argument

/-- The reading of a reduction. -/
def readTagged (tag : String) (node : Node) : Attempt (Reading α) :=
  if (interpreter.attributes tag).sealed then throw (.unreadable tag node.span .sealed)
  else if (interpreter.attributes tag).bracket then
    if (Node.inner node.children).length = 1 then
      Reading.ofAlternatives <$> (Node.inner node.children).mapM interpreter.read
    else throw (.unreadable tag node.span .bracket)
  else
    match interpreter.handlers[tag]? with
    | none => throw (.unreadable tag node.span .noHandler)
    | some handler => interpreter.handed tag node >>= fun arguments =>
        ExceptT.mk (pure (called handler tag node arguments))

theorem reduction_eq (tag : String) (node : Node) {arguments : Attempt (List (Argument α))}
    (passed : interpreter.handed tag node =
      if (interpreter.attributes tag).lexical then pure [] else arguments) :
    interpreter.reduction tag node (fun _ => interpreter.readInner node.children)
      (fun _ => arguments) = interpreter.readTagged tag node := by
  unfold reduction readTagged
  rw [readInner_eq, passed, List.countP_eq_length_filter]
  dsimp only
  cases (interpreter.attributes tag).lexical <;> rfl

theorem read_of_tagged {tag : String} {node : Node} (tagged : node.tag? = some tag) :
    interpreter.read node = interpreter.readTagged tag node := by
  cases node with
  | leaf => cases tagged
  | ambiguity => cases tagged
  | branch =>
    cases tagged
    rw [read, arguments_eq]
    exact interpreter.reduction_eq _ _ rfl
  | list =>
    cases tagged
    rw [read, readElements_eq, bind_pure_comp]
    exact interpreter.reduction_eq _ _ rfl

/-! ## What nodes are read as -/

/-- Whether the node is read as the reading. -/
def ReadsAs (node : Node) (reading : Reading α) : Prop :=
  Attempt.Gives (interpreter.read node) reading

/-- Whether the derivation of a list has these readings of its elements. -/
def ExpandsTo (derivation : Node) (readings : List (Reading α)) : Prop :=
  Attempt.Gives (interpreter.expansion derivation) readings

/-- The derivations that count: the alternatives of an ambiguity that are kept, and any other node
itself. -/
def kept : Node → List Node
  | .ambiguity _ _ _ alternatives => alternatives.filter interpreter.keeps
  | node => [node]

/-- Whether there may be so many derivations that count. -/
def Admits (count : Nat) : Prop :=
  count ≠ 0 ∧ (1 < count → interpreter.refusesAmbiguity = false)

variable {interpreter}

theorem admits_one : interpreter.Admits 1 :=
  ⟨Nat.one_ne_zero, fun several => absurd several (Nat.lt_irrefl 1)⟩

theorem kept_of_plain {node : Node} (plain : node.isAmbiguous = false) :
    interpreter.kept node = [node] := by
  cases node with
  | ambiguity => cases plain
  | _ => rfl

theorem mem_parts_of_kept {node derivation : Node} (ambiguous : node.isAmbiguous = true)
    (counts : derivation ∈ interpreter.kept node) : derivation ∈ node.parts := by
  cases node with
  | leaf | branch | list => cases ambiguous
  | ambiguity => exact List.mem_of_mem_filter counts

theorem countKept_eq_ok_iff {symbol : Symbol} {span : Span} {alternatives : List Node}
    {count : Nat} : interpreter.countKept symbol span alternatives = .ok count ↔
      (alternatives.filter interpreter.keeps).length = count ∧ interpreter.Admits count := by
  unfold countKept Admits
  rw [List.countP_eq_length_filter]
  dsimp only
  constructor
  · intro counted
    split at counted
    · cases counted
    · next some_ =>
      split at counted
      · cases counted
      · next admitted =>
        cases counted
        exact ⟨rfl, some_, fun several => by simpa [several] using admitted⟩
  · rintro ⟨rfl, some_, admitted⟩
    rw [if_neg some_, if_neg]
    rintro ⟨several, refuses⟩
    rw [admitted several] at refuses
    cases refuses

theorem gives_countKept_iff {symbol : Symbol} {span : Span} {alternatives : List Node}
    {count : Nat} :
    Attempt.Gives (ExceptT.mk (pure (interpreter.countKept symbol span alternatives))) count ↔
      (alternatives.filter interpreter.keeps).length = count ∧ interpreter.Admits count :=
  countKept_eq_ok_iff

theorem gives_called_iff {handler : Handler α} {tag : String} {node : Node}
    {arguments : List (Argument α)} {reading : Reading α} :
    Attempt.Gives (ExceptT.mk (pure (called handler tag node arguments))) reading ↔
      ∃ a, handler node arguments = .ok a ∧ reading = .value a := by
  unfold called Attempt.Gives
  cases handler node arguments with
  | ok a =>
    constructor
    · rintro ⟨⟩
      exact ⟨a, rfl, rfl⟩
    · rintro ⟨_, ⟨⟩, rfl⟩
      rfl
  | error cause =>
    constructor
    · rintro ⟨⟩
    · rintro ⟨_, ⟨⟩, _⟩

theorem not_readsAs_leaf {node : Node} (leaf : node.isLeaf = true) {reading : Reading α} :
    ¬ interpreter.ReadsAs node reading := by
  cases node with
  | leaf =>
    unfold ReadsAs
    rw [read]
    exact Attempt.not_gives_throw
  | _ => cases leaf

/-- An ambiguity is read as what its derivations that count are read as. -/
theorem readsAs_of_ambiguous {node : Node} (ambiguous : node.isAmbiguous = true)
    {reading : Reading α} :
    interpreter.ReadsAs node reading ↔ interpreter.Admits (interpreter.kept node).length ∧
      ∃ readings, List.Forall₂ interpreter.ReadsAs (interpreter.kept node) readings ∧
        Reading.ofAlternatives readings = reading := by
  cases node with
  | leaf | branch | list => cases ambiguous
  | ambiguity id symbol span alternatives =>
    have reported {count : Nat} {u : Unit} :
        Attempt.Gives (reportKept count symbol span) u ↔ True := by
      unfold reportKept
      split <;> exact iff_of_true rfl trivial
    unfold ReadsAs
    rw [read, readKept_eq]
    simp only [Attempt.gives_bind_iff, gives_countKept_iff, reported, Attempt.gives_pure_iff,
      Attempt.gives_mapM_iff, true_and, exists_const]
    constructor
    · rintro ⟨count, ⟨rfl, admits⟩, readings, each, same⟩
      exact ⟨admits, readings, each, same⟩
    · rintro ⟨admits, readings, each, same⟩
      exact ⟨_, ⟨rfl, admits⟩, readings, each, same⟩

/-- A reduction is read unless it is sealed: a bracket as its only child that is no leaf, and any
other reduction as the value that its handler makes. -/
theorem readsAs_of_tagged {tag : String} {node : Node} (tagged : node.tag? = some tag)
    {reading : Reading α} :
    interpreter.ReadsAs node reading ↔ (interpreter.attributes tag).sealed = false ∧
      if (interpreter.attributes tag).bracket then
        ∃ child, Node.inner node.children = [child] ∧ interpreter.ReadsAs child reading
      else
        ∃ handler arguments a, interpreter.handlers[tag]? = some handler ∧
          Attempt.Gives (interpreter.handed tag node) arguments ∧
          handler node arguments = .ok a ∧ reading = .value a := by
  unfold ReadsAs
  rw [interpreter.read_of_tagged tagged, readTagged]
  cases (interpreter.attributes tag).sealed with
  | true => exact iff_of_false Attempt.not_gives_throw fun given => Bool.noConfusion given.1
  | false =>
    rw [if_neg Bool.false_ne_true, and_iff_right rfl]
    cases (interpreter.attributes tag).bracket with
    | true =>
      rw [if_pos rfl, if_pos rfl]
      constructor
      · intro given
        split at given
        · next single =>
          obtain ⟨child, inner_eq⟩ := List.length_eq_one_iff.1 single
          rw [inner_eq, Attempt.gives_map_iff] at given
          obtain ⟨readings, each, rfl⟩ := given
          obtain ⟨reading, _, here, rest, rfl⟩ :=
            List.forall₂_cons_left_iff.1 (Attempt.gives_mapM_iff.1 each)
          obtain rfl := List.forall₂_nil_left_iff.1 rest
          exact ⟨child, inner_eq, here⟩
        · exact absurd given Attempt.not_gives_throw
      · rintro ⟨child, inner_eq, here⟩
        rw [inner_eq, if_pos (List.length_singleton), Attempt.gives_map_iff]
        exact ⟨[reading], Attempt.gives_mapM_iff.2 (.cons here .nil), rfl⟩
    | false =>
      rw [if_neg Bool.false_ne_true, if_neg Bool.false_ne_true]
      cases interpreter.handlers[tag]? with
      | none =>
        refine iff_of_false Attempt.not_gives_throw ?_
        rintro ⟨_, _, _, ⟨⟩, _⟩
      | some handler =>
        simp only [Attempt.gives_bind_iff, gives_called_iff, Option.some.injEq]
        constructor
        · rintro ⟨arguments, given, a, answered, eq⟩
          exact ⟨handler, arguments, a, rfl, given, answered, eq⟩
        · rintro ⟨_, arguments, a, rfl, given, answered, eq⟩
          exact ⟨arguments, given, a, answered, eq⟩

/-! ## What arguments are made from -/

/-- The arguments of a reduction: none if it is lexical, the elements of a reduction of a list
production, and otherwise what the children that are no leaves give. -/
theorem gives_handed_iff {tag : String} {node : Node} {arguments : List (Argument α)} :
    Attempt.Gives (interpreter.handed tag node) arguments ↔
      if (interpreter.attributes tag).lexical then arguments = []
      else
        match node.listParts? with
        | some parts => ∃ readings, List.Forall₂ interpreter.ReadsAs parts.elements readings ∧
            arguments = [.elements readings]
        | none => List.Forall₂ (fun child => Attempt.Gives (interpreter.argument child))
            (Node.inner node.children) arguments := by
  unfold handed
  split
  · rw [Attempt.gives_pure_iff]
    exact eq_comm
  · split
    · simp only [Attempt.gives_map_iff, Attempt.gives_mapM_iff, eq_comm (a := arguments)]
      rfl
    · exact Attempt.gives_mapM_iff

theorem expandsTo_iff {derivation : Node} {readings : List (Reading α)} :
    interpreter.ExpandsTo derivation readings ↔
      match derivation.listParts? with
      | some parts => List.Forall₂ interpreter.ReadsAs parts.elements readings
      | none => ∃ reading, interpreter.ReadsAs derivation reading ∧ readings = [reading] := by
  unfold ExpandsTo expansion
  split
  · exact Attempt.gives_mapM_iff
  · simp only [Attempt.gives_map_iff, eq_comm (a := readings)]
    rfl

/-- A list has the readings of the elements of each derivation that counts. -/
theorem gives_readLists_iff {node : Node} (forked : node.Forked)
    {lists : List (List (Reading α))} :
    Attempt.Gives (interpreter.readLists node) lists ↔
      interpreter.Admits (interpreter.kept node).length ∧
        List.Forall₂ interpreter.ExpandsTo (interpreter.kept node) lists := by
  cases ambiguous : node.isAmbiguous with
  | false =>
    rw [interpreter.readLists_of_plain ambiguous, kept_of_plain ambiguous, Attempt.gives_map_iff,
      List.length_singleton, and_iff_right admits_one]
    simp only [List.forall₂_cons_left_iff, List.forall₂_nil_left_iff]
    constructor
    · rintro ⟨readings, given, rfl⟩
      exact ⟨readings, [], given, rfl, rfl⟩
    · rintro ⟨readings, _, given, rfl, rfl⟩
      exact ⟨readings, given, rfl⟩
  | true =>
    cases node with
    | leaf | branch | list => cases ambiguous
    | ambiguity id symbol span alternatives =>
      have plain : ∀ node ∈ alternatives, node.isAmbiguous = false := (forked ambiguous).2
      rw [readLists, interpreter.readKeptLists_of_plain plain]
      simp only [Attempt.gives_bind_iff, gives_countKept_iff, Attempt.gives_mapM_iff]
      constructor
      · rintro ⟨count, ⟨rfl, admits⟩, each⟩
        exact ⟨admits, each⟩
      · rintro ⟨admits, each⟩
        exact ⟨_, ⟨rfl, admits⟩, each⟩

/-- Which argument a child gives: the reading of a nonterminal, and the elements of a list, for each
derivation if there are several that count. -/
inductive ArgumentFor (interpreter : Interpreter α) (child : Node) : Argument α → Prop
  | single {reading : Reading α} (notList : child.symbol.isList = false)
    (reads : interpreter.ReadsAs child reading) : ArgumentFor interpreter child (.single reading)
  | elements {derivation : Node} {readings : List (Reading α)} (isList : child.symbol.isList = true)
    (sole : interpreter.kept child = [derivation])
    (expands : interpreter.ExpandsTo derivation readings) :
    ArgumentFor interpreter child (.elements readings)
  | severalLists {lists : List (List (Reading α))} (isList : child.symbol.isList = true)
    (several : 2 ≤ lists.length) (tolerated : interpreter.refusesAmbiguity = false)
    (each : List.Forall₂ interpreter.ExpandsTo (interpreter.kept child) lists) :
    ArgumentFor interpreter child (.severalLists lists)

theorem argumentFor_of_gives {child : Node} (forked : child.Forked) {argument : Argument α}
    (given : Attempt.Gives (interpreter.argument child) argument) :
    interpreter.ArgumentFor child argument := by
  unfold Interpreter.argument at given
  split at given
  · next isList =>
    obtain ⟨lists, read, rfl⟩ := Attempt.gives_map_iff.1 given
    obtain ⟨⟨some_, tolerated⟩, each⟩ := (gives_readLists_iff forked).1 read
    rw [each.length_eq] at some_ tolerated
    match lists, each with
    | [], _ => exact absurd rfl some_
    | [readings], each =>
      obtain ⟨derivation, _, expands, rest, kept_eq⟩ := List.forall₂_cons_right_iff.1 each
      obtain rfl := List.forall₂_nil_right_iff.1 rest
      exact .elements isList kept_eq expands
    | first :: second :: rest, each =>
      exact .severalLists isList (Nat.le_add_left 2 rest.length)
        (tolerated (Nat.lt_of_lt_of_le Nat.one_lt_two (Nat.le_add_left 2 rest.length))) each
  · next notList =>
    obtain ⟨reading, reads, rfl⟩ := Attempt.gives_map_iff.1 given
    exact .single (Bool.eq_false_iff.2 notList) reads

end Interpreter

end Scannerless
