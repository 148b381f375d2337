import Scannerless.Proofs.Script

/-!
# The calls of a script

A declaration may come down to several others: a node for a list symbol to nodes for its parts, a
production to nodes for its right-hand side, a rule to its productions. `GrammarDraft.spelledOut`
spells a script out into elementary declarations, and `GrammarDraft.run_spelledOut` says that the
spelled-out script describes the same draft.

A call is an elementary declaration with the draft that it is made on. What is wrong with a call,
and what goes unnoticed until the productions are assembled, can be told from the call alone:
`ScriptCall.objection?` and `ScriptCall.flaw?`. What a call does to the draft is said once, by
`GrammarDraft.Effect`. From it, the defect of a draft is the first objection to a call
(`GrammarDraft.defect_run`), and the first flaw of its productions is the first flaw of a call
(`GrammarDraft.firstFlaw_run`).
-/

namespace Scannerless

/-! ## Spelling out -/

/-- Whether the declaration comes down to no others. -/
def Declaration.isElementary : Declaration → Bool
  | .node _ => false
  | .production _ => false
  | .rule _ _ => false
  | _ => true

namespace GrammarDraft

mutual

/-- What making a node for a symbol comes down to. -/
def nodeSteps (draft : GrammarDraft) : Symbol → List Declaration
  | .list element separators repetition =>
    let (elementNode, afterElement) := draft.nodeFor element
    let (separatorNodes, afterParts) := afterElement.nodesFor separators
    draft.nodeSteps element ++ afterElement.nodesSteps separators ++
      [.fresh, .separatedList afterParts.freshId.1 elementNode separatorNodes repetition]
  | .literal text => [.fresh, .literal draft.freshId.1 text]
  | .charClass cls => [.fresh, .charClass draft.freshId.1 cls.ranges]
  | .nonTerminal name => [.fresh, .nonTerminal draft.freshId.1 name]

/-- What making nodes for symbols comes down to. -/
def nodesSteps (draft : GrammarDraft) : List Symbol → List Declaration
  | [] => []
  | symbol :: rest => draft.nodeSteps symbol ++ (draft.nodeFor symbol).2.nodesSteps rest

end

/-- What a production with nodes of its own comes down to. -/
def productionSteps (draft : GrammarDraft) (production : Production) : List Declaration :=
  draft.nodesSteps production.rhs ++ [.wired production (draft.nodesFor production.rhs).1]

/-- What productions with nodes of their own come down to. -/
def productionsSteps (draft : GrammarDraft) : List Production → List Declaration
  | [] => []
  | production :: rest =>
    draft.productionSteps production ++ (draft.addProduction production).productionsSteps rest

/-- The elementary declarations that a declaration comes down to. -/
def steps (draft : GrammarDraft) : Declaration → List Declaration
  | .node symbol => draft.nodeSteps symbol
  | .production production => draft.productionSteps production
  | .rule head bodies => draft.productionsSteps (bodies.map (RuleBody.production head))
  | declaration => [declaration]

/-- The elementary declarations that a script comes down to. -/
def spelledOut (draft : GrammarDraft) : List Declaration → List Declaration
  | [] => []
  | declaration :: rest =>
    draft.steps declaration ++ (draft.declare declaration).2.spelledOut rest

variable (draft : GrammarDraft)

theorem run_cons (declaration : Declaration) (rest : List Declaration) :
    draft.run (declaration :: rest) = (draft.declare declaration).2.run rest :=
  rfl

theorem run_append (script more : List Declaration) :
    draft.run (script ++ more) = (draft.run script).run more :=
  List.foldl_append

mutual

theorem run_nodeSteps (draft : GrammarDraft) :
    ∀ symbol : Symbol, draft.run (draft.nodeSteps symbol) = (draft.nodeFor symbol).2
  | .list element separators repetition => by
    rw [nodeSteps, run_append, run_append, run_nodeSteps draft element,
      run_nodesSteps _ separators, nodeFor]
    rfl
  | .literal text => by
    rw [nodeSteps, nodeFor]
    rfl
  | .charClass cls => by
    rw [nodeSteps, nodeFor, run_cons, run_cons]
    dsimp only [declare]
    rw [CharClass.ofRanges_ranges]
    rfl
  | .nonTerminal name => by
    rw [nodeSteps, nodeFor]
    rfl

theorem run_nodesSteps (draft : GrammarDraft) :
    ∀ symbols : List Symbol, draft.run (draft.nodesSteps symbols) = (draft.nodesFor symbols).2
  | [] => by
    rw [nodesSteps, nodesFor]
    rfl
  | symbol :: rest => by
    rw [nodesSteps, run_append, run_nodeSteps draft symbol, run_nodesSteps _ rest, nodesFor]

end

theorem run_productionSteps (production : Production) :
    draft.run (draft.productionSteps production) = draft.addProduction production := by
  rw [productionSteps, run_append, run_nodesSteps]
  rfl

theorem run_productionsSteps (productions : List Production) :
    draft.run (draft.productionsSteps productions) = productions.foldl addProduction draft := by
  induction productions generalizing draft with
  | nil => rfl
  | cons production rest ih =>
    rw [productionsSteps, run_append, run_productionSteps, ih, List.foldl_cons]

theorem run_steps (declaration : Declaration) :
    draft.run (draft.steps declaration) = (draft.declare declaration).2 := by
  cases declaration with
  | node symbol => exact draft.run_nodeSteps symbol
  | production production => exact draft.run_productionSteps production
  | rule head bodies => exact draft.run_productionsSteps _
  | _ => rfl

/-- A script describes what its elementary declarations describe. -/
theorem run_spelledOut (script : List Declaration) :
    draft.run (draft.spelledOut script) = draft.run script := by
  induction script generalizing draft with
  | nil => rfl
  | cons declaration rest ih => rw [spelledOut, run_append, run_steps, ih, run_cons]

theorem spelledOut_append (script more : List Declaration) :
    draft.spelledOut (script ++ more) =
      draft.spelledOut script ++ (draft.run script).spelledOut more := by
  induction script generalizing draft with
  | nil => rfl
  | cons declaration rest ih =>
    rw [List.cons_append, spelledOut, spelledOut, ih, List.append_assoc, run_cons]

mutual

theorem elementary_nodeSteps (draft : GrammarDraft) :
    ∀ symbol : Symbol, ∀ step ∈ draft.nodeSteps symbol, step.isElementary = true
  | .list element separators repetition => by
    rw [nodeSteps]
    dsimp only
    intro step member
    rcases List.mem_append.1 member with parts | last
    · rcases List.mem_append.1 parts with inElement | inSeparators
      · exact elementary_nodeSteps draft element step inElement
      · exact elementary_nodesSteps _ separators step inSeparators
    · simp only [List.mem_cons, List.not_mem_nil, or_false] at last
      rcases last with rfl | rfl
      · rfl
      · rfl
  | .literal text => by simp [nodeSteps, Declaration.isElementary]
  | .charClass cls => by simp [nodeSteps, Declaration.isElementary]
  | .nonTerminal name => by simp [nodeSteps, Declaration.isElementary]

theorem elementary_nodesSteps (draft : GrammarDraft) :
    ∀ symbols : List Symbol, ∀ step ∈ draft.nodesSteps symbols, step.isElementary = true
  | [] => by simp [nodesSteps]
  | symbol :: rest => by
    rw [nodesSteps]
    intro step member
    rcases List.mem_append.1 member with inFirst | inRest
    · exact elementary_nodeSteps draft symbol step inFirst
    · exact elementary_nodesSteps _ rest step inRest

end

theorem elementary_productionSteps (production : Production) :
    ∀ step ∈ draft.productionSteps production, step.isElementary = true := by
  intro step member
  rcases List.mem_append.1 member with inNodes | last
  · exact elementary_nodesSteps draft _ step inNodes
  · rw [List.mem_singleton.1 last]
    rfl

theorem elementary_productionsSteps (productions : List Production) :
    ∀ step ∈ draft.productionsSteps productions, step.isElementary = true := by
  induction productions generalizing draft with
  | nil =>
    intro step member
    cases member
  | cons production rest ih =>
    intro step member
    rcases List.mem_append.1 member with inFirst | inRest
    · exact draft.elementary_productionSteps production step inFirst
    · exact ih _ step inRest

theorem elementary_steps (declaration : Declaration) :
    ∀ step ∈ draft.steps declaration, step.isElementary = true := by
  cases declaration with
  | node symbol => exact elementary_nodeSteps draft symbol
  | production production => exact draft.elementary_productionSteps production
  | rule head bodies => exact draft.elementary_productionsSteps _
  | _ => simp [steps, Declaration.isElementary]

theorem elementary_spelledOut (script : List Declaration) :
    ∀ step ∈ draft.spelledOut script, step.isElementary = true := by
  induction script generalizing draft with
  | nil => simp [spelledOut]
  | cons declaration rest ih =>
    intro step member
    rcases List.mem_append.1 member with inFirst | inRest
    · exact draft.elementary_steps declaration step inFirst
    · exact ih _ step inRest

end GrammarDraft

/-! ## Calls -/

/-- An elementary declaration, with the draft that it is made on. -/
structure ScriptCall where
  draft : GrammarDraft
  declaration : Declaration

namespace GrammarDraft

/-- Declarations made one after another, each with the draft that it is made on. -/
def history (draft : GrammarDraft) : List Declaration → List ScriptCall
  | [] => []
  | declaration :: rest => ⟨draft, declaration⟩ :: (draft.declare declaration).2.history rest

/-- The calls of a script. -/
def calls (draft : GrammarDraft) (script : List Declaration) : List ScriptCall :=
  draft.history (draft.spelledOut script)

variable (draft : GrammarDraft)

theorem history_append (script more : List Declaration) :
    draft.history (script ++ more) = draft.history script ++ (draft.run script).history more := by
  induction script generalizing draft with
  | nil => rfl
  | cons declaration rest ih =>
    rw [List.cons_append, history, history, ih, List.cons_append, run_cons]

theorem map_declaration_history (steps : List Declaration) :
    (draft.history steps).map ScriptCall.declaration = steps := by
  induction steps generalizing draft with
  | nil => rfl
  | cons step rest ih => rw [history, List.map_cons, ih]

theorem calls_append (script more : List Declaration) :
    draft.calls (script ++ more) = draft.calls script ++ (draft.run script).calls more := by
  rw [calls, spelledOut_append, history_append, run_spelledOut]
  rfl

/-! ## Objections -/

/-- The objection to a node under an id that is in use. -/
def taken? (draft : GrammarDraft) (id : NodeId) : Option Defect :=
  if draft.nodes.contains id then some (.duplicateNode id) else none

end GrammarDraft

/-- What is wrong with a call at the time that it is made. -/
def ScriptCall.objection? (call : ScriptCall) : Option Defect :=
  match call.declaration with
  | .literal id _ => call.draft.taken? id
  | .charClass id _ => call.draft.taken? id
  | .nonTerminal id _ => call.draft.taken? id
  | .separatedList id element separators _ =>
    match (element :: separators).find? fun part => !call.draft.nodes.contains part with
    | some missing => some (.unknownNode "separated list" missing)
    | none => call.draft.taken? id
  | .fresh => if call.draft.nextId < GrammarDraft.idLimit then none else some .idsExhausted
  | .wired production nodes => call.draft.wiringDefect? production nodes
  | .node _ => none
  | .production _ => none
  | .rule _ _ => none

/-- The production that a call registers. No call is objected to for it. -/
def ScriptCall.added (call : ScriptCall) : List WiredProduction :=
  match call.declaration, call.objection? with
  | .wired production nodes, none => [⟨production, nodes⟩]
  | _, _ => []

theorem findSome?_cons_eq_or {α β : Type} (f : α → Option β) (a : α) (rest : List α) :
    (a :: rest).findSome? f = (f a).or (rest.findSome? f) := by
  rw [List.findSome?_cons]
  cases f a with
  | none => rfl
  | some b => rfl

namespace GrammarDraft

variable {draft : GrammarDraft}

/-- What a call does to the draft, as far as the checks of the script as a whole are concerned: it
adds a defect if it is objected to, and productions. -/
structure Effect (draft after : GrammarDraft) (objection? : Option Defect)
    (added : List WiredProduction) : Prop where
  start_eq : after.start = draft.start
  defect_eq : after.defect? = draft.defect?.or objection?
  prods_eq : after.prods.toList = draft.prods.toList ++ added

theorem effect_addNode (id : NodeId) (symbol : Symbol) (parts : List NodeId) :
    draft.Effect (draft.addNode id symbol parts) (draft.taken? id) [] := by
  unfold addNode taken?
  dsimp only
  split
  · exact ⟨rfl, rfl, (List.append_nil _).symm⟩
  · exact ⟨rfl, (Option.or_none).symm, (List.append_nil _).symm⟩

/-- The symbols of ids are not all found just if one of the ids is no node's. -/
theorem symbolsOf_eq : ∀ ids : List NodeId,
    match ids.find? fun id => !draft.nodes.contains id with
    | some missing => draft.symbolsOf ids = .error missing
    | none => ∃ symbols, draft.symbolsOf ids = .ok symbols ∧ symbols.length = ids.length
  | [] => ⟨[], rfl, rfl⟩
  | id :: rest => by
    rw [List.find?_cons, symbolsOf, Std.TreeMap.contains_eq_isSome_getElem?]
    cases draft.nodes[id]? with
    | none => rfl
    | some node =>
      have others := symbolsOf_eq rest
      simp only [Option.isSome_some, Bool.not_true]
      revert others
      cases rest.find? fun id => !draft.nodes.contains id with
      | some missing =>
        intro (others : draft.symbolsOf rest = .error missing)
        dsimp only
        rw [others]
      | none =>
        rintro ⟨symbols, ok, length⟩
        dsimp only
        rw [ok]
        exact ⟨node.symbol :: symbols, rfl, congrArg (· + 1) length⟩

theorem effect_addList (id element : NodeId) (separators : List NodeId)
    (repetition : Repetition) :
    draft.Effect (draft.addList id element separators repetition)
      (ScriptCall.objection? ⟨draft, .separatedList id element separators repetition⟩) [] := by
  have symbols := draft.symbolsOf_eq (element :: separators)
  unfold addList ScriptCall.objection?
  dsimp only
  revert symbols
  cases (element :: separators).find? fun part => !draft.nodes.contains part with
  | some missing =>
    intro (symbols : draft.symbolsOf (element :: separators) = .error missing)
    rw [symbols]
    exact ⟨rfl, rfl, (List.append_nil _).symm⟩
  | none =>
    rintro ⟨found, ok, length⟩
    rw [ok]
    cases found with
    | nil => cases length
    | cons elementSymbol separatorSymbols => exact effect_addNode _ _ _

theorem effect_freshId :
    draft.Effect draft.freshId.2 (ScriptCall.objection? ⟨draft, .fresh⟩) [] := by
  unfold freshId ScriptCall.objection?
  dsimp only
  split
  · exact ⟨rfl, (Option.or_none).symm, (List.append_nil _).symm⟩
  · exact ⟨rfl, rfl, (List.append_nil _).symm⟩

theorem effect_wire (production : Production) (nodes : List NodeId) :
    draft.Effect (draft.wire production nodes) (draft.wiringDefect? production nodes)
      (ScriptCall.added ⟨draft, .wired production nodes⟩) := by
  have objection : ScriptCall.objection? ⟨draft, .wired production nodes⟩ =
      draft.wiringDefect? production nodes := rfl
  unfold wire ScriptCall.added
  rw [objection]
  cases draft.wiringDefect? production nodes with
  | some defect => exact ⟨rfl, rfl, (List.append_nil _).symm⟩
  | none => exact ⟨rfl, (Option.or_none).symm, Array.toList_push⟩

theorem effect_declare {declaration : Declaration}
    (elementary : declaration.isElementary = true) :
    draft.Effect (draft.declare declaration).2 (ScriptCall.objection? ⟨draft, declaration⟩)
      (ScriptCall.added ⟨draft, declaration⟩) := by
  cases declaration with
  | literal id text => exact effect_addNode _ _ _
  | charClass id ranges => exact effect_addNode _ _ _
  | nonTerminal id name => exact effect_addNode _ _ _
  | separatedList id element separators repetition => exact effect_addList _ _ _ _
  | fresh => exact effect_freshId
  | wired production nodes => exact effect_wire _ _
  | node symbol => cases elementary
  | production production => cases elementary
  | rule head bodies => cases elementary

/-- A run adds the objections to its calls, and their productions, one after another. -/
theorem effect_history {steps : List Declaration}
    (elementary : ∀ step ∈ steps, step.isElementary = true) :
    draft.Effect (draft.run steps) ((draft.history steps).findSome? ScriptCall.objection?)
      ((draft.history steps).flatMap ScriptCall.added) := by
  induction steps generalizing draft with
  | nil => exact ⟨rfl, (Option.or_none).symm, (List.append_nil _).symm⟩
  | cons step rest ih =>
    have first := draft.effect_declare (elementary step List.mem_cons_self)
    have others := @ih (draft.declare step).2 fun other member =>
      elementary other (List.mem_cons_of_mem step member)
    rw [run_cons, history, findSome?_cons_eq_or, List.flatMap_cons]
    constructor
    · rw [others.start_eq, first.start_eq]
    · rw [others.defect_eq, first.defect_eq, Option.or_assoc]
    · rw [others.prods_eq, first.prods_eq, List.append_assoc]

theorem effect_run (script : List Declaration) :
    draft.Effect (draft.run script) ((draft.calls script).findSome? ScriptCall.objection?)
      ((draft.calls script).flatMap ScriptCall.added) := by
  rw [← run_spelledOut]
  exact effect_history (draft.elementary_spelledOut script)

/-- The defect of a draft is the first objection to a call. -/
theorem defect_run (script : List Declaration) :
    (draft.run script).defect? =
      draft.defect?.or ((draft.calls script).findSome? ScriptCall.objection?) :=
  (draft.effect_run script).defect_eq

theorem start_run (script : List Declaration) : (draft.run script).start = draft.start :=
  (draft.effect_run script).start_eq

end GrammarDraft

/-! ## Flaws -/

/-- What is wrong with a production when it is registered after others. -/
def WiredProduction.flaw? (earlier : List WiredProduction) (entry : WiredProduction) :
    Option Defect :=
  let label := entry.production.label
  if !entry.production.definesLhs then some (.invalidLhs label entry.production.lhs)
  else if label ∈ earlier.map fun other => other.production.label then some (.duplicateLabel label)
  else (Grammar.firstRepeat? [] entry.wiring).map (.reusedNode label)

/-- The first flaw of productions that are registered in order after others. -/
def firstFlaw? (earlier : List WiredProduction) : List WiredProduction → Option Defect
  | [] => none
  | entry :: rest => (entry.flaw? earlier).or (firstFlaw? (earlier ++ [entry]) rest)

/-- What is wrong with the production that a call registers. No call is objected to for it. -/
def ScriptCall.flaw? (call : ScriptCall) : Option Defect :=
  match call.declaration, call.objection? with
  | .wired production nodes, none =>
    WiredProduction.flaw? call.draft.prods.toList ⟨production, nodes⟩
  | _, _ => none

theorem firstFlaw?_append (earlier entries more : List WiredProduction) :
    firstFlaw? earlier (entries ++ more) =
      (firstFlaw? earlier entries).or (firstFlaw? (earlier ++ entries) more) := by
  induction entries generalizing earlier with
  | nil => rw [List.nil_append, firstFlaw?, Option.none_or, List.append_nil]
  | cons entry rest ih =>
    rw [List.cons_append, firstFlaw?, firstFlaw?, ih, Option.or_assoc, List.append_assoc,
      List.singleton_append]

namespace GrammarDraft

variable {draft : GrammarDraft}

/-- A call adds the flaw of its production to those of the draft. -/
theorem firstFlaw_declare {declaration : Declaration}
    (elementary : declaration.isElementary = true) :
    firstFlaw? [] (draft.declare declaration).2.prods.toList =
      (firstFlaw? [] draft.prods.toList).or (ScriptCall.flaw? ⟨draft, declaration⟩) := by
  have flaw_eq : firstFlaw? draft.prods.toList (ScriptCall.added ⟨draft, declaration⟩) =
      ScriptCall.flaw? ⟨draft, declaration⟩ := by
    unfold ScriptCall.added ScriptCall.flaw?
    split
    · exact Option.or_none
    · rfl
  rw [(draft.effect_declare elementary).prods_eq, firstFlaw?_append, List.nil_append, flaw_eq]

theorem firstFlaw_history {steps : List Declaration}
    (elementary : ∀ step ∈ steps, step.isElementary = true) :
    firstFlaw? [] (draft.run steps).prods.toList =
      (firstFlaw? [] draft.prods.toList).or ((draft.history steps).findSome? ScriptCall.flaw?) := by
  induction steps generalizing draft with
  | nil => exact (Option.or_none).symm
  | cons step rest ih =>
    have inRest : ∀ other ∈ rest, other.isElementary = true := fun other member =>
      elementary other (List.mem_cons_of_mem step member)
    rw [run_cons, ih inRest, firstFlaw_declare (elementary step List.mem_cons_self), history,
      findSome?_cons_eq_or, Option.or_assoc]

/-- The first flaw among the productions of a script is the first flaw of a call. -/
theorem firstFlaw_run (script : List Declaration) :
    firstFlaw? [] (draft.run script).prods.toList =
      (firstFlaw? [] draft.prods.toList).or ((draft.calls script).findSome? ScriptCall.flaw?) := by
  rw [← run_spelledOut, firstFlaw_history (draft.elementary_spelledOut script)]
  rfl

end GrammarDraft

end Scannerless
