import Mathlib.Logic.Relation
import Scannerless.Proofs.Derivation

/-!
# Leftmost derivations

Derivations that always replace the first symbol that is not a terminal. A partial one has matched a
stretch of the text by its first terminals and is to go on with its other symbols:
`Grammar.Leads`.

`Grammar.Awaits` says which symbol may be due at which offset, following what is derived symbol by
symbol. `Grammar.Leads.spans_or_awaits` and `Grammar.Awaits.exists_leads` show that these are the
symbols that partial leftmost derivations are to go on with, and for the items of recognition
`Grammar.Reached.awaits` and `Grammar.Awaits.exists_due` show that these are the symbols due in them.
-/

namespace Scannerless

/-! ## Ways to the end -/

namespace Production

variable {production : Production} {index : Nat}

/-- From every place some way leads to the completed one. -/
theorem exists_walks (bound : index ≤ production.arity) :
    ∃ symbols, production.Walks index symbols production.arity := by
  cases kind : production.kind with
  | sequence => exact ⟨_, walks_sequence kind (production.arity - index) (by omega)⟩
  | list repetition =>
    rcases Nat.lt_or_eq_of_le bound with inside | complete
    · have round := walks_round kind (production.arity - index - 1)
        (by omega : index + (production.arity - index - 1) + 1 = production.arity)
      exact ⟨_, round.append (walks_unroll kind 0)⟩
    · rw [complete]
      exact ⟨[], .nil _⟩

/-- What has been read at a place is the beginning of an expansion. -/
theorem ReadsTo.exists_expands {symbols : List Symbol} (reads : production.ReadsTo symbols index)
    (bound : index ≤ production.arity) : ∃ rest, production.Expands (symbols ++ rest) := by
  rcases reads with walks | ⟨-, kind, rfl⟩
  · obtain ⟨rest, onward⟩ := exists_walks bound
    exact ⟨rest, expands_iff.2 (.inl (walks.append onward))⟩
  · exact ⟨[], .empty kind⟩

/-- What has been read at a place goes on with the symbol there in some expansion. -/
theorem ReadsTo.exists_expands_cons {symbols : List Symbol} {symbol : Symbol}
    (reads : production.ReadsTo symbols index) (at_ : production.rhs[index]? = some symbol) :
    ∃ rest, production.Expands (symbols ++ symbol :: rest) := by
  have bound : index < production.arity := (List.getElem?_eq_some_iff.1 at_).1
  rcases reads with walks | ⟨complete, -⟩
  · obtain ⟨others, onward⟩ := exists_walks (Nat.le_of_lt bound)
    cases onward with
    | nil => exact absurd bound (Nat.lt_irrefl _)
    | cons there next onward =>
      cases at_.symm.trans there
      exact ⟨_, expands_iff.2 (.inl (walks.append (.cons at_ next onward)))⟩
  · exact absurd complete (Nat.ne_of_lt bound)

end Production

namespace Grammar

/-- A step of a leftmost derivation: all symbols before the one that is replaced are terminals. -/
inductive LeftmostStep (g : Grammar) : List Symbol → List Symbol → Prop
  | expand {p : ProdId} {entry : WiredProduction} {front body rest : List Symbol}
    (found : g.prod? p = some entry) (expands : entry.production.Expands body)
    (terminals : ∀ symbol ∈ front, symbol.isTerminal = true) :
    LeftmostStep g (front ++ entry.production.lhs :: rest) (front ++ (body ++ rest))

/-- A leftmost derivation, from one sequence of symbols to another. -/
def Leftmost (g : Grammar) : List Symbol → List Symbol → Prop :=
  Relation.ReflTransGen g.LeftmostStep

/-- Terminals that match a stretch of the text, one after another. -/
inductive Scans (input : Input) : List Symbol → Nat → Nat → Prop
  | nil {start : Nat} (bound : start ≤ input.length) : Scans input [] start start
  | cons {symbol : Symbol} {rest : List Symbol} {start middle stop : Nat}
    (scanned : symbol.scan? input start = some middle) (scans : Scans input rest middle stop) :
    Scans input (symbol :: rest) start stop

/-- A partial leftmost derivation whose first terminals match the text from `start` to `stop`, and
which is to go on with `rest`. -/
def Leads (g : Grammar) (input : Input) (symbols : List Symbol) (start stop : Nat)
    (rest : List Symbol) : Prop :=
  ∃ front, g.Leftmost symbols (front ++ rest) ∧ Scans input front start stop

/-- Going through a sequence of symbols from `start` on, `due` is the next symbol at `stop`. -/
inductive Awaits (g : Grammar) (input : Input) (due : Symbol) : List Symbol → Nat → Nat → Prop
  | here {rest : List Symbol} {start : Nat} (bound : start ≤ input.length) :
    Awaits g input due (due :: rest) start start
  | past {symbol : Symbol} {rest : List Symbol} {start middle stop : Nat}
    (spans : g.Spans input [symbol] start middle) (awaits : Awaits g input due rest middle stop) :
    Awaits g input due (symbol :: rest) start stop
  | within {p : ProdId} {entry : WiredProduction} {body rest : List Symbol} {start stop : Nat}
    (found : g.prod? p = some entry) (expands : entry.production.Expands body)
    (awaits : Awaits g input due body start stop) :
    Awaits g input due (entry.production.lhs :: rest) start stop

variable {g : Grammar} {input : Input} {root due : Symbol} {p : ProdId} {entry : WiredProduction}
  {symbols others front body rest : List Symbol} {start middle stop : Nat}

/-! ## Steps in context -/

theorem LeftmostStep.append_left (step : g.LeftmostStep symbols others)
    (terminals : ∀ symbol ∈ front, symbol.isTerminal = true) :
    g.LeftmostStep (front ++ symbols) (front ++ others) := by
  cases step with
  | @expand p entry before body rest found expands inner =>
    rw [← List.append_assoc, ← List.append_assoc]
    refine .expand found expands fun symbol member => ?_
    rcases List.mem_append.1 member with outside | inside
    · exact terminals symbol outside
    · exact inner symbol inside

theorem LeftmostStep.append_right (step : g.LeftmostStep symbols others) (rest : List Symbol) :
    g.LeftmostStep (symbols ++ rest) (others ++ rest) := by
  cases step with
  | expand found expands terminals =>
    rw [List.append_assoc, List.cons_append, List.append_assoc, List.append_assoc]
    exact .expand found expands terminals

theorem Leftmost.append_left (leftmost : g.Leftmost symbols others)
    (terminals : ∀ symbol ∈ front, symbol.isTerminal = true) :
    g.Leftmost (front ++ symbols) (front ++ others) := by
  induction leftmost with
  | refl => exact .refl
  | tail _ step ih => exact ih.tail (step.append_left terminals)

theorem Leftmost.append_right (leftmost : g.Leftmost symbols others) (rest : List Symbol) :
    g.Leftmost (symbols ++ rest) (others ++ rest) := by
  induction leftmost with
  | refl => exact .refl
  | tail _ step ih => exact ih.tail (step.append_right rest)

theorem Scans.isTerminal (scans : Scans input symbols start stop) :
    ∀ symbol ∈ symbols, symbol.isTerminal = true := by
  induction scans with
  | nil => exact fun _ member => absurd member List.not_mem_nil
  | cons scanned _ ih =>
    intro symbol member
    rcases List.mem_cons.1 member with rfl | later
    · exact Symbol.isTerminal_of_scan scanned
    · exact ih symbol later

theorem Scans.append (first : Scans input symbols start middle)
    (second : Scans input others middle stop) : Scans input (symbols ++ others) start stop := by
  induction first with
  | nil => exact second
  | cons scanned _ ih => exact .cons scanned (ih second)

theorem Scans.spans (scans : Scans input symbols start stop) :
    g.Spans input symbols start stop := by
  induction scans with
  | nil bound => exact .nil bound
  | cons scanned _ ih => exact .scan scanned ih

/-! ## Partial derivations -/

theorem Leads.refl (bound : start ≤ input.length) (symbols : List Symbol) :
    g.Leads input symbols start start symbols :=
  ⟨[], .refl, .nil bound⟩

theorem Leads.trans (first : g.Leads input symbols start middle others)
    (second : g.Leads input others middle stop rest) :
    g.Leads input symbols start stop rest := by
  obtain ⟨before, leftmost, scans⟩ := first
  obtain ⟨after, further, scansFurther⟩ := second
  refine ⟨before ++ after, ?_, scans.append scansFurther⟩
  rw [List.append_assoc]
  exact leftmost.trans (further.append_left scans.isTerminal)

theorem Leads.append_right (leads : g.Leads input symbols start stop rest)
    (others : List Symbol) : g.Leads input (symbols ++ others) start stop (rest ++ others) := by
  obtain ⟨front, leftmost, scans⟩ := leads
  refine ⟨front, ?_, scans⟩
  rw [← List.append_assoc]
  exact leftmost.append_right others

theorem Leads.scan {symbol : Symbol} (scanned : symbol.scan? input start = some stop)
    (rest : List Symbol) : g.Leads input (symbol :: rest) start stop rest :=
  ⟨[symbol], .refl, .cons scanned (.nil (Symbol.scan_bounds scanned).2)⟩

theorem Leads.expand (found : g.prod? p = some entry) (expands : entry.production.Expands body)
    (bound : start ≤ input.length) (rest : List Symbol) :
    g.Leads input (entry.production.lhs :: rest) start start (body ++ rest) := by
  have step : g.LeftmostStep ([] ++ entry.production.lhs :: rest) ([] ++ (body ++ rest)) :=
    .expand found expands fun _ member => absurd member List.not_mem_nil
  exact ⟨[], .single step, .nil bound⟩

/-- What symbols span, the terminals of a leftmost derivation match. -/
theorem Spans.leads (spans : g.Spans input symbols start stop) (rest : List Symbol) :
    g.Leads input (symbols ++ rest) start stop rest := by
  induction spans generalizing rest with
  | nil bound => exact .refl bound rest
  | scan scanned _ ih => exact (Leads.scan scanned _).trans (ih rest)
  | @production p entry body others start middle stop found expands spansBody _ ihBody ih =>
    exact ((Leads.expand found expands (Nat.le_trans spansBody.bounds.1 spansBody.bounds.2) _).trans
      (ihBody (others ++ rest))).trans (ih rest)

theorem Spans.split (spans : g.Spans input (symbols ++ others) start stop) :
    ∃ middle, g.Spans input symbols start middle ∧ g.Spans input others middle stop := by
  induction symbols generalizing start with
  | nil => exact ⟨start, .nil (Nat.le_trans spans.bounds.1 spans.bounds.2), spans⟩
  | cons symbol rest ih =>
    cases spans with
    | scan scanned spans =>
      obtain ⟨middle, first, second⟩ := ih spans
      exact ⟨middle, .scan scanned first, second⟩
    | production found expands body spans =>
      obtain ⟨middle, first, second⟩ := ih spans
      exact ⟨middle, .production found expands body first, second⟩

theorem LeftmostStep.spans (step : g.LeftmostStep symbols others)
    (spans : g.Spans input others start stop) : g.Spans input symbols start stop := by
  cases step with
  | expand found expands terminals =>
    obtain ⟨middle, before, after⟩ := spans.split
    obtain ⟨last, inner, outer⟩ := after.split
    exact before.append (.production found expands inner outer)

/-! ## Symbols that are due -/

theorem Awaits.bounds (awaits : g.Awaits input due symbols start stop) :
    start ≤ stop ∧ stop ≤ input.length := by
  induction awaits with
  | here bound => exact ⟨Nat.le_refl _, bound⟩
  | past spans _ ih => exact ⟨Nat.le_trans spans.bounds.1 ih.1, ih.2⟩
  | within _ _ _ ih => exact ih

theorem Awaits.append_right (awaits : g.Awaits input due symbols start stop)
    (others : List Symbol) : g.Awaits input due (symbols ++ others) start stop := by
  induction awaits with
  | here bound => exact .here bound
  | past spans _ ih => exact .past spans ih
  | within found expands awaits _ => exact .within found expands awaits

theorem Awaits.append_left (spans : g.Spans input symbols start middle)
    (awaits : g.Awaits input due others middle stop) :
    g.Awaits input due (symbols ++ others) start stop := by
  induction spans with
  | nil => exact awaits
  | scan scanned _ ih =>
    exact .past (.scan scanned (.nil (Symbol.scan_bounds scanned).2)) (ih awaits)
  | production found expands body _ _ ih =>
    exact .past (.production found expands body (.nil body.bounds.2)) (ih awaits)

theorem Awaits.split (awaits : g.Awaits input due (symbols ++ others) start stop) :
    g.Awaits input due symbols start stop ∨
      ∃ middle, g.Spans input symbols start middle ∧ g.Awaits input due others middle stop := by
  induction symbols generalizing start with
  | nil => exact .inr ⟨start, .nil (Nat.le_trans awaits.bounds.1 awaits.bounds.2), awaits⟩
  | cons symbol rest ih =>
    cases awaits with
    | here bound => exact .inl (.here bound)
    | past spans awaits =>
      rcases ih awaits with inside | ⟨middle, first, second⟩
      · exact .inl (.past spans inside)
      · exact .inr ⟨middle, spans.append first, second⟩
    | within found expands awaits => exact .inl (.within found expands awaits)

/-- What is due in the expansion of a symbol that is due is due as well. -/
theorem Awaits.trans (found : g.prod? p = some entry) (expands : entry.production.Expands body)
    (first : g.Awaits input entry.production.lhs symbols start middle)
    (second : g.Awaits input due body middle stop) :
    g.Awaits input due symbols start stop := by
  induction first with
  | here => exact .within found expands second
  | past spans _ ih => exact .past spans (ih second)
  | within foundOuter expandsOuter _ ih => exact .within foundOuter expandsOuter (ih second)

theorem LeftmostStep.awaits (step : g.LeftmostStep symbols others)
    (awaits : g.Awaits input due others start stop) : g.Awaits input due symbols start stop := by
  cases step with
  | expand found expands terminals =>
    rcases awaits.split with before | ⟨middle, before, after⟩
    · exact before.append_right _
    rcases after.split with inner | ⟨last, inner, outer⟩
    · exact .append_left before (.within found expands inner)
    · exact .append_left before (.past (.production found expands inner (.nil inner.bounds.2)) outer)

/-- Where a symbol is due, some leftmost derivation is to go on with it. -/
theorem Awaits.exists_leads (awaits : g.Awaits input due symbols start stop) :
    ∃ rest, g.Leads input symbols start stop (due :: rest) := by
  induction awaits with
  | here bound => exact ⟨_, .refl bound _⟩
  | @past symbol others start middle stop spans _ ih =>
    obtain ⟨rest, leads⟩ := ih
    exact ⟨rest, (spans.leads others).trans leads⟩
  | @within p entry body others start stop found expands awaits ih =>
    obtain ⟨rest, leads⟩ := ih
    have begins := Nat.le_trans awaits.bounds.1 awaits.bounds.2
    exact ⟨rest ++ others,
      (Leads.expand found expands begins others).trans (leads.append_right others)⟩

/-- A partial leftmost derivation has come to its end, or the symbol that it is to go on with is
due. -/
theorem Leads.spans_or_awaits (leads : g.Leads input symbols start stop rest) :
    (rest = [] ∧ g.Spans input symbols start stop) ∨
      ∃ due others, rest = due :: others ∧ g.Awaits input due symbols start stop := by
  obtain ⟨front, leftmost, scans⟩ := leads
  have bound : stop ≤ input.length := (scans.spans (g := g)).bounds.2
  cases rest with
  | nil =>
    rw [List.append_nil] at leftmost
    refine .inl ⟨rfl, ?_⟩
    induction leftmost using Relation.ReflTransGen.head_induction_on with
    | refl => exact scans.spans
    | head step _ ih => exact step.spans ih
  | cons due others =>
    refine .inr ⟨due, others, rfl, ?_⟩
    induction leftmost using Relation.ReflTransGen.head_induction_on with
    | refl => exact .append_left scans.spans (.here bound)
    | head step _ ih => exact step.awaits ih

/-! ## Items -/

/-- A symbol that is due in an item is due in a derivation, if the symbol of the item is where the
item began. -/
theorem Reached.awaits_of_origin (wired : g.Wired) {item : Item} {node : StackNode}
    (reached : g.Reached input root item) (due : item.state.next? g = some node)
    (found : g.prod? item.state.prod = some entry)
    (awaits : g.Awaits input entry.production.lhs [root] 0 item.origin) :
    g.Awaits input node.symbol [root] 0 item.pos := by
  obtain ⟨symbols, reads, spans⟩ := reached.exists_spans wired found
  obtain ⟨rest, expands⟩ := reads.exists_expands_cons (wired.rhs_of_next found due).1
  exact awaits.trans found expands (.append_left spans (.here spans.bounds.2))

/-- The symbol of an item is due where the item began. -/
theorem Reached.awaits_origin (wired : g.Wired) {item : Item} (reached : g.Reached input root item)
    (found : g.prod? item.state.prod = some entry) :
    g.Awaits input entry.production.lhs [root] 0 item.origin := by
  have begins {p : ProdId} {symbol : Symbol} {entry : WiredProduction}
      (defines : p ∈ g.prodsFor symbol) (found : g.prod? p = some entry) :
      entry.production.lhs = symbol := by
    obtain ⟨other, foundOther, lhs_eq⟩ := wired.mem_prodsFor.1 defines
    cases found.symm.trans foundOther
    exact lhs_eq
  induction reached generalizing entry with
  | start defines =>
    rw [begins defines found]
    exact .here (Nat.zero_le _)
  | predict reached due defines ih =>
    rw [begins defines found]
    obtain ⟨other, foundOther, -⟩ := (reached.inBounds wired).place
    exact reached.awaits_of_origin wired due foundOther (ih foundOther)
  | scan _ _ _ advances ih =>
    rw [Dotted.prod_of_mem_advance advances] at found
    exact ih found
  | complete _ _ _ _ _ _ advances ih _ =>
    dsimp only at found
    rw [Dotted.prod_of_mem_advance advances] at found
    exact ih found
  | empty _ _ _ ih => exact ih found

/-- A symbol that is due in an item is due in a derivation. -/
theorem Reached.awaits (wired : g.Wired) {item : Item} {node : StackNode}
    (reached : g.Reached input root item) (due : item.state.next? g = some node) :
    g.Awaits input node.symbol [root] 0 item.pos := by
  obtain ⟨entry, found, -⟩ := (reached.inBounds wired).place
  exact reached.awaits_of_origin wired due found (reached.awaits_origin wired found)

/-- What an item has matched, some partial derivation has matched. -/
theorem Reached.exists_leads (wired : g.Wired) {item : Item}
    (reached : g.Reached input root item) : ∃ rest, g.Leads input [root] 0 item.pos rest := by
  obtain ⟨entry, found, bound⟩ := (reached.inBounds wired).place
  obtain ⟨others, context⟩ := (reached.awaits_origin wired found).exists_leads
  obtain ⟨symbols, reads, spans⟩ := reached.exists_spans wired found
  obtain ⟨rest, expands⟩ := reads.exists_expands bound
  have begins := Nat.le_trans spans.bounds.1 spans.bounds.2
  have expanded := context.trans (.expand found expands begins others)
  rw [List.append_assoc] at expanded
  exact ⟨_, expanded.trans (spans.leads _)⟩

/-- A symbol that is due in what is to come of an item is due in an item. -/
theorem Awaits.exists_due (wired : g.Wired) (awaits : g.Awaits input due symbols start stop) :
    ∀ {p : ProdId} {entry : WiredProduction} {origin index final : Nat},
      g.prod? p = some entry → entry.production.Walks index symbols final →
        g.Reached input root ⟨start, ⟨p, index⟩, origin⟩ →
          ∃ item node, g.Reached input root item ∧ item.pos = stop ∧
            item.state.next? g = some node ∧ node.symbol = due := by
  induction awaits with
  | here =>
    intro p entry origin index final found walks reached
    cases walks with
    | cons at_ next walks =>
      obtain ⟨node, dueNode, symbol_eq⟩ := wired.exists_next found at_
      exact ⟨_, node, reached, rfl, dueNode, symbol_eq⟩
  | past spans _ ih =>
    intro p entry origin index final found walks reached
    cases walks with
    | cons at_ next walks =>
      exact ih found walks (Reached.walks wired spans found (.cons at_ next (.nil _)) reached)
  | @within q other body rest start stop foundPart expands awaits ih =>
    intro p entry origin index final found walks reached
    cases walks with
    | cons at_ next walks =>
      obtain ⟨node, dueNode, symbol_eq⟩ := wired.exists_next found at_
      have defines : q ∈ g.prodsFor node.symbol :=
        wired.mem_prodsFor.2 ⟨other, foundPart, symbol_eq.symm⟩
      have begun := Reached.predict reached dueNode defines
      rcases Production.expands_iff.1 expands with inner | ⟨-, rfl⟩
      · exact ih foundPart inner begun
      · cases awaits

/-- A symbol that is due in a derivation of the root is the root itself, or due in an item. -/
theorem Awaits.of_root (wired : g.Wired) (awaits : g.Awaits input due [root] 0 stop) :
    (due = root ∧ stop = 0) ∨ ∃ item node, g.Reached input root item ∧ item.pos = stop ∧
      item.state.next? g = some node ∧ node.symbol = due := by
  generalize symbols_eq : [root] = symbols at awaits
  cases awaits with
  | here => exact .inl ⟨(List.cons.inj symbols_eq).1.symm, rfl⟩
  | past _ awaits =>
    obtain ⟨-, rfl⟩ := List.cons.inj symbols_eq
    cases awaits
  | @within p entry body rest _ _ found expands awaits =>
    obtain ⟨lhs_eq, -⟩ := List.cons.inj symbols_eq
    have begun : g.Reached input root ⟨0, .ofStart p, 0⟩ :=
      .start (wired.mem_prodsFor.2 ⟨entry, found, lhs_eq.symm⟩)
    rcases Production.expands_iff.1 expands with inner | ⟨-, rfl⟩
    · exact .inr (awaits.exists_due wired found inner begun)
    · cases awaits

/-- The partial derivations of a defined symbol match just what the items match. -/
theorem exists_leads_iff (wired : g.Wired) (defined : g.isDefined root = true) :
    (∃ rest, g.Leads input [root] 0 stop rest) ↔
      ∃ item, g.Reached input root item ∧ item.pos = stop := by
  constructor
  · rintro ⟨rest, leads⟩
    rcases leads.spans_or_awaits with ⟨-, spans⟩ | ⟨due, others, -, awaits⟩
    · have called : g.Called input root ⟨root, 0⟩ := .inl ⟨rfl, defined⟩
      obtain ⟨p, -, completed⟩ := (called.completed_iff wired).2 spans
      exact ⟨_, completed, rfl⟩
    · rcases awaits.of_root wired with ⟨-, rfl⟩ | ⟨item, node, reached, pos_eq, -⟩
      · obtain ⟨p, entry, found, lhs_eq⟩ := wired.isDefined_iff.1 defined
        exact ⟨_, .start (wired.mem_prodsFor.2 ⟨entry, found, lhs_eq⟩), rfl⟩
      · exact ⟨item, reached, pos_eq⟩
  · rintro ⟨item, reached, rfl⟩
    exact reached.exists_leads wired

/-- The terminals that partial derivations of a defined symbol are to go on with are those that are
due in items. -/
theorem exists_leads_cons_iff (wired : g.Wired) (defined : g.isDefined root = true)
    (terminal : due.isTerminal = true) :
    (∃ rest, g.Leads input [root] 0 stop (due :: rest)) ↔
      ∃ item node, g.Reached input root item ∧ item.pos = stop ∧
        item.state.next? g = some node ∧ node.symbol = due := by
  constructor
  · rintro ⟨rest, leads⟩
    rcases leads.spans_or_awaits with ⟨empty, -⟩ | ⟨symbol, others, eq, awaits⟩
    · cases empty
    obtain ⟨rfl, rfl⟩ := List.cons.inj eq
    rcases awaits.of_root wired with ⟨rfl, -⟩ | inItem
    · rw [wired.isTerminal_of_isDefined defined] at terminal
      cases terminal
    · exact inItem
  · rintro ⟨item, node, reached, rfl, dueNode, rfl⟩
    exact (reached.awaits wired dueNode).exists_leads

end Grammar

end Scannerless
