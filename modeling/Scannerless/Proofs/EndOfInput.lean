import Scannerless.Proofs.Rejections

/-!
# Expecting the end of the input

A rejection that expects no terminal says that the text should have ended. So it should, if every
symbol that the derivations of the symbol can need has a derivation at all: no partial derivation
that has come so far waits for a terminal, therefore all that it waits for derives the empty text,
and the symbol derives what has been matched.
-/

namespace Scannerless

theorem Production.Expands.mem_rhs {production : Production} {symbols : List Symbol}
    (expands : production.Expands symbols) {symbol : Symbol} (member : symbol ∈ symbols) :
    symbol ∈ production.rhs := by
  obtain ⟨index, at_⟩ := List.mem_iff_getElem?.1 member
  exact List.mem_of_getElem? (expands.rhs_getElem? at_)

namespace Grammar

/-- A symbol that has a finite derivation, whatever text it is of. -/
inductive Productive (g : Grammar) : Symbol → Prop
  | terminal {symbol : Symbol} (terminal : symbol.isTerminal = true) : Productive g symbol
  | production {p : ProdId} {entry : WiredProduction} {body : List Symbol}
    (found : g.prod? p = some entry) (expands : entry.production.Expands body)
    (parts : ∀ part ∈ body, Productive g part) : Productive g entry.production.lhs

/-- A production of the symbol has the part on its right-hand side. -/
def Refers (g : Grammar) (symbol part : Symbol) : Prop :=
  ∃ p entry, g.prod? p = some entry ∧ entry.production.lhs = symbol ∧ part ∈ entry.production.rhs

variable {g : Grammar} {input : Input} {root due symbol : Symbol} {symbols rest : List Symbol}
  {start stop : Nat}

/-- A symbol is due only in what can be reached by reference. -/
theorem Awaits.refers (awaits : g.Awaits input due symbols start stop) :
    ∃ symbol ∈ symbols, Relation.ReflTransGen g.Refers symbol due := by
  induction awaits with
  | here => exact ⟨due, List.mem_cons_self, .refl⟩
  | past _ _ ih =>
    obtain ⟨symbol, member, reaches⟩ := ih
    exact ⟨symbol, List.mem_cons_of_mem _ member, reaches⟩
  | within found expands _ ih =>
    obtain ⟨symbol, member, reaches⟩ := ih
    exact ⟨_, List.mem_cons_self, .head ⟨_, _, found, rfl, expands.mem_rhs member⟩ reaches⟩

/-! ## Where no terminal is due -/

/-- Symbols derive the empty text if each does once those before it have. -/
theorem Spans.of_due (bound : stop ≤ input.length)
    (empty : ∀ part ∈ symbols, g.Awaits input part symbols stop stop →
      g.Spans input [part] stop stop) : g.Spans input symbols stop stop := by
  induction symbols with
  | nil => exact .nil bound
  | cons part rest ih =>
    have first : g.Spans input [part] stop stop := empty part List.mem_cons_self (.here bound)
    exact first.append (ih fun later member awaits =>
      empty later (List.mem_cons_of_mem _ member) (.past first awaits))

/-- Where no terminal is due, whatever is due and has a derivation at all derives the empty text. -/
theorem Productive.spans (productive : g.Productive due)
    (silent : ∀ terminal : Symbol, terminal.isTerminal = true →
      ¬ g.Awaits input terminal symbols start stop)
    (awaits : g.Awaits input due symbols start stop) : g.Spans input [due] stop stop := by
  have bound := awaits.bounds.2
  induction productive with
  | terminal terminal => exact absurd awaits (silent _ terminal)
  | production found expands _ ih =>
    have body := Spans.of_due bound fun part member awaitsPart =>
      ih part member (awaits.trans found expands awaitsPart)
    exact .production found expands body (.nil bound)

/-- Where no terminal is due, the root derives all that has been matched. -/
theorem Leads.spans_of_silent (leads : g.Leads input [root] 0 stop rest)
    (productive : ∀ part, Relation.ReflTransGen g.Refers root part → g.Productive part)
    (silent : ∀ terminal : Symbol, terminal.isTerminal = true →
      ¬ g.Awaits input terminal [root] 0 stop) : g.Spans input [root] 0 stop := by
  induction rest with
  | nil =>
    rcases leads.spans_or_awaits with ⟨-, spans⟩ | ⟨due, others, eq, -⟩
    · exact spans
    · cases eq
  | cons part rest ih =>
    rcases leads.spans_or_awaits with ⟨eq, -⟩ | ⟨due, others, eq, awaits⟩
    · cases eq
    obtain ⟨rfl, rfl⟩ := List.cons.inj eq
    obtain ⟨symbol, member, reaches⟩ := awaits.refers
    obtain rfl := List.mem_singleton.1 member
    have empty := (productive _ reaches).spans silent awaits
    exact ih (leads.trans (empty.leads _))

/-! ## Rejections that expect nothing -/

theorem Productive.isDefined (wired : g.Wired) (productive : g.Productive symbol)
    (nonTerminal : symbol.isTerminal = false) : g.isDefined symbol = true := by
  cases productive with
  | terminal terminal => cases terminal.symm.trans nonTerminal
  | production found => exact wired.isDefined_iff.2 ⟨_, _, found, rfl⟩

/-- If every symbol that the derivations of a symbol can need has a derivation, a rejection that
expects nothing is truthful: the symbol derives the text up to the offset, and the text goes on. -/
theorem rejection_at_end {start : Symbol} {script : List Declaration} {g : Grammar}
    (built : (Grammar.ofScript start script).value = .ok g) {symbol : Symbol}
    (nonTerminal : symbol.isTerminal = false)
    (productive : ∀ part, Relation.ReflTransGen g.Refers symbol part → part.isTerminal = false →
      g.Productive part)
    {policy : OnAmbiguity} {text : String} {rejection : Rejection}
    (rejected : (g.parseSymbol policy symbol text).value = .error (.rejected rejection))
    (silent : rejection.expected = []) :
    g.Derives [symbol] ((Input.ofString text).text 0 rejection.offset) ∧
    (g.recognize (Input.ofString text) symbol).value.accepts symbol rejection.offset = true ∧
    rejection.offset < (Input.ofString text).length := by
  have wired := Wired.of_script built
  have defined := (productive symbol .refl nonTerminal).isDefined wired nonTerminal
  obtain ⟨rejects, rfl⟩ := wired.rejected_iff.1 rejected
  have full := wired.full_recognize (Input.ofString text) symbol
  obtain ⟨⟨rest, leads⟩, -⟩ := wired.isGreatest_furthest defined (Input.ofString text)
  have spans := leads.spans_of_silent
    (fun part reaches => by
      cases terminal : part.isTerminal with
      | true => exact .terminal terminal
      | false => exact productive part reaches terminal)
    (fun terminal isTerminal awaits => by
      have expected := (wired.mem_expectedAt_iff defined).2 ⟨isTerminal, awaits.exists_leads⟩
      have none_ : terminal ∈ ([] : List Symbol) := silent ▸ expected
      exact absurd none_ List.not_mem_nil)
  have accepts : (g.recognize (Input.ofString text) symbol).value.accepts symbol
      (g.recognize (Input.ofString text) symbol).value.furthest = true := by
    have called : g.Called (Input.ofString text) symbol ⟨symbol, 0⟩ := .inl ⟨rfl, defined⟩
    unfold Chart.accepts
    rw [← Std.TreeSet.mem_iff_contains, full.mem_results_iff, called.completed_iff wired]
    exact spans
  refine ⟨spans.derives, accepts, Nat.lt_of_le_of_ne spans.bounds.2 fun whole => ?_⟩
  change (g.recognize (Input.ofString text) symbol).value.furthest = _ at whole
  rw [← whole, accepts] at rejects
  cases rejects

/-- `S ::= S | "a"`: after the `a` of the text `ab` nothing is expected, and `S` derives the `a`. -/
theorem rejection_at_end_cyclic : ∃ g,
    (Grammar.ofScript (.nonTerminal "S") Example.cyclic).value = .ok g ∧
    (g.parseSymbol .keep (.nonTerminal "S") "ab").value =
      .error (.rejected ⟨.nonTerminal "S", 1, []⟩) ∧
    g.Derives [.nonTerminal "S"] ['a'] ∧
    (g.recognize (Input.ofString "ab") (.nonTerminal "S")).value.accepts (.nonTerminal "S") 1 =
      true := by
  obtain ⟨g, built, tested⟩ := exists_of_script (.nonTerminal "S") Example.cyclic
    (fun g =>
      (g.prods.toList.all fun entry =>
        entry.production.rhs.all fun part => part == .nonTerminal "S" || part.isTerminal) &&
      (g.prods.toList.any fun entry => entry.production.lhs == .nonTerminal "S" &&
        entry.production.kind == .sequence && entry.production.rhs.all Symbol.isTerminal) &&
      match (g.parseSymbol .keep (.nonTerminal "S") "ab").value with
      | .error (.rejected rejection) => rejection == ⟨.nonTerminal "S", 1, []⟩
      | _ => false)
    (by decide +kernel)
  rw [Bool.and_eq_true, Bool.and_eq_true, List.all_eq_true, List.any_eq_true] at tested
  obtain ⟨⟨closed, entry, member, leaf⟩, rejects⟩ := tested
  simp only [Bool.and_eq_true, beq_iff_eq, List.all_eq_true] at leaf
  obtain ⟨⟨lhs_eq, kind⟩, terminals⟩ := leaf
  have leafProductive : g.Productive (.nonTerminal "S") := by
    obtain ⟨p, found⟩ := List.mem_iff_getElem?.1 member
    rw [Array.getElem?_toList] at found
    rw [← lhs_eq]
    exact .production found (.sequence kind) fun part inside => .terminal (terminals part inside)
  have productive : ∀ part, Relation.ReflTransGen g.Refers (.nonTerminal "S") part →
      part.isTerminal = false → g.Productive part := by
    intro part reaches nonTerminal
    cases reaches with
    | refl => exact leafProductive
    | tail _ refers =>
      obtain ⟨p, other, found, -, inside⟩ := refers
      have inProds := Array.mem_toList_iff.2 (Array.mem_of_getElem? found)
      have simple := List.all_eq_true.1 (closed other inProds) part inside
      rw [nonTerminal, Bool.or_false, beq_iff_eq] at simple
      exact simple ▸ leafProductive
  split at rejects
  · next rejection rejected =>
    obtain rfl := eq_of_beq rejects
    obtain ⟨derives, accepts, -⟩ := rejection_at_end built rfl productive rejected rfl
    exact ⟨g, built, rejected, derives, accepts⟩
  · cases rejects

/-- A terminal has no productions, so that parsing a text as a terminal is rejected where the text
begins, expecting nothing, although the terminal does not derive the empty text. -/
theorem rejection_at_end_terminal : ∃ g,
    (Grammar.ofScript (.nonTerminal "A") [Example.ruleA]).value = .ok g ∧
    (∀ part, Relation.ReflTransGen g.Refers (.literal "a") part → part.isTerminal = false →
      g.Productive part) ∧
    (g.parseSymbol .keep (.literal "a") "").value = .error (.rejected ⟨.literal "a", 0, []⟩) ∧
    ¬ g.Derives [.literal "a"] ((Input.ofString "").text 0 0) ∧
    (g.recognize (Input.ofString "") (.literal "a")).value.accepts (.literal "a") 0 = false ∧
    ¬ 0 < (Input.ofString "").length := by
  obtain ⟨g, built, undefined_⟩ := exists_of_script (.nonTerminal "A") [Example.ruleA]
    (fun g => !g.isDefined (.literal "a")) (by decide +kernel)
  rw [Bool.not_eq_true'] at undefined_
  have wired := Wired.of_script built
  refine ⟨g, built, ?_, (rejection_exact built (.literal "a") .keep "").2 undefined_, ?_, ?_,
    by decide⟩
  · intro part reaches nonTerminal
    rcases reaches.cases_head with rfl | ⟨other, ⟨p, entry, found, lhs_eq, -⟩, -⟩
    · cases nonTerminal
    · have notTerminal := wired.isTerminal_of_lhs found
      rw [lhs_eq] at notTerminal
      cases notTerminal
  · intro derives
    generalize symbols_eq : [Symbol.literal "a"] = symbols at derives
    generalize text_eq : (Input.ofString "").text 0 0 = chars at derives
    cases derives with
    | nil | charClass => cases symbols_eq
    | literal =>
      cases symbols_eq
      cases text_eq
    | production found =>
      have notTerminal := wired.isTerminal_of_lhs found
      rw [← (List.cons.inj symbols_eq).1] at notTerminal
      cases notTerminal
  · rw [recognize_of_undefined undefined_]
    rfl

end Grammar

end Scannerless
