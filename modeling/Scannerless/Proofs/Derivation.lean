import Scannerless.Grammar.Example
import Scannerless.Proofs.Expansion
import Scannerless.Proofs.Saturation

/-!
# Derivations

Which texts a grammar derives from a sequence of symbols. `Grammar.Derives` speaks of texts alone:
a literal derives its own text, a class one character that it contains, and any other symbol what
the expansions of its productions derive. `Grammar.Spans` places the same derivations in an input.

The items that recognition can find are those whose symbols so far span the stretch between their
offsets, so that what a chart says of a call is what the grammar derives.
-/

namespace Scannerless

namespace Grammar

/-! ## Texts and spans -/

/-- The texts derived from a sequence of symbols. -/
inductive Derives (g : Grammar) : List Symbol → List Char → Prop
  | nil : Derives g [] []
  | literal {text : String} {rest : List Symbol} {more : List Char}
    (derives : Derives g rest more) : Derives g (.literal text :: rest) (text.toList ++ more)
  | charClass {cls : CharClass} {c : Char} {rest : List Symbol} {more : List Char}
    (holds : cls.contains c = true) (derives : Derives g rest more) :
    Derives g (.charClass cls :: rest) (c :: more)
  | production {p : ProdId} {entry : WiredProduction} {symbols rest : List Symbol}
    {text more : List Char} (found : g.prod? p = some entry)
    (expands : entry.production.Expands symbols) (body : Derives g symbols text)
    (derives : Derives g rest more) :
    Derives g (entry.production.lhs :: rest) (text ++ more)

/-- The stretches of an input that a sequence of symbols derives. -/
inductive Spans (g : Grammar) (input : Input) : List Symbol → Nat → Nat → Prop
  | nil {start : Nat} (bound : start ≤ input.length) : Spans g input [] start start
  | scan {symbol : Symbol} {rest : List Symbol} {start middle stop : Nat}
    (scanned : symbol.scan? input start = some middle) (spans : Spans g input rest middle stop) :
    Spans g input (symbol :: rest) start stop
  | production {p : ProdId} {entry : WiredProduction} {symbols rest : List Symbol}
    {start middle stop : Nat} (found : g.prod? p = some entry)
    (expands : entry.production.Expands symbols) (body : Spans g input symbols start middle)
    (spans : Spans g input rest middle stop) :
    Spans g input (entry.production.lhs :: rest) start stop

variable {g : Grammar} {input : Input} {root : Symbol} {symbols others : List Symbol}
  {start middle stop : Nat}

theorem Spans.bounds (spans : g.Spans input symbols start stop) :
    start ≤ stop ∧ stop ≤ input.length := by
  induction spans with
  | nil bound => exact ⟨Nat.le_refl _, bound⟩
  | scan scanned _ ih => exact ⟨Nat.le_trans (Symbol.scan_bounds scanned).1 ih.1, ih.2⟩
  | production _ _ _ _ ihBody ih => exact ⟨Nat.le_trans ihBody.1 ih.1, ih.2⟩

theorem Spans.eq_of_nil (spans : g.Spans input [] start stop) : stop = start := by
  cases spans
  rfl

theorem Spans.append (first : g.Spans input symbols start middle)
    (second : g.Spans input others middle stop) :
    g.Spans input (symbols ++ others) start stop := by
  induction first with
  | nil => exact second
  | scan scanned _ ih => exact .scan scanned (ih second)
  | production found expands body _ _ ih => exact .production found expands body (ih second)

theorem Spans.derives (spans : g.Spans input symbols start stop) :
    g.Derives symbols (input.text start stop) := by
  induction spans with
  | nil =>
    rw [Input.text_self]
    exact .nil
  | @scan symbol rest start middle stop scanned spans ih =>
    rw [← input.text_append (Symbol.scan_bounds scanned).1 spans.bounds.1]
    cases symbol with
    | literal text =>
      rw [(Symbol.scan_literal_iff.1 scanned).2.2]
      exact .literal ih
    | charClass cls =>
      obtain ⟨-, -, c, holds, eq⟩ := Symbol.scan_charClass_iff.1 scanned
      rw [eq]
      exact .charClass holds ih
    | nonTerminal name => cases scanned
    | list element separators repetition => cases scanned
  | production found expands body spans ihBody ih =>
    rw [← input.text_append body.bounds.1 spans.bounds.1]
    exact .production found expands ihBody ih

theorem Derives.spans {text : List Char} (derives : g.Derives symbols text) :
    ∀ {start stop : Nat}, start ≤ stop → stop ≤ input.length → input.text start stop = text →
      g.Spans input symbols start stop := by
  induction derives with
  | nil =>
    intro start stop ordered bound eq
    have length : (input.text start stop).length = stop - start := input.length_text bound
    rw [eq, List.length_nil] at length
    obtain rfl : start = stop := by omega
    exact .nil bound
  | literal _ ih =>
    intro start stop ordered bound eq
    obtain ⟨middle, before, after, eqFirst, eqRest⟩ := Input.exists_middle ordered bound eq
    exact .scan (Symbol.scan_literal_iff.2 ⟨before, Nat.le_trans after bound, eqFirst⟩)
      (ih after bound eqRest)
  | @charClass cls c rest more holds _ ih =>
    intro start stop ordered bound eq
    rw [show c :: more = [c] ++ more from rfl] at eq
    obtain ⟨middle, before, after, eqFirst, eqRest⟩ := Input.exists_middle ordered bound eq
    have length : (input.text start middle).length = middle - start :=
      input.length_text (Nat.le_trans after bound)
    rw [eqFirst, List.length_singleton] at length
    have within := Nat.le_trans after bound
    exact .scan (Symbol.scan_charClass_iff.2 ⟨by omega, within, c, holds, eqFirst⟩)
      (ih after bound eqRest)
  | production found expands _ _ ihBody ih =>
    intro start stop ordered bound eq
    obtain ⟨middle, before, after, eqBody, eqRest⟩ := Input.exists_middle ordered bound eq
    exact .production found expands (ihBody before (Nat.le_trans after bound) eqBody)
      (ih after bound eqRest)

/-- A sequence of symbols spans a stretch of the input if it derives the text there. -/
theorem spans_iff : g.Spans input symbols start stop ↔
    start ≤ stop ∧ stop ≤ input.length ∧ g.Derives symbols (input.text start stop) :=
  ⟨fun spans => ⟨spans.bounds.1, spans.bounds.2, spans.derives⟩,
    fun ⟨ordered, bound, derives⟩ => derives.spans ordered bound rfl⟩

/-! ## Items -/

/-- What an item has matched is spanned by symbols that lead to its place. -/
theorem Reached.exists_spans (wired : g.Wired) {item : Item}
    (reached : g.Reached input root item) {entry : WiredProduction}
    (found : g.prod? item.state.prod = some entry) :
    ∃ symbols, entry.production.ReadsTo symbols item.state.index ∧
      g.Spans input symbols item.origin item.pos := by
  have advance {item : Item} {node : StackNode} {state : Dotted} {stop : Nat}
      {entry : WiredProduction} {symbols : List Symbol}
      (found : g.prod? item.state.prod = some entry) (due : item.state.next? g = some node)
      (advances : state ∈ item.state.advance g)
      (reads : entry.production.ReadsTo symbols item.state.index)
      (spans : g.Spans input symbols item.origin item.pos)
      (covered : g.Spans input [node.symbol] item.pos stop) :
      ∃ symbols, entry.production.ReadsTo symbols state.index ∧
        g.Spans input symbols item.origin stop := by
    have bound := wired.bound_of_next found due
    rcases reads with walks | ⟨complete, -⟩
    · have next := ((wired.mem_advance found bound).1 advances).2
      exact ⟨symbols ++ [node.symbol], .inl (walks.snoc (wired.rhs_of_next found due).1 next),
        spans.append covered⟩
    · exact absurd complete (Nat.ne_of_lt bound)
  induction reached generalizing entry with
  | start => exact ⟨[], .inl (.nil 0), .nil (Nat.zero_le _)⟩
  | predict reached => exact ⟨[], .inl (.nil 0), .nil (reached.inBounds wired).pos_le⟩
  | scan _ due scanned advances ih =>
    rw [Dotted.prod_of_mem_advance advances] at found
    obtain ⟨symbols, reads, spans⟩ := ih found
    have further := advance found due advances reads spans
      (.scan scanned (.nil (Symbol.scan_bounds scanned).2))
    exact further
  | @complete item part node state _ due reachedPart complete lhs origin advances ih ihPart =>
    dsimp only at found
    rw [Dotted.prod_of_mem_advance advances] at found
    obtain ⟨symbols, reads, spans⟩ := ih found
    obtain ⟨other, foundPart, lhs_eq⟩ := exists_prod_of_lhs lhs
    obtain ⟨body, readsPart, spansPart⟩ := ihPart foundPart
    rw [(wired.isComplete_iff foundPart).1 complete, Production.readsTo_arity_iff] at readsPart
    rw [origin] at spansPart
    have covered : g.Spans input [node.symbol] item.pos part.pos := by
      rw [← lhs_eq]
      exact .production foundPart readsPart spansPart (.nil (reachedPart.inBounds wired).pos_le)
    have further := advance found due advances reads spans covered
    exact further
  | @empty item reached allows here ih =>
    obtain ⟨-, kind⟩ := (allowsEmpty_iff found).1 allows
    have bounds := reached.inBounds wired
    refine ⟨[], .inr ⟨wired.slots_eq found, kind, rfl⟩, ?_⟩
    dsimp only
    rw [here]
    exact .nil (Nat.le_trans bounds.origin_le bounds.pos_le)

/-- A production is completed where one of its expansions has been gone through. -/
theorem Completed.of_expands (wired : g.Wired) {p : ProdId} {entry : WiredProduction}
    (found : g.prod? p = some entry) (begun : g.Reached input root ⟨start, .ofStart p, start⟩)
    (through : ∀ {final : Nat}, entry.production.Walks 0 symbols final →
      g.Reached input root ⟨stop, ⟨p, final⟩, start⟩)
    (spans : g.Spans input symbols start stop) (expands : entry.production.Expands symbols) :
    g.Completed input root p ⟨entry.production.lhs, ⟨start, stop⟩⟩ := by
  refine ⟨lhs_of_prod found, ?_⟩
  rcases Production.expands_iff.1 expands with walks | ⟨kind, none_⟩
  · rw [Dotted.complete, wired.slots_eq found]
    exact through walks
  · subst none_
    rw [spans.eq_of_nil]
    exact .empty begun ((allowsEmpty_iff found).2 ⟨rfl, kind⟩) rfl

/-- From an item, every way on whose symbols span what follows in the text leads to an item. -/
theorem Reached.walks (wired : g.Wired) (spans : g.Spans input symbols start stop) :
    ∀ {p : ProdId} {entry : WiredProduction} {origin index final : Nat},
      g.prod? p = some entry → entry.production.Walks index symbols final →
        g.Reached input root ⟨start, ⟨p, index⟩, origin⟩ →
          g.Reached input root ⟨stop, ⟨p, final⟩, origin⟩ := by
  induction spans with
  | nil =>
    intro p entry origin index final found walks reached
    cases walks
    exact reached
  | @scan symbol rest start middle stop scanned _ ih =>
    intro p entry origin index final found walks reached
    cases walks with
    | @cons _ after _ _ _ at_ next walks =>
      obtain ⟨node, due, rfl⟩ := wired.exists_next found at_
      have advances : (⟨p, after⟩ : Dotted) ∈ Dotted.advance g ⟨p, index⟩ :=
        (wired.mem_advance found (wired.bound_of_next found due)).2 ⟨rfl, next⟩
      exact ih found walks (.scan reached due scanned advances)
  | @production q other body rest start middle stop foundPart expands spans _ ihBody ih =>
    intro p entry origin index final found walks reached
    cases walks with
    | @cons _ after _ _ _ at_ next walks =>
      obtain ⟨node, due, symbol_eq⟩ := wired.exists_next found at_
      have advances : (⟨p, after⟩ : Dotted) ∈ Dotted.advance g ⟨p, index⟩ :=
        (wired.mem_advance found (wired.bound_of_next found due)).2 ⟨rfl, next⟩
      have defines : q ∈ g.prodsFor node.symbol :=
        wired.mem_prodsFor.2 ⟨other, foundPart, symbol_eq.symm⟩
      have begun := Reached.predict reached due defines
      have completed := Completed.of_expands wired foundPart begun
        (fun walks => ihBody foundPart walks begun) spans expands
      rw [← symbol_eq] at completed
      have covered : g.Covered input root node.symbol ⟨start, middle⟩ := .inr ⟨q, completed⟩
      exact ih found walks (reached.advance wired due covered advances)

/-! ## Calls -/

theorem Called.begun {site : CallSite} (called : g.Called input root site) {p : ProdId}
    (defines : p ∈ g.prodsFor site.symbol) :
    g.Reached input root ⟨site.offset, .ofStart p, site.offset⟩ := by
  rcases called with ⟨rfl, -⟩ | ⟨item, node, reached, due, -, rfl⟩
  · exact .start defines
  · exact .predict reached due defines

theorem Called.isTerminal (wired : g.Wired) {site : CallSite}
    (called : g.Called input root site) : site.symbol.isTerminal = false := by
  rcases called with ⟨rfl, defined⟩ | ⟨item, node, -, -, nonTerminal, rfl⟩
  · exact wired.isTerminal_of_isDefined defined
  · exact nonTerminal

/-- What is completed at a call is what the symbol derives from there. -/
theorem Called.completed_iff (wired : g.Wired) {site : CallSite}
    (called : g.Called input root site) :
    (∃ p, g.Completed input root p ⟨site.symbol, ⟨site.offset, stop⟩⟩) ↔
      g.Spans input [site.symbol] site.offset stop := by
  constructor
  · rintro ⟨p, lhs, reached⟩
    obtain ⟨entry, found, lhs_eq⟩ := exists_prod_of_lhs lhs
    obtain ⟨symbols, reads, spans⟩ := reached.exists_spans wired found
    rw [Dotted.complete, wired.slots_eq found, Production.readsTo_arity_iff] at reads
    dsimp only at lhs_eq
    rw [← lhs_eq]
    exact .production found reads spans (.nil spans.bounds.2)
  · intro spans
    have nonTerminal := called.isTerminal wired
    generalize symbols_eq : [site.symbol] = symbols at spans
    cases spans with
    | nil => cases symbols_eq
    | scan scanned =>
      cases symbols_eq
      rw [Symbol.isTerminal_of_scan scanned] at nonTerminal
      cases nonTerminal
    | @production p entry body rest _ middle _ found expands spans none_ =>
      obtain ⟨symbol_eq, rfl⟩ := List.cons.inj symbols_eq
      cases none_
      have begun := called.begun (wired.mem_prodsFor.2 ⟨entry, found, symbol_eq.symm⟩)
      rw [symbol_eq]
      exact ⟨p, .of_expands wired found begun
        (fun walks => Reached.walks wired spans found walks begun) spans expands⟩

/-! ## Recognition -/

/-- In the chart of recognizing a symbol, the ends of every call are where the derivations of its
symbol from its offset on end. The text is accepted if the symbol derives all of it. -/
theorem recognize_derives_iff {start : Symbol} {script : List Declaration} {g : Grammar}
    (built : (Grammar.ofScript start script).value = .ok g) (input : Input) {root : Symbol}
    (defined : g.isDefined root = true) :
    (∀ site : CallSite, (g.recognize input root).value.calls.contains site = true →
      ∀ stop : Nat, stop ∈ (g.recognize input root).value.ends site.symbol site.offset ↔
        site.offset ≤ stop ∧ stop ≤ input.length ∧
          g.Derives [site.symbol] (input.text site.offset stop)) ∧
    ((g.recognize input root).value.accepts root input.length = true ↔
      g.Derives [root] input.chars.toList) := by
  have wired := Wired.of_script built
  have full := wired.full_recognize input root
  have results {site : CallSite} (called : g.Called input root site) (stop : Nat) :
      stop ∈ ((g.recognize input root).value.callAt site).results ↔
        site.offset ≤ stop ∧ stop ≤ input.length ∧
          g.Derives [site.symbol] (input.text site.offset stop) := by
    rw [full.mem_results_iff, called.completed_iff wired, spans_iff]
  constructor
  · intro site called stop
    unfold Chart.ends
    rw [Std.TreeSet.mem_toList]
    exact results (full.contains_iff.1 called) stop
  · have whole : input.text 0 input.length = input.chars.toList := by
      rw [Input.text_eq, List.drop_zero]
      exact List.take_of_length_le (Nat.le_refl _)
    unfold Chart.accepts
    rw [← Std.TreeSet.mem_iff_contains, results (.inl ⟨rfl, defined⟩), whole]
    simp

/-- `S ::= S | "a"` accepts the text `a`, which `S` derives in endlessly many ways. -/
theorem recognize_derives_iff_cyclic : ∃ g : Grammar,
    (Grammar.ofScript (.nonTerminal "S") Example.cyclic).value = .ok g ∧
      (g.recognize (Input.ofString "a") (.nonTerminal "S")).value.accepts (.nonTerminal "S") 1 =
        true ∧ g.Derives [.nonTerminal "S"] ['a'] := by
  obtain ⟨g, built, tested⟩ := exists_of_script (.nonTerminal "S") Example.cyclic
    (fun g => g.isDefined (.nonTerminal "S") &&
      (g.recognize (Input.ofString "a") (.nonTerminal "S")).value.accepts (.nonTerminal "S") 1)
    (by decide +kernel)
  rw [Bool.and_eq_true] at tested
  obtain ⟨defined, accepts⟩ := tested
  exact ⟨g, built, accepts,
    (recognize_derives_iff built (Input.ofString "a") defined).2.1 accepts⟩

end Grammar

end Scannerless
