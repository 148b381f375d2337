import Scannerless.Grammar.Example
import Scannerless.Proofs.ChartOrder
import Scannerless.Proofs.Rejections

/-!
# Lookahead

Recognition never looks ahead: what a chart says of the text up to an offset depends on nothing
after it. The work is not done in the order of the offsets. An item may be found long after items
further on, and the calls of a symbol feed offsets on both sides. So the rules of recognition are
compared, not the runs: each rule that reaches an item starts from items no further on, and
`Reached.of_agrees` replays it on any text that begins in the same way.
-/

namespace Scannerless

/-! ## Texts that begin in the same way -/

namespace Input

/-- Two texts that have the same characters up to an offset. -/
structure AgreesUpTo (input other : Input) (offset : Nat) : Prop where
  le : offset ≤ input.length
  le_other : offset ≤ other.length
  text_eq : input.text 0 offset = other.text 0 offset

namespace AgreesUpTo

variable {input other : Input} {offset : Nat}

theorem symm (agrees : input.AgreesUpTo other offset) : other.AgreesUpTo input offset :=
  ⟨agrees.le_other, agrees.le, agrees.text_eq.symm⟩

theorem text (agrees : input.AgreesUpTo other offset) (start : Nat) {stop : Nat}
    (within : stop ≤ offset) : input.text start stop = other.text start stop := by
  have upTo : ∀ text : Input, text.text start stop = ((text.text 0 offset).take stop).drop start := by
    intro text
    rw [text.text_eq, text.text_eq, List.drop_zero, List.take_take, Nat.min_eq_left within]
  rw [upTo input, upTo other, agrees.text_eq]

/-- A terminal that matches up to the offset matches in both texts. -/
theorem scan (agrees : input.AgreesUpTo other offset) {symbol : Symbol} {start stop : Nat}
    (scanned : symbol.scan? input start = some stop) (within : stop ≤ offset) :
    symbol.scan? other start = some stop := by
  have bound := Nat.le_trans within agrees.le_other
  have same := agrees.text start within
  cases symbol with
  | literal text =>
    rw [Symbol.scan_literal_iff] at scanned ⊢
    exact ⟨scanned.1, bound, same ▸ scanned.2.2⟩
  | charClass cls =>
    rw [Symbol.scan_charClass_iff] at scanned ⊢
    exact ⟨scanned.1, bound, same ▸ scanned.2.2⟩
  | nonTerminal name => cases scanned
  | list element separators repetition => cases scanned

end AgreesUpTo

end Input

namespace Grammar

/-! ## What the rules reach -/

section Rules

variable {g : Grammar} {input other : Input} {root : Symbol} {offset : Nat}

/-- What is reached up to the offset is reached in both texts. The induction is on the rules: none
of them starts from an item further on than the one it reaches. -/
theorem Reached.of_agrees (wired : g.Wired) (agrees : input.AgreesUpTo other offset) {item : Item}
    (reached : g.Reached input root item) (within : item.pos ≤ offset) :
    g.Reached other root item := by
  induction reached with
  | start defines => exact .start defines
  | predict _ due defines ih => exact .predict (ih within) due defines
  | scan _ due scanned advances ih =>
    have earlier := Nat.le_trans (Symbol.scan_bounds scanned).1 within
    exact .scan (ih earlier) due (agrees.scan scanned within) advances
  | complete _ due part complete lhs origin advances ih ihPart =>
    have earlier := Nat.le_trans (part.inBounds wired).origin_le within
    rw [origin] at earlier
    exact .complete (ih earlier) due (ihPart within) complete lhs origin advances
  | empty _ allows here ih => exact .empty (ih within) allows here

theorem Completed.of_agrees (wired : g.Wired) (agrees : input.AgreesUpTo other offset)
    {p : ProdId} {constituent : Constituent} (completed : g.Completed input root p constituent)
    (within : constituent.span.stop ≤ offset) : g.Completed other root p constituent :=
  ⟨completed.1, completed.2.of_agrees wired agrees within⟩

theorem Covered.of_agrees (wired : g.Wired) (agrees : input.AgreesUpTo other offset)
    {symbol : Symbol} {span : Span} (covered : g.Covered input root symbol span)
    (within : span.stop ≤ offset) : g.Covered other root symbol span := by
  rcases covered with scanned | ⟨p, completed⟩
  · exact .inl (agrees.scan scanned within)
  · exact .inr ⟨p, completed.of_agrees wired agrees within⟩

theorem Linked.of_agrees (wired : g.Wired) (agrees : input.AgreesUpTo other offset) {item : Item}
    {link : Backlink} (linked : g.Linked input root item link) (within : item.pos ≤ offset) :
    g.Linked other root item link := by
  obtain ⟨prevPos, prevIndex, matched⟩ := link
  obtain ⟨reached, by_⟩ := linked
  cases matched with
  | none =>
    have pos_eq : item.pos = prevPos := congrArg Item.pos by_.2.2.2
    exact ⟨reached.of_agrees wired agrees (pos_eq ▸ within), by_⟩
  | some found =>
    obtain ⟨node, due, id_eq, span_eq, covered, advances⟩ := by_
    rw [span_eq] at covered
    have earlier := Nat.le_trans (covered.bounds wired).1 within
    refine ⟨reached.of_agrees wired agrees earlier, node, due, id_eq, span_eq, ?_, advances⟩
    rw [span_eq]
    exact covered.of_agrees wired agrees within

end Rules

/-! ## What the charts say -/

section Charts

variable {g : Grammar} {input other : Input} {offset : Nat}

theorem Wired.hasItem_of_agrees (wired : g.Wired) (agrees : input.AgreesUpTo other offset)
    (root : Symbol) {item : Item} (within : item.pos ≤ offset) :
    (g.recognize input root).value.hasItem item = (g.recognize other root).value.hasItem item := by
  rw [Bool.eq_iff_iff, (wired.full_recognize input root).hasItem_iff,
    (wired.full_recognize other root).hasItem_iff]
  exact ⟨fun reached => reached.of_agrees wired agrees within,
    fun reached => reached.of_agrees wired agrees.symm within⟩

theorem Wired.links_of_agrees (wired : g.Wired) (agrees : input.AgreesUpTo other offset)
    (root : Symbol) {item : Item} (within : item.pos ≤ offset) :
    (g.recognize input root).value.links item = (g.recognize other root).value.links item := by
  apply (Chart.ascending_links _ _).eq_of_mem_iff (Chart.ascending_links _ _)
  intro link
  rw [(wired.full_recognize input root).mem_links_iff,
    (wired.full_recognize other root).mem_links_iff]
  exact ⟨fun linked => linked.of_agrees wired agrees within,
    fun linked => linked.of_agrees wired agrees.symm within⟩

theorem Wired.completed_of_agrees (wired : g.Wired) (agrees : input.AgreesUpTo other offset)
    (root : Symbol) {constituent : Constituent} (within : constituent.span.stop ≤ offset) :
    (g.recognize input root).value.completed constituent =
      (g.recognize other root).value.completed constituent := by
  apply (Chart.ascending_completed _ _).eq_of_mem_iff (Chart.ascending_completed _ _)
  intro p
  rw [(wired.full_recognize input root).mem_completed_iff,
    (wired.full_recognize other root).mem_completed_iff]
  exact ⟨fun completed => completed.of_agrees wired agrees within,
    fun completed => completed.of_agrees wired agrees.symm within⟩

theorem Wired.ends_of_agrees (wired : g.Wired) (agrees : input.AgreesUpTo other offset)
    (root symbol : Symbol) (start : Nat) :
    ((g.recognize input root).value.ends symbol start).filter (· ≤ offset) =
      ((g.recognize other root).value.ends symbol start).filter (· ≤ offset) := by
  apply ((Chart.ascending_ends _ _ _).filter _).eq_of_mem_iff
    ((Chart.ascending_ends _ _ _).filter _)
  intro stop
  unfold Chart.ends
  rw [List.mem_filter, List.mem_filter, Std.TreeSet.mem_toList, Std.TreeSet.mem_toList,
    (wired.full_recognize input root).mem_results_iff,
    (wired.full_recognize other root).mem_results_iff, decide_eq_true_eq]
  refine and_congr_left fun within => exists_congr fun p => ?_
  exact ⟨fun completed => completed.of_agrees wired agrees within,
    fun completed => completed.of_agrees wired agrees.symm within⟩

theorem Wired.expectedAt_of_agrees (wired : g.Wired) (agrees : input.AgreesUpTo other offset)
    (root : Symbol) {at_ : Nat} (within : at_ ≤ offset) :
    (g.recognize input root).value.expectedAt g at_ =
      (g.recognize other root).value.expectedAt g at_ := by
  apply (Chart.ascending_expectedAt _ _ _).eq_of_mem_iff (Chart.ascending_expectedAt _ _ _)
  intro symbol
  rw [Chart.mem_expectedAt_iff, Chart.mem_expectedAt_iff]
  refine and_congr_right fun _ => exists_congr fun item => exists_congr fun node => ?_
  constructor
  · rintro ⟨has, rfl, rest⟩
    rw [wired.hasItem_of_agrees agrees root within] at has
    exact ⟨has, rfl, rest⟩
  · rintro ⟨has, rfl, rest⟩
    rw [← wired.hasItem_of_agrees agrees root within] at has
    exact ⟨has, rfl, rest⟩

end Charts

/-- Recognition never looks ahead. Whatever the symbol, the charts of two texts that agree up to an
offset have the same items up to there with the same links to them, the same ends and the same
completed productions, and await the same terminals at each offset. -/
theorem recognize_agrees_upTo {start : Symbol} {script : List Declaration} {g : Grammar}
    (built : (Grammar.ofScript start script).value = .ok g) (root : Symbol) {input other : Input}
    {offset : Nat} (agrees : input.AgreesUpTo other offset) :
    let chart := (g.recognize input root).value
    let chartOther := (g.recognize other root).value
    (∀ item : Item, item.pos ≤ offset → chart.hasItem item = chartOther.hasItem item ∧
      chart.links item = chartOther.links item) ∧
    (∀ symbol begin, (chart.ends symbol begin).filter (· ≤ offset) =
      (chartOther.ends symbol begin).filter (· ≤ offset)) ∧
    (∀ constituent : Constituent, constituent.span.stop ≤ offset →
      chart.completed constituent = chartOther.completed constituent) ∧
    ∀ at_ ≤ offset, chart.expectedAt g at_ = chartOther.expectedAt g at_ := by
  intro chart chartOther
  have wired := Wired.of_script built
  refine ⟨fun item within => ⟨?_, ?_⟩, ?_, ?_, ?_⟩
  · exact wired.hasItem_of_agrees agrees root within
  · exact wired.links_of_agrees agrees root within
  · exact wired.ends_of_agrees agrees root
  · exact fun constituent => wired.completed_of_agrees agrees root
  · exact fun at_ => wired.expectedAt_of_agrees agrees root

/-- `S ::= {A "b"}+` and `A ::= "a"`: the texts `abab` and `abax` agree up to offset 3, where both
charts await the separator. One character further on, only the first has anything to await. -/
theorem recognize_agrees_upTo_separatedPlus : ∃ g,
    (Grammar.ofScript (.nonTerminal "S") Example.separatedPlus).value = .ok g ∧
    let chart := (g.recognize (.ofString "abab") (.nonTerminal "S")).value
    let chartOther := (g.recognize (.ofString "abax") (.nonTerminal "S")).value
    Input.AgreesUpTo (.ofString "abab") (.ofString "abax") 3 ∧
    (∀ item : Item, item.pos ≤ 3 → chart.links item = chartOther.links item) ∧
    chart.expectedAt g 3 = [.literal "b"] ∧ chartOther.expectedAt g 3 = [.literal "b"] ∧
    chart.expectedAt g 4 = [.literal "a"] ∧ chartOther.expectedAt g 4 = [] := by
  obtain ⟨g, built, tested⟩ := exists_of_script (.nonTerminal "S") Example.separatedPlus
    (fun g =>
      let chart := (g.recognize (.ofString "abab") (.nonTerminal "S")).value
      let chartOther := (g.recognize (.ofString "abax") (.nonTerminal "S")).value
      decide (chart.expectedAt g 3 = [.literal "b"] ∧ chart.expectedAt g 4 = [.literal "a"] ∧
        chartOther.expectedAt g 4 = []))
    (by decide +kernel)
  obtain ⟨here, after, afterOther⟩ := of_decide_eq_true tested
  have agrees : Input.AgreesUpTo (.ofString "abab") (.ofString "abax") 3 :=
    ⟨by decide, by decide, by decide⟩
  obtain ⟨items, -, -, expected⟩ := recognize_agrees_upTo built (.nonTerminal "S") agrees
  exact ⟨g, built, agrees, fun item within => (items item within).2, here,
    (expected 3 (Nat.le_refl 3)).symm.trans here, after, afterOther⟩

end Grammar

end Scannerless
