import Mathlib.Order.Bounds.Basic
import Scannerless.Proofs.LeftmostDerivations
import Scannerless.Proofs.Policies

/-!
# Rejections

What a rejection says. Its offset is the furthest that a partial leftmost derivation has matched the
text, and its symbols are the terminals that the derivations that have come so far may go on with.

A chart remembers the furthest offset while items are added. `Chart.Keeps` is about properties of
charts that every entry keeps; recognition makes nothing but entries, so that what holds of the empty
chart and is kept holds at the end.
-/

namespace Scannerless

/-! ## What every entry keeps -/

/-- A property of charts that no entry makes false. -/
structure Chart.Keeps (holds : Chart → Prop) : Prop where
  addItem : ∀ {chart : Chart} (item : Item) (link : Option Backlink), holds chart →
    holds (chart.addItem item link).2
  setCall : ∀ {chart : Chart} (site : CallSite) (call : Call), holds chart →
    holds (chart.setCall site call)
  addCompletion : ∀ {chart : Chart} (constituent : Constituent) (p : ProdId), holds chart →
    holds (chart.addCompletion constituent p)

namespace Chart.Keeps

variable {holds : Chart → Prop} {g : Grammar} {input : Input} {r : Recognition} {item : Item}

theorem addAll (keeps : Keeps holds) (arrivals : List Arrival) (before : holds r.chart) :
    holds (r.addAll arrivals).chart := by
  induction arrivals generalizing r with
  | nil => exact before
  | cons arrival rest ih => exact ih (keeps.addItem arrival.1 arrival.2 before)

theorem start (keeps : Keeps holds) (site : CallSite) (before : holds r.chart) :
    holds (r.start g site).chart := by
  rw [Recognition.start_eq]
  split
  · exact before
  · exact keeps.addAll _ (keeps.setCall site {} before)

theorem call (keeps : Keeps holds) (site : CallSite) (before : holds r.chart) :
    holds (r.call g site item).chart := by
  have started : holds (r.start g site).chart := keeps.start site before
  rw [Recognition.call_eq]
  split
  · exact started
  · exact keeps.addAll _ (keeps.setCall site _ started)

theorem complete (keeps : Keeps holds) (before : holds r.chart) :
    holds (r.complete g item).chart := by
  cases found : g.prod? item.state.prod with
  | none =>
    unfold Recognition.complete
    rw [found]
    exact before
  | some entry =>
    have noted := keeps.addCompletion ⟨entry.production.lhs, ⟨item.origin, item.pos⟩⟩
      item.state.prod before
    rw [Recognition.complete_eq r found]
    split
    · exact noted
    · exact keeps.addAll _ (keeps.setCall _ _ noted)

theorem completeEmpty (keeps : Keeps holds) (before : holds r.chart) :
    holds (r.completeEmpty g item).chart := by
  unfold Recognition.completeEmpty
  split
  · exact keeps.addItem _ _ before
  · exact before

theorem process (keeps : Keeps holds) (before : holds r.chart) :
    holds (r.process g input item).chart := by
  unfold Recognition.process
  split
  · exact keeps.complete before
  have same : holds (r.completeEmpty g item).chart := keeps.completeEmpty before
  dsimp only
  split
  · exact same
  split
  · rw [Recognition.resume_eq]
    exact keeps.addAll _ same
  · exact same
  · exact keeps.call _ same

theorem run (keeps : Keeps holds) (items : Nat) (before : holds r.chart) :
    holds (Recognition.run g input items r).chart := by
  induction items generalizing r with
  | zero => exact before
  | succ items ih =>
    unfold Recognition.run
    split
    · exact before
    · exact ih (keeps.process before)

theorem recognize (keeps : Keeps holds) (empty : holds {}) (root : Symbol) :
    holds (g.recognize input root).value := by
  unfold Grammar.recognize Grammar.recognition
  dsimp only
  split
  · exact keeps.run _ (keeps.start _ empty)
  · exact empty

end Chart.Keeps

/-! ## The furthest offset -/

namespace Chart

/-- No item of the chart has reached further than the furthest offset, which is that of an item
unless it is the start of the text. -/
structure Marked (chart : Chart) : Prop where
  le : ∀ {item : Item}, chart.hasItem item = true → item.pos ≤ chart.furthest
  attained : chart.furthest = 0 ∨ ∃ item, chart.hasItem item = true ∧ item.pos = chart.furthest

theorem keeps_marked : Keeps Marked where
  addItem := by
    intro chart item link marked
    have furthest : (chart.addItem item link).2.furthest = max chart.furthest item.pos := rfl
    constructor
    · intro other has
      rw [furthest]
      rcases hasItem_addItem.1 has with old | rfl
      · exact Nat.le_trans (marked.le old) (Nat.le_max_left _ _)
      · exact Nat.le_max_right _ _
    · rw [furthest]
      rcases Nat.le_total chart.furthest item.pos with further | nearer
      · rw [Nat.max_eq_right further]
        exact .inr ⟨item, hasItem_addItem.2 (.inr rfl), rfl⟩
      · rw [Nat.max_eq_left nearer]
        exact marked.attained.imp_right fun ⟨other, has, pos_eq⟩ =>
          ⟨other, hasItem_addItem.2 (.inl has), pos_eq⟩
  setCall _ _ marked := ⟨marked.le, marked.attained⟩
  addCompletion _ _ marked := ⟨marked.le, marked.attained⟩

theorem marked_recognize (g : Grammar) (input : Input) (root : Symbol) :
    (g.recognize input root).value.Marked :=
  keeps_marked.recognize ⟨by simp [hasItem], .inl rfl⟩ root

variable {g : Grammar} {chart : Chart} {item : Item} {symbol : Symbol}

theorem awaited?_eq_some_iff : awaited? g item = some symbol ↔
    symbol.isTerminal = true ∧ ∃ node, item.state.next? g = some node ∧ node.symbol = symbol := by
  unfold awaited?
  cases item.state.next? g with
  | none => simp
  | some node =>
    dsimp only
    rw [StackNode.isTerminal]
    split
    · next terminal =>
      constructor
      · rintro ⟨⟩
        exact ⟨terminal, node, rfl, rfl⟩
      · rintro ⟨-, other, ⟨⟩, rfl⟩
        rfl
    · next nonTerminal =>
      constructor
      · rintro ⟨⟩
      · rintro ⟨terminal, other, ⟨⟩, rfl⟩
        exact absurd terminal nonTerminal

theorem mem_expectedAt_iff {offset : Nat} : symbol ∈ chart.expectedAt g offset ↔
    symbol.isTerminal = true ∧ ∃ item node, chart.hasItem item = true ∧ item.pos = offset ∧
      item.state.next? g = some node ∧ node.symbol = symbol := by
  unfold expectedAt hasItem
  rw [Std.TreeSet.mem_toList, Std.TreeSet.mem_ofList, List.contains_iff_mem, List.mem_filterMap]
  simp only [List.mem_filter, Std.TreeMap.mem_keys, Std.TreeMap.mem_iff_contains, beq_iff_eq,
    awaited?_eq_some_iff]
  constructor
  · rintro ⟨item, ⟨has, pos_eq⟩, terminal, node, due, symbol_eq⟩
    exact ⟨terminal, item, node, has, pos_eq, due, symbol_eq⟩
  · rintro ⟨terminal, item, node, has, pos_eq, due, symbol_eq⟩
    exact ⟨item, ⟨has, pos_eq⟩, terminal, node, due, symbol_eq⟩

theorem nodup_expectedAt (g : Grammar) (chart : Chart) (offset : Nat) :
    (chart.expectedAt g offset).Nodup := by
  unfold expectedAt
  refine List.Pairwise.imp (fun {first second} different same => ?_) Std.TreeSet.distinct_toList
  exact different (Std.LawfulEqOrd.compare_eq_iff_eq.2 same)

end Chart

namespace Grammar

/-! ## What a rejection says -/

section Rejections

variable {g : Grammar} {policy : OnAmbiguity} {symbol : Symbol} {text : String}
  {rejection : Rejection}

/-- A rejection comes from recognition: what recognition accepts is not rejected. -/
theorem Wired.rejected_iff (wired : g.Wired) :
    (g.parseSymbol policy symbol text).value = .error (.rejected rejection) ↔
      (g.recognize (Input.ofString text) symbol).value.accepts symbol
          (Input.ofString text).length = false ∧
        rejection = (g.recognize (Input.ofString text) symbol).value.rejection g symbol := by
  cases accepts : (g.recognize (Input.ofString text) symbol).value.accepts symbol
      (Input.ofString text).length with
  | false =>
    rw [parseSymbol_of_rejected accepts]
    simp [eq_comm]
  | true =>
    refine iff_of_false (fun rejected => ?_) (fun rejects => by cases rejects.1)
    obtain ⟨root, packed, -, -⟩ := wired.exists_pack_of_accepts accepts
    obtain ⟨kept, refused_of_none, refused_of_some⟩ := parseSymbol_of_accepted accepts packed
    cases policy with
    | keep => cases kept.symm.trans rejected
    | refuse =>
      cases ambiguous : root.ambiguity? with
      | none => cases (refused_of_none ambiguous).symm.trans rejected
      | some found => cases (refused_of_some ambiguous).symm.trans rejected

theorem recognize_of_undefined (undefined_ : g.isDefined symbol = false) (input : Input) :
    (g.recognize input symbol).value = {} := by
  unfold recognize recognition
  rw [undefined_]
  rfl

/-- The furthest offset of the chart is the furthest that a partial derivation has matched. -/
theorem Wired.isGreatest_furthest (wired : g.Wired) (defined : g.isDefined symbol = true)
    (input : Input) :
    IsGreatest {offset | ∃ rest, g.Leads input [symbol] 0 offset rest}
      (g.recognize input symbol).value.furthest := by
  have full := wired.full_recognize input symbol
  have marked := Chart.marked_recognize g input symbol
  constructor
  · rcases marked.attained with start | ⟨item, has, pos_eq⟩
    · rw [Set.mem_ofPred_eq, start]
      exact ⟨_, .refl (Nat.zero_le _) _⟩
    · exact (exists_leads_iff wired defined).2 ⟨item, full.hasItem_iff.1 has, pos_eq⟩
  · rintro offset leads
    obtain ⟨item, reached, rfl⟩ := (exists_leads_iff wired defined).1 leads
    exact marked.le (full.hasItem_iff.2 reached)

/-- The expected terminals are those that partial derivations are to go on with. -/
theorem Wired.mem_expectedAt_iff (wired : g.Wired) (defined : g.isDefined symbol = true)
    {input : Input} {offset : Nat} {terminal : Symbol} :
    terminal ∈ (g.recognize input symbol).value.expectedAt g offset ↔
      terminal.isTerminal = true ∧ ∃ rest, g.Leads input [symbol] 0 offset (terminal :: rest) := by
  rw [Chart.mem_expectedAt_iff]
  refine and_congr_right fun isTerminal => ?_
  rw [exists_leads_cons_iff wired defined isTerminal]
  simp only [(wired.full_recognize input symbol).hasItem_iff]

end Rejections

/-- A rejection is exact. Its offset is the furthest that a partial leftmost derivation of the symbol
has matched the text, and its expected symbols are the terminals that one that has matched the text
so far is to go on with; none of them matches a character there. Of a symbol without productions
there is no derivation, and the rejection says so by expecting nothing where the text begins. -/
theorem rejection_exact {start : Symbol} {script : List Declaration} {g : Grammar}
    (built : (Grammar.ofScript start script).value = .ok g) (symbol : Symbol)
    (policy : OnAmbiguity) (text : String) :
    let input := Input.ofString text
    (g.isDefined symbol = true → ∀ rejection : Rejection,
      (g.parseSymbol policy symbol text).value = .error (.rejected rejection) →
        rejection.symbol = symbol ∧
        IsGreatest {offset | ∃ rest, g.Leads input [symbol] 0 offset rest} rejection.offset ∧
        (∀ terminal : Symbol, terminal ∈ rejection.expected ↔ terminal.isTerminal = true ∧
          ∃ rest, g.Leads input [symbol] 0 rejection.offset (terminal :: rest)) ∧
        rejection.expected.Nodup ∧
        rejection.offset ≤ input.length ∧
        ∀ terminal ∈ rejection.expected, ∀ stop : Nat,
          terminal.scan? input rejection.offset = some stop → stop = rejection.offset) ∧
    (g.isDefined symbol = false →
      (g.parseSymbol policy symbol text).value = .error (.rejected ⟨symbol, 0, []⟩)) := by
  intro input
  have wired := Wired.of_script built
  constructor
  · intro defined rejection rejected
    obtain ⟨-, rfl⟩ := wired.rejected_iff.1 rejected
    have greatest := wired.isGreatest_furthest defined input
    refine ⟨rfl, greatest, fun _ => wired.mem_expectedAt_iff defined,
      Chart.nodup_expectedAt _ _ _, ?_, ?_⟩
    · obtain ⟨⟨rest, front, -, scans⟩, -⟩ := greatest
      exact (scans.spans (g := g)).bounds.2
    · intro terminal member stop scanned
      obtain ⟨-, rest, leads⟩ := (wired.mem_expectedAt_iff defined).1 member
      have further : stop ≤ _ := greatest.2 ⟨rest, leads.trans (.scan scanned rest)⟩
      exact Nat.le_antisymm further (Symbol.scan_bounds scanned).1
  · intro undefined_
    have empty := recognize_of_undefined undefined_ input
    have rejects : (g.recognize input symbol).value.accepts symbol input.length = false := by
      rw [empty]
      rfl
    rw [parseSymbol_of_rejected rejects, empty]
    rfl

/-- `S ::= {A "b"}+` and `A ::= "a"`: the text `abx` is matched up to its `x`, where another `A` is
due and within it the literal `a`. -/
theorem rejection_exact_separatedPlus : ∃ g,
    (Grammar.ofScript (.nonTerminal "S") Example.separatedPlus).value = .ok g ∧
    (g.parseSymbol .keep (.nonTerminal "S") "abx").value =
      .error (.rejected ⟨.nonTerminal "S", 2, [.literal "a"]⟩) ∧
    IsGreatest {offset | ∃ rest, g.Leads (Input.ofString "abx") [.nonTerminal "S"] 0 offset rest} 2 ∧
    (∃ rest, g.Leads (Input.ofString "abx") [.nonTerminal "S"] 0 2 (.literal "a" :: rest)) ∧
    (g.parseSymbol .keep (.nonTerminal "T") "abx").value =
      .error (.rejected ⟨.nonTerminal "T", 0, []⟩) := by
  obtain ⟨g, built, tested⟩ := exists_of_script (.nonTerminal "S") Example.separatedPlus
    (fun g => g.isDefined (.nonTerminal "S") && !g.isDefined (.nonTerminal "T") &&
      match (g.parseSymbol .keep (.nonTerminal "S") "abx").value with
      | .error (.rejected rejection) => rejection == ⟨.nonTerminal "S", 2, [.literal "a"]⟩
      | _ => false)
    (by decide +kernel)
  rw [Bool.and_eq_true, Bool.and_eq_true, Bool.not_eq_true'] at tested
  obtain ⟨⟨defined, undefined_⟩, rejects⟩ := tested
  obtain ⟨exact_, -⟩ := rejection_exact built (.nonTerminal "S") .keep "abx"
  split at rejects
  · next rejection rejected =>
    obtain rfl := eq_of_beq rejects
    obtain ⟨-, greatest, expected, -⟩ := exact_ defined _ rejected
    have literal := (expected (.literal "a")).1 (List.mem_singleton_self _)
    exact ⟨g, built, rejected, greatest, literal.2,
      (rejection_exact built (.nonTerminal "T") .keep "abx").2 undefined_⟩
  · cases rejects

end Grammar

end Scannerless
