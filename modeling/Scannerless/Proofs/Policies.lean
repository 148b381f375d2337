import Scannerless.Grammar.Example
import Scannerless.Parsing
import Scannerless.Proofs.TreeCount

/-!
# What to do with an ambiguity

Parsing a text and keeping its ambiguities fails just if recognition does not accept the text: what
is accepted can be packed. Parsing it and refusing them fails on the same texts, and gives the same
forest if there is a single tree. Otherwise it names the first ambiguity of the forest that would
have been kept.
-/

namespace Scannerless

namespace Grammar

section Outcomes

variable {g : Grammar} {policy : OnAmbiguity} {symbol : Symbol} {text : String}

theorem parseSymbol_of_rejected
    (rejects : (g.recognize (Input.ofString text) symbol).value.accepts symbol
      (Input.ofString text).length = false) :
    (g.parseSymbol policy symbol text).value =
      .error (.rejected ((g.recognize (Input.ofString text) symbol).value.rejection g symbol)) := by
  unfold parseSymbol recognizeAll
  simp only [bind, pure]
  rw [rejects]
  rfl

theorem parseSymbol_eq_forestOf
    (accepts : (g.recognize (Input.ofString text) symbol).value.accepts symbol
      (Input.ofString text).length = true) :
    (g.parseSymbol policy symbol text).value = (g.forestOf policy symbol (Input.ofString text)
      (g.recognize (Input.ofString text) symbol).value).value := by
  unfold parseSymbol recognizeAll
  simp only [bind, pure]
  rw [accepts]
  rfl

/-- A forest is kept as it is, and refused for its first ambiguity. -/
theorem parseSymbol_of_accepted
    (accepts : (g.recognize (Input.ofString text) symbol).value.accepts symbol
      (Input.ofString text).length = true) {root : Node}
    (packed : (Packing.pack g (Input.ofString text) (g.recognize (Input.ofString text) symbol).value
      ⟨symbol, ⟨0, (Input.ofString text).length⟩⟩ {}).1 = some root) :
    (g.parseSymbol .keep symbol text).value = .ok root ∧
      (root.ambiguity? = none → (g.parseSymbol .refuse symbol text).value = .ok root) ∧
      ∀ {found : AmbiguityFound}, root.ambiguity? = some found →
        (g.parseSymbol .refuse symbol text).value = .error (.ambiguous found) := by
  simp only [parseSymbol_eq_forestOf accepts]
  unfold forestOf
  generalize Packing.pack g (Input.ofString text) (g.recognize (Input.ofString text) symbol).value
    ⟨symbol, ⟨0, (Input.ofString text).length⟩⟩ {} = outcome at packed ⊢
  obtain ⟨_, last⟩ := outcome
  obtain rfl : _ = some root := packed
  refine ⟨rfl, fun none_ => ?_, fun some_ => ?_⟩
  · dsimp only
    rw [none_]
  · dsimp only
    rw [some_]

/-- What is accepted can be packed. The forest is sound, and its nodes are told apart by their
ids. -/
theorem Wired.exists_pack_of_accepts (wired : g.Wired) {input : Input} {root symbol : Symbol}
    {stop : Nat} (accepts : (g.recognize input root).value.accepts symbol stop = true) :
    ∃ node, (Packing.pack g input (g.recognize input root).value ⟨symbol, ⟨0, stop⟩⟩ {}).1 =
        some node ∧
      node.FaithfulTo g input ⟨symbol, ⟨0, stop⟩⟩ ∧ node.Identified := by
  have full := wired.full_recognize input root
  unfold Chart.accepts at accepts
  rw [← Std.TreeSet.mem_iff_contains] at accepts
  obtain ⟨p, completed⟩ := full.mem_results_iff.1 accepts
  have called : g.Called input root ⟨symbol, 0⟩ := completed.2.called wired completed.1
  obtain ⟨tree, reduced, constituent_eq⟩ : ∃ tree : Tree, tree.Reduced g input ∧
      tree.constituent = ⟨symbol, ⟨0, stop⟩⟩ := Called.exists_reduced wired called ⟨p, completed⟩
  have packs : Packs g input root (fun _ => False) ⟨symbol, ⟨0, stop⟩⟩
      (Packing.pack g input (g.recognize input root).value ⟨symbol, ⟨0, stop⟩⟩ {}).1 :=
    Packing.packs_of_called wired full [] called
  obtain ⟨node, packed, -⟩ :=
    packs.complete (fun _ => called) reduced constituent_eq fun isCut => isCut.elim
  obtain ⟨-, registry, all⟩ := Packing.regular_of_pack wired full [] packed
  exact ⟨node, packed, packs.faithful packed, Packing.identified_of_regular all⟩

/-- The forest of a parsed text is what is packed for it, whatever the policy. -/
theorem Wired.packed_of_parsed (wired : g.Wired) {root : Node}
    (parsed : (g.parseSymbol policy symbol text).value = .ok root) :
    (Packing.pack g (Input.ofString text) (g.recognize (Input.ofString text) symbol).value
      ⟨symbol, ⟨0, (Input.ofString text).length⟩⟩ {}).1 = some root := by
  cases accepts : (g.recognize (Input.ofString text) symbol).value.accepts symbol
      (Input.ofString text).length with
  | false =>
    rw [parseSymbol_of_rejected accepts] at parsed
    cases parsed
  | true =>
    obtain ⟨node, packed, -⟩ := wired.exists_pack_of_accepts accepts
    obtain ⟨kept, of_none, of_some⟩ := parseSymbol_of_accepted accepts packed
    cases policy with
    | keep =>
      rw [kept] at parsed
      cases parsed
      exact packed
    | refuse =>
      cases ambiguous : node.ambiguity? with
      | none =>
        rw [of_none ambiguous] at parsed
        cases parsed
        exact packed
      | some found =>
        rw [of_some ambiguous] at parsed
        cases parsed

/-- A parsed text has a sound forest, whatever the policy. -/
theorem Wired.faithful_of_parsed (wired : g.Wired) {root : Node}
    (parsed : (g.parseSymbol policy symbol text).value = .ok root) :
    root.FaithfulTo g (Input.ofString text) ⟨symbol, ⟨0, (Input.ofString text).length⟩⟩ :=
  Packing.faithful_of_pack wired (wired.full_recognize (Input.ofString text) symbol) []
    (wired.packed_of_parsed parsed)

/-- The nodes of the forest of a parsed text are told apart by a registry. -/
theorem Wired.regular_of_parsed (wired : g.Wired) {root : Node}
    (parsed : (g.parseSymbol policy symbol text).value = .ok root) :
    ∃ registry, root.All (Packing.Regular g (g.recognize (Input.ofString text) symbol).value
      (fun _ => False) registry) :=
  (Packing.regular_of_pack wired (wired.full_recognize _ _) [] (wired.packed_of_parsed parsed)).2

end Outcomes

/-- Whatever the symbol and the text, both policies reject just what recognition does not accept,
and for the same reason. Of what is accepted, a forest is kept. It is not refused if it counts a
single tree; if not, the refusal is of the first ambiguity on a walk through the forest, each node
before its parts. -/
theorem parseSymbol_policies_agree {start : Symbol} {script : List Declaration} {g : Grammar}
    (built : (Grammar.ofScript start script).value = .ok g) (symbol : Symbol) (text : String) :
    let input := Input.ofString text
    let chart := (g.recognize input symbol).value
    let kept := (g.parseSymbol .keep symbol text).value
    let refused := (g.parseSymbol .refuse symbol text).value
    (chart.accepts symbol input.length = false →
      kept = .error (.rejected (chart.rejection g symbol)) ∧
      refused = .error (.rejected (chart.rejection g symbol))) ∧
    (chart.accepts symbol input.length = true → ∃ root : Node, kept = .ok root ∧
      (root.count = 1 → refused = .ok root) ∧
      (root.count ≠ 1 → ∃ before first after, root.preorder = before ++ first :: after ∧
        (∀ node ∈ before, node.isAmbiguous = false) ∧ first.isAmbiguous = true ∧
        refused = .error (.ambiguous ⟨first.symbol, first.span⟩))) := by
  intro input chart kept refused
  have wired := Wired.of_script built
  refine ⟨fun rejects => ⟨parseSymbol_of_rejected rejects, parseSymbol_of_rejected rejects⟩,
    fun accepts => ?_⟩
  obtain ⟨root, packed, faithful, identified⟩ := wired.exists_pack_of_accepts accepts
  obtain ⟨kept_eq, refused_of_none, refused_of_some⟩ := parseSymbol_of_accepted accepts packed
  have single : root.count = 1 ↔ root.ambiguity? = none :=
    (Node.count_eq_one_iff identified).trans faithful.length_trees_eq_one_iff
  refine ⟨root, kept_eq, fun one => refused_of_none (single.1 one), fun several => ?_⟩
  · obtain ⟨found, ambiguous⟩ := Option.ne_none_iff_exists'.1 (mt single.2 several)
    have refused_eq := refused_of_some ambiguous
    rw [Node.ambiguity?_eq] at ambiguous
    obtain ⟨first, isFirst, rfl⟩ := Option.map_eq_some_iff.1 ambiguous
    obtain ⟨isAmbiguous, before, after, eq, none_⟩ := List.find?_eq_some_iff_append.1 isFirst
    refine ⟨before, first, after, eq, fun node member => ?_, isAmbiguous, refused_eq⟩
    simpa using none_ node member

/-- `S ::= A | B`, `A ::= "a"` and `B ::= "a"`: the text `a` is refused for the ambiguity of `S`. -/
theorem parseSymbol_policies_agree_ambiguous : ∃ (g : Grammar) (root : Node),
    (Grammar.ofScript (.nonTerminal "S") Example.ambiguous).value = .ok g ∧
      (g.parseSymbol .keep (.nonTerminal "S") "a").value = .ok root ∧ root.count = 2 ∧
      ∃ before first after, root.preorder = before ++ first :: after ∧
        first.isAmbiguous = true ∧
        (g.parseSymbol .refuse (.nonTerminal "S") "a").value =
          .error (.ambiguous ⟨first.symbol, first.span⟩) := by
  obtain ⟨g, built, tested⟩ := exists_of_script (.nonTerminal "S") Example.ambiguous
    (fun g =>
      (g.recognize (Input.ofString "a") (.nonTerminal "S")).value.accepts (.nonTerminal "S")
          (Input.ofString "a").length &&
        match (g.parseSymbol .keep (.nonTerminal "S") "a").value with
        | .ok root => root.count == 2
        | .error _ => false)
    (by decide +kernel)
  rw [Bool.and_eq_true] at tested
  obtain ⟨root, kept, -, several⟩ :=
    (parseSymbol_policies_agree built (.nonTerminal "S") "a").2 tested.1
  have two : root.count = 2 := by
    have counts := tested.2
    rw [kept] at counts
    exact eq_of_beq counts
  obtain ⟨before, first, after, eq, -, isAmbiguous, refused⟩ := several (by omega)
  exact ⟨g, root, built, kept, two, before, first, after, eq, isAmbiguous, refused⟩

end Grammar

end Scannerless
