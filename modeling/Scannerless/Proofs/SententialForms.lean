import Scannerless.Proofs.BreadthFirst
import Scannerless.Proofs.EndOfInput

/-!
# Sentential forms

The sequences of symbols that come up in derivations of the start symbol, and the symbols in them.
A symbol comes up just if the start symbol leads to it by reference, production by production, and
that is what the search for reachable symbols follows by way of the wired nodes.
-/

namespace Scannerless

/-- Each symbol on a right-hand side occurs in something that the production stands for. -/
theorem Production.exists_expands_of_mem {production : Production} {part : Symbol}
    (member : part ∈ production.rhs) : ∃ body, production.Expands body ∧ part ∈ body := by
  cases kind : production.kind with
  | sequence => exact ⟨_, .sequence kind, member⟩
  | list repetition =>
    refine ⟨_, .list kind 1, ?_⟩
    rw [unroll_succ]
    exact List.mem_append_left _ member

namespace Grammar

/-- One step of a derivation: some symbol is replaced by what a production of it stands for. -/
inductive DerivationStep (g : Grammar) : List Symbol → List Symbol → Prop
  | expand {p : ProdId} {entry : WiredProduction} {front body rest : List Symbol}
    (found : g.prod? p = some entry) (expands : entry.production.Expands body) :
    DerivationStep g (front ++ entry.production.lhs :: rest) (front ++ (body ++ rest))

/-- A sequence of symbols that can be derived from the start symbol. -/
def SententialForm (g : Grammar) (form : List Symbol) : Prop :=
  Relation.ReflTransGen g.DerivationStep [g.start] form

variable {g : Grammar} {symbol part : Symbol} {form : List Symbol}

/-! ## Symbols in derivations -/

/-- What comes up in a derivation, the start symbol leads to by reference. -/
theorem SententialForm.refers (derived : g.SententialForm form) :
    ∀ symbol ∈ form, Relation.ReflTransGen g.Refers g.start symbol := by
  induction derived with
  | refl =>
    intro symbol member
    rw [List.mem_singleton.1 member]
  | tail _ step ih =>
    cases step with
    | @expand p entry front body rest found expands =>
      intro symbol member
      have before : Relation.ReflTransGen g.Refers g.start entry.production.lhs :=
        ih _ (List.mem_append_right _ List.mem_cons_self)
      rcases List.mem_append.1 member with inFront | later
      · exact ih symbol (List.mem_append_left _ inFront)
      · rcases List.mem_append.1 later with inBody | inRest
        · exact before.tail ⟨p, entry, found, rfl, expands.mem_rhs inBody⟩
        · exact ih symbol (List.mem_append_right _ (List.mem_cons_of_mem _ inRest))

/-- What the start symbol leads to by reference comes up in a derivation. -/
theorem exists_sententialForm (refers : Relation.ReflTransGen g.Refers g.start symbol) :
    ∃ form, g.SententialForm form ∧ symbol ∈ form := by
  induction refers with
  | refl => exact ⟨[g.start], .refl, List.mem_cons_self⟩
  | @tail symbol part _ refers ih =>
    obtain ⟨p, entry, found, rfl, inRhs⟩ := refers
    obtain ⟨form, derived, member⟩ := ih
    obtain ⟨front, rest, rfl⟩ := List.append_of_mem member
    obtain ⟨body, expands, inBody⟩ := Production.exists_expands_of_mem inRhs
    refine ⟨front ++ (body ++ rest), derived.tail (.expand found expands), ?_⟩
    exact List.mem_append_right _ (List.mem_append_left _ inBody)

/-! ## The search -/

/-- The nodes wired to a production lead to the symbols on its right-hand side. -/
theorem Wired.mem_symbolsUsed (wired : g.Wired) :
    part ∈ g.symbolsUsed symbol ↔ g.Refers symbol part := by
  have used {p : ProdId} {entry : WiredProduction} (found : g.prod? p = some entry) :
      (g.wiring p).filterMap g.symbolAt? = entry.production.rhs := by
    have fits : entry.wiring.map g.symbolAt? = entry.production.rhs.map some := wired.fits found
    rw [wiring_of_prod found, ← Function.id_comp g.symbolAt?, ← List.filterMap_map, fits,
      List.filterMap_map]
    exact List.filterMap_some
  unfold symbolsUsed
  rw [List.mem_flatMap]
  constructor
  · rintro ⟨p, defines, member⟩
    obtain ⟨entry, found, lhs⟩ := wired.mem_prodsFor.1 defines
    exact ⟨p, entry, found, lhs, used found ▸ member⟩
  · rintro ⟨p, entry, found, lhs, member⟩
    exact ⟨p, wired.mem_prodsFor.2 ⟨entry, found, lhs⟩, used found ▸ member⟩

theorem Wired.reached_iff (wired : g.Wired) : Closure.Reached [g.start] g.symbolsUsed symbol ↔
    Relation.ReflTransGen g.Refers g.start symbol := by
  have same : (fun symbol part => part ∈ g.symbolsUsed symbol) = g.Refers := by
    funext symbol part
    exact propext wired.mem_symbolsUsed
  unfold Closure.Reached
  rw [same]
  simp only [List.mem_singleton, exists_eq_left]

/-- All symbols that the search can reach but the start symbol are those of nodes. -/
theorem reached_subset (g : Grammar) :
    {symbol | Closure.Reached [g.start] g.symbolsUsed symbol} ⊆
      {symbol | symbol ∈ g.start :: g.nodes.toList.map fun entry => entry.2.symbol} := by
  rintro symbol ⟨first, isStart, path⟩
  cases path with
  | refl => exact List.mem_cons.2 (.inl (List.mem_singleton.1 isStart))
  | tail _ isNext =>
    unfold symbolsUsed at isNext
    obtain ⟨p, -, member⟩ := List.mem_flatMap.1 isNext
    obtain ⟨id, -, stands⟩ := List.mem_filterMap.1 member
    obtain ⟨node, found, rfl⟩ := Option.map_eq_some_iff.1 stands
    refine List.mem_cons_of_mem _ (List.mem_map.2 ⟨(id, node), ?_, rfl⟩)
    exact Std.TreeMap.mem_toList_iff_getElem?_eq_some.2 found

/-- The search for reachable symbols comes to its end: it has a level for each node, and one for the
start symbol. -/
theorem ends_reach (g : Grammar) :
    Closure.Ends g.symbolsUsed (.ofList [g.start]) ⟨.ofList [g.start], #[]⟩ g.reach := by
  have finite := List.finite_toSet (g.start :: g.nodes.toList.map fun entry => entry.2.symbol)
  refine Closure.ends_closure (finite.subset g.reached_subset) ?_
  calc {symbol | Closure.Reached [g.start] g.symbolsUsed symbol}.ncard
      ≤ {symbol | symbol ∈ g.start :: g.nodes.toList.map fun entry => entry.2.symbol}.ncard :=
        Set.ncard_le_ncard g.reached_subset finite
    _ ≤ (g.start :: g.nodes.toList.map fun entry => entry.2.symbol).length := by
        rw [← List.coe_toFinset, Set.ncard_coe_finset]
        exact List.toFinset_card_le _
    _ = g.nodes.size + 1 := by
        rw [List.length_cons, List.length_map, Std.TreeMap.length_toList]

/-- A breadth-first search over finitely many values comes to its end. It has then found the least
set that has the initial values and is closed under steps, and has stepped each member once; how
many levels it is allowed makes no difference if there is one for each value. So the symbols that
are reachable in a grammar are those that come up in derivations of the start symbol. -/
theorem reachable_exact :
    (∀ {α : Type} [Ord α] [Std.TransOrd α] [Std.LawfulEqOrd α] (initial : List α)
      (step : α → List α), {value | Closure.Reached initial step value}.Finite →
      ∃ result : Closure α,
        Closure.Ends step (.ofList initial) ⟨.ofList initial, #[]⟩ result ∧
        (∀ levels, {value | Closure.Reached initial step value}.ncard ≤ levels →
          closure levels initial step = result) ∧
        IsLeast {values : Set α | (∀ value ∈ initial, value ∈ values) ∧
          ∀ value ∈ values, ∀ next ∈ step value, next ∈ values} {value | value ∈ result.seen} ∧
        result.stepped.toList.Nodup ∧
        ∀ value, value ∈ result.stepped.toList ↔ value ∈ result.seen) ∧
    ∀ {start : Symbol} {script : List Declaration} {g : Grammar},
      (Grammar.ofScript start script).value = .ok g →
      Closure.Ends g.symbolsUsed (.ofList [g.start]) ⟨.ofList [g.start], #[]⟩ g.reach ∧
      ∀ symbol, symbol ∈ g.reachable ↔ ∃ form, g.SententialForm form ∧ symbol ∈ form := by
  constructor
  · intro α _ _ _ initial step finite
    have ends := Closure.ends_closure finite (Nat.le_refl _)
    obtain ⟨least, once, stepped, -⟩ := ends.exact
    exact ⟨_, ends, fun levels enough => (Closure.ends_closure finite enough).unique ends, least,
      once, stepped⟩
  · intro start script g built
    have wired := Wired.of_script built
    refine ⟨g.ends_reach, fun symbol => ?_⟩
    have seen_iff : symbol ∈ g.reachable ↔ Closure.Reached [g.start] g.symbolsUsed symbol :=
      g.ends_reach.exact.2.2.2 symbol
    rw [seen_iff, wired.reached_iff]
    constructor
    · exact exists_sententialForm
    · rintro ⟨form, derived, member⟩
      exact derived.refers symbol member

/-- Each number below four steps to the next one. -/
def upToFour (n : Nat) : List Nat :=
  if n < 4 then [n + 1] else []

/-- From one on, four numbers are reached. And in the list `S ::= {A "b"}+` the separator is
reachable, so it comes up in a derivation of `S`. -/
theorem reachable_exact_separatedPlus :
    {value | Closure.Reached [1] upToFour value}.Finite ∧
    (∃ result, Closure.Ends upToFour (.ofList [1]) ⟨.ofList [1], #[]⟩ result ∧
      result.stepped.toList.Nodup ∧ 1 ∈ result.seen) ∧
    ∃ g, (Grammar.ofScript (.nonTerminal "S") Example.separatedPlus).value = .ok g ∧
      ∃ form, g.SententialForm form ∧ .literal "b" ∈ form := by
  have finite : {value | Closure.Reached [1] upToFour value}.Finite := by
    refine (Set.finite_le_nat 4).subset ?_
    rintro value ⟨first, isFirst, path⟩
    induction path with
    | refl => simp [List.mem_singleton.1 isFirst]
    | tail _ isNext _ =>
      unfold upToFour at isNext
      split at isNext
      · rw [List.mem_singleton.1 isNext]
        exact Nat.succ_le_of_lt ‹_›
      · cases isNext
  obtain ⟨result, ends, -, least, once, -⟩ := reachable_exact.1 [1] upToFour finite
  obtain ⟨g, built, tested⟩ := exists_of_script (.nonTerminal "S") Example.separatedPlus
    (fun g => g.reachable.contains (.literal "b")) (by decide +kernel)
  exact ⟨finite, ⟨result, ends, once, least.1.1 1 List.mem_cons_self⟩, g, built,
    ((reachable_exact.2 built).2 _).1 (Std.TreeSet.mem_iff_contains.2 tested)⟩

end Grammar

end Scannerless
