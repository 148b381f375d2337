import Scannerless.Proofs.GuardedRecognition
import Scannerless.Proofs.WellFormed

/-!
# The slot automaton

A dotted production knows only its index; where it goes on is kept with the nodes, as sequences of
ids by production, and the index to go on with is told from the length of a sequence.
`Grammar.advance_of_script` says that this is the automaton of `Production.next`: a sequence
production goes from slot to slot, a list goes round and may be complete after an element. No place
is reached twice or left out, whatever ids the nodes have and whichever productions share them, and
the arithmetic on lengths never leaves the slots.
-/

namespace Scannerless

namespace Grammar

variable {g : Grammar} {p : ProdId} {entry : WiredProduction} {index : Nat}

/-- Advancing gives the places that follow a place, that a list is complete before that it goes
on. -/
theorem Wired.advance_eq (wired : g.Wired) (found : g.prod? p = some entry)
    (bound : index < entry.production.arity) :
    Dotted.advance g ⟨p, index⟩ = (entry.production.next index).map (Dotted.mk p) := by
  obtain ⟨node, due, -⟩ := wired.exists_next found (List.getElem?_eq_getElem bound)
  obtain ⟨-, at_, isNode⟩ := wired.rhs_of_next found due
  have known : node.successorsIn p = entry.continuations index :=
    wired.successorsIn_eq found at_ isNode
  unfold Dotted.advance
  rw [due]
  dsimp only
  rw [known, wired.map_before_continuations found bound]

theorem Wired.advance_complete (wired : g.Wired) (found : g.prod? p = some entry) :
    Dotted.advance g (.complete g p) = [] := by
  unfold Dotted.advance Dotted.complete
  rw [wired.slots_eq found, wired.next_eq_none found]

/-- In a grammar that a script describes, a sequence production with so many slots goes from each
slot to the next one. A list goes from its element to its end or to the slot after the element, and
from any other slot to the next one; after the last slot the element is due again. When it is
complete, a production goes nowhere. Advancing fails at no place. -/
theorem advance_of_script {start : Symbol} {script : List Declaration}
    (built : (Grammar.ofScript start script).value = .ok g) (found : g.prod? p = some entry) :
    (∀ index < g.slots p, Dotted.advance g ⟨p, index⟩ =
      match entry.production.kind with
      | .sequence => [⟨p, index + 1⟩]
      | .list _ =>
        if index = 0 then [⟨p, g.slots p⟩, ⟨p, 1 % g.slots p⟩]
        else [⟨p, (index + 1) % g.slots p⟩]) ∧
    Dotted.advance g ⟨p, g.slots p⟩ = [] ∧
    ∀ index ≤ g.slots p,
      Guarded.advance g ⟨p, index⟩ = .ok (Dotted.advance g ⟨p, index⟩) ∧
      ∀ state ∈ Dotted.advance g ⟨p, index⟩, state.index ≤ g.slots p := by
  have wired := Wired.of_script built
  have slots := wired.slots_eq found
  have complete : Dotted.advance g ⟨p, g.slots p⟩ = [] := wired.advance_complete found
  refine ⟨fun index within => ?_, complete, fun index within => ?_⟩
  · rw [slots] at within ⊢
    rw [wired.advance_eq found within]
    unfold Production.next
    cases entry.production.kind with
    | sequence => rfl
    | list repetition =>
      dsimp only
      split
      · rfl
      · rfl
  · refine ⟨Guarded.advance_ok wired found, fun state advances => ?_⟩
    rcases Nat.lt_or_eq_of_le within with before | last
    · rw [slots] at before ⊢
      exact Production.le_arity_of_mem_next before
        ((wired.mem_advance found before).1 advances).2
    · rw [last, complete] at advances
      cases advances

/-- Three productions of one symbol that share the nodes 7 and 3: a list with a separator, a list
without, and a sequence that has them the other way round. -/
def sharedNodes : List Declaration :=
  let a := Symbol.literal "a"
  let comma := Symbol.literal ","
  let s := Symbol.nonTerminal "S"
  [.literal 7 "a",
    .literal 3 ",",
    .wired (Production.ofList "Separated" s a [comma] .plus) [7, 3],
    .wired (Production.ofList "Plain" s a [] .star) [7],
    .wired { label := "Pair", lhs := s, rhs := [comma, a] } [3, 7]]

/-- Each of the productions goes its own way through the nodes that they share. -/
theorem advance_of_script_sharedNodes : ∃ g,
    (Grammar.ofScript (.nonTerminal "S") sharedNodes).value = .ok g ∧
    Dotted.advance g ⟨0, 0⟩ = [⟨0, 2⟩, ⟨0, 1⟩] ∧ Dotted.advance g ⟨0, 1⟩ = [⟨0, 0⟩] ∧
    Dotted.advance g ⟨1, 0⟩ = [⟨1, 1⟩, ⟨1, 0⟩] ∧ Dotted.advance g ⟨1, 1⟩ = [] ∧
    Dotted.advance g ⟨2, 0⟩ = [⟨2, 1⟩] ∧ Dotted.advance g ⟨2, 1⟩ = [⟨2, 2⟩] ∧
    Guarded.advance g ⟨2, 2⟩ = .ok [] := by
  obtain ⟨g, built, tested⟩ := exists_of_script (.nonTerminal "S") sharedNodes
    (fun g =>
      (g.prod? 0).any (fun entry : WiredProduction =>
        decide (entry.production.kind = .list .plus)) &&
      (g.prod? 1).any (fun entry : WiredProduction =>
        decide (entry.production.kind = .list .star)) &&
      (g.prod? 2).any (fun entry : WiredProduction =>
        decide (entry.production.kind = .sequence)) &&
      decide (g.slots 0 = 2 ∧ g.slots 1 = 1 ∧ g.slots 2 = 2))
    (by decide +kernel)
  simp only [Bool.and_eq_true, decide_eq_true_eq, Option.any_eq_true] at tested
  obtain ⟨⟨⟨⟨separated, isSeparated, kind⟩, plain, isPlain, kindPlain⟩, pair, isPair, kindPair⟩,
    slots, slotsPlain, slotsPair⟩ := tested
  obtain ⟨places, -, -⟩ := advance_of_script built isSeparated
  obtain ⟨placesPlain, completePlain, -⟩ := advance_of_script built isPlain
  obtain ⟨placesPair, completePair, safePair⟩ := advance_of_script built isPair
  rw [slots, kind] at places
  rw [slotsPlain, kindPlain] at placesPlain
  rw [slotsPlain] at completePlain
  rw [slotsPair, kindPair] at placesPair
  rw [slotsPair] at completePair safePair
  refine ⟨g, built, places 0 (by decide), places 1 (by decide), placesPlain 0 (by decide),
    completePlain, placesPair 0 (by decide), placesPair 1 (by decide), ?_⟩
  rw [(safePair 2 (Nat.le_refl 2)).1, completePair]

end Grammar

end Scannerless
