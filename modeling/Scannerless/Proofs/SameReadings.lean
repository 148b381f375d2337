import Scannerless.Proofs.Readings

/-!
# Nodes that are read the same way

Two interpreters may come to the same reading for different reasons: because one of them only
answers differently where the other never asks, or because one of them finds in place of an
ambiguity what the other keeps of it. In both cases the nodes correspond one by one, and all that has
to be seen is that reading them is the same attempt, with the same value or the same error
(`Interpreter.Alike`). For reductions that follows from their children and from the handlers
(`Interpreter.Corresponding.alike`).
-/

namespace Scannerless

namespace Interpreter

variable {α : Type}

/-- Whether one interpreter does with one node what the other does with the other. -/
structure Alike (interpreter other : Interpreter α) (node counterpart : Node) : Prop where
  isLeaf : node.isLeaf = counterpart.isLeaf
  symbol : node.symbol = counterpart.symbol
  read : interpreter.read node = other.read counterpart
  readLists : interpreter.readLists node = other.readLists counterpart

variable {interpreter other : Interpreter α}

theorem Alike.argument {node counterpart : Node}
    (alike : Alike interpreter other node counterpart) :
    interpreter.argument node = other.argument counterpart := by
  unfold Interpreter.argument
  rw [alike.symbol, alike.read, alike.readLists]

theorem forall₂_inner {nodes others : List Node}
    (each : List.Forall₂ (Alike interpreter other) nodes others) :
    List.Forall₂ (Alike interpreter other) (Node.inner nodes) (Node.inner others) := by
  unfold Node.inner
  refine List.rel_filter (fun node counterpart alike => ?_) each
  dsimp only
  rw [alike.isLeaf]

/-- Two reductions by one production, the parts of which correspond. -/
structure SameParts (interpreter other : Interpreter α) (tag : String)
    (node counterpart : Node) : Prop where
  tagged : node.tag? = some tag
  taggedToo : counterpart.tag? = some tag
  symbol : node.symbol = counterpart.symbol
  span : node.span = counterpart.span
  attributes : interpreter.attributes tag = other.attributes tag
  children : List.Forall₂ (Alike interpreter other) node.children counterpart.children
  elements : Option.Rel
    (fun parts others => List.Forall₂ (Alike interpreter other) parts.elements others.elements)
    node.listParts? counterpart.listParts?

/-- Two such reductions for which the handlers, where they are called, give the same answer to the
arguments that they are handed. -/
structure Corresponding (interpreter other : Interpreter α) (tag : String)
    (node counterpart : Node) : Prop extends SameParts interpreter other tag node counterpart where
  answers : (interpreter.attributes tag).sealed = false →
    (interpreter.attributes tag).bracket = false →
    Option.Rel
      (fun handler second => ∀ arguments : List (Argument α),
        Attempt.Gives (interpreter.handed tag node) arguments →
          handler node arguments = second counterpart arguments)
      interpreter.handlers[tag]? other.handlers[tag]?

section Corresponding

variable {tag : String} {node counterpart : Node}

theorem SameParts.handed (same : SameParts interpreter other tag node counterpart) :
    interpreter.handed tag node = other.handed tag counterpart := by
  have arguments := Attempt.mapM_congr
    ((forall₂_inner same.children).imp fun _ _ alike => alike.argument)
  have elements := same.elements
  unfold Interpreter.handed
  rw [same.attributes, arguments]
  generalize node.listParts? = parts at elements ⊢
  generalize counterpart.listParts? = others at elements ⊢
  cases elements with
  | none => rfl
  | some each =>
    dsimp only
    rw [Attempt.mapM_congr (each.imp fun _ _ alike => alike.read)]

theorem Corresponding.read (corresponding : Corresponding interpreter other tag node counterpart) :
    interpreter.read node = other.read counterpart := by
  have inner := forall₂_inner corresponding.children
  have answers := corresponding.answers
  rw [corresponding.attributes] at answers
  rw [interpreter.read_of_tagged corresponding.tagged, other.read_of_tagged corresponding.taggedToo]
  unfold readTagged
  rw [corresponding.attributes, corresponding.span, inner.length_eq,
    Attempt.mapM_congr (inner.imp fun _ _ alike => alike.read)]
  split
  · rfl
  next notSealed =>
  split
  · rfl
  next notBracket =>
  replace answers := answers (Bool.eq_false_iff.2 notSealed) (Bool.eq_false_iff.2 notBracket)
  generalize interpreter.handlers[tag]? = handler at answers ⊢
  generalize other.handlers[tag]? = second at answers ⊢
  cases answers with
  | none => rfl
  | some same =>
    dsimp only
    rw [← corresponding.handed]
    refine Attempt.bind_congr fun arguments given => ?_
    unfold called
    rw [same arguments given, corresponding.span]

theorem Corresponding.expansion
    (corresponding : Corresponding interpreter other tag node counterpart) :
    interpreter.expansion node = other.expansion counterpart := by
  have elements := corresponding.elements
  unfold Interpreter.expansion
  rw [corresponding.read]
  generalize node.listParts? = parts at elements ⊢
  generalize counterpart.listParts? = others at elements ⊢
  cases elements with
  | none => rfl
  | some each => exact Attempt.mapM_congr (each.imp fun _ _ alike => alike.read)

/-- Reductions are read alike if their parts are. -/
theorem Corresponding.alike (corresponding : Corresponding interpreter other tag node counterpart) :
    Alike interpreter other node counterpart where
  isLeaf := by
    rw [Node.isLeaf_of_tagged corresponding.tagged, Node.isLeaf_of_tagged corresponding.taggedToo]
  symbol := corresponding.symbol
  read := corresponding.read
  readLists := by
    rw [interpreter.readLists_of_plain (Node.plain_of_tagged corresponding.tagged),
      other.readLists_of_plain (Node.plain_of_tagged corresponding.taggedToo),
      corresponding.expansion]

end Corresponding

end Interpreter

end Scannerless
