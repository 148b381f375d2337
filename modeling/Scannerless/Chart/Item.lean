import Scannerless.Grammar.Dotted

/-!
# Items

What recognition finds out, piece by piece. An item says that a production, begun at an offset, has
been recognized up to an index and an offset. A match is a node with the span that it matched, and
a backlink says how an item was reached from the item before it. A call site is a symbol to be
recognized from an offset on, and a constituent is a symbol recognized over a span.
-/

namespace Scannerless

/-! ## Items -/

/-- A production that began at `origin` and has been recognized up to `pos`. -/
structure Item where
  pos : Nat
  state : Dotted
  origin : Nat
  deriving DecidableEq

instance : Std.TransOrd Dotted :=
  inferInstanceAs (Std.TransCmp (compareLex (compareOn Dotted.prod) (compareOn Dotted.index)))

instance : Std.LawfulEqOrd Dotted where
  eq_of_compare {a b} h := by
    obtain ⟨hprod, hindex⟩ := Ordering.then_eq_eq.1 h
    cases a
    cases b
    simp only [Dotted.mk.injEq]
    exact ⟨Std.LawfulEqOrd.eq_of_compare hprod, Std.LawfulEqOrd.eq_of_compare hindex⟩

namespace Item

/-- Items compare by the offset reached, then by production and index, then by where they began. -/
def cmp : Item → Item → Ordering :=
  compareLex (compareOn Item.pos) (compareLex (compareOn Item.state) (compareOn Item.origin))

instance : Ord Item where
  compare := cmp

instance : Std.TransOrd Item :=
  inferInstanceAs (Std.TransCmp
    (compareLex (compareOn Item.pos) (compareLex (compareOn Item.state) (compareOn Item.origin))))

instance : Std.LawfulEqOrd Item where
  eq_of_compare {a b} h := by
    obtain ⟨hpos, h⟩ := Ordering.then_eq_eq.1 h
    obtain ⟨hstate, horigin⟩ := Ordering.then_eq_eq.1 h
    cases a
    cases b
    simp only [Item.mk.injEq]
    exact ⟨Std.LawfulEqOrd.eq_of_compare hpos, Std.LawfulEqOrd.eq_of_compare hstate,
      Std.LawfulEqOrd.eq_of_compare horigin⟩

end Item

/-! ## Matches and backlinks -/

/-- A node that has been matched, and the span it was matched over. -/
structure Match where
  node : NodeId
  span : Span
  deriving DecidableEq

namespace Match

/-- Children compare by node, then by span. -/
def cmp : Match → Match → Ordering :=
  compareLex (compareOn Match.node) (compareOn Match.span)

instance : Ord Match where
  compare := cmp

instance : Std.TransOrd Match :=
  inferInstanceAs (Std.TransCmp (compareLex (compareOn Match.node) (compareOn Match.span)))

instance : Std.LawfulEqOrd Match where
  eq_of_compare {a b} h := by
    obtain ⟨hnode, hspan⟩ := Ordering.then_eq_eq.1 h
    cases a
    cases b
    simp only [Match.mk.injEq]
    exact ⟨Std.LawfulEqOrd.eq_of_compare hnode, Std.LawfulEqOrd.eq_of_compare hspan⟩

end Match

/-- A way in which an item was reached: from the item of the same production and origin at
`prevPos` and `prevIndex`, by a match. Without a match, it is the completion of a list
that holds nothing. -/
structure Backlink where
  prevPos : Nat
  prevIndex : Nat
  matched : Option Match
  deriving DecidableEq

namespace Backlink

/-- Links compare by the item they lead back to, then by the match. -/
def cmp : Backlink → Backlink → Ordering :=
  compareLex (compareOn Backlink.prevPos)
    (compareLex (compareOn Backlink.prevIndex) (compareOn Backlink.matched))

instance : Ord Backlink where
  compare := cmp

instance : Std.TransOrd Backlink :=
  inferInstanceAs (Std.TransCmp
    (compareLex (compareOn Backlink.prevPos)
      (compareLex (compareOn Backlink.prevIndex) (compareOn Backlink.matched))))

instance : Std.LawfulEqOrd Backlink where
  eq_of_compare {a b} h := by
    obtain ⟨hpos, h⟩ := Ordering.then_eq_eq.1 h
    obtain ⟨hindex, hmatched⟩ := Ordering.then_eq_eq.1 h
    cases a
    cases b
    simp only [Backlink.mk.injEq]
    exact ⟨Std.LawfulEqOrd.eq_of_compare hpos, Std.LawfulEqOrd.eq_of_compare hindex,
      Std.LawfulEqOrd.eq_of_compare hmatched⟩

end Backlink

/-! ## Call sites and constituents -/

/-- A symbol to be recognized from an offset on. -/
structure CallSite where
  symbol : Symbol
  offset : Nat
  deriving DecidableEq

namespace CallSite

/-- Call sites compare by symbol, then by offset. -/
def cmp : CallSite → CallSite → Ordering :=
  compareLex (compareOn CallSite.symbol) (compareOn CallSite.offset)

instance : Ord CallSite where
  compare := cmp

instance : Std.TransOrd CallSite :=
  inferInstanceAs (Std.TransCmp (compareLex (compareOn CallSite.symbol) (compareOn CallSite.offset)))

instance : Std.LawfulEqOrd CallSite where
  eq_of_compare {a b} h := by
    obtain ⟨hsymbol, hoffset⟩ := Ordering.then_eq_eq.1 h
    cases a
    cases b
    simp only [CallSite.mk.injEq]
    exact ⟨Std.LawfulEqOrd.eq_of_compare hsymbol, Std.LawfulEqOrd.eq_of_compare hoffset⟩

end CallSite

/-- A symbol recognized over a span. -/
structure Constituent where
  symbol : Symbol
  span : Span
  deriving DecidableEq

namespace Constituent

/-- Constituents compare by symbol, then by span. -/
def cmp : Constituent → Constituent → Ordering :=
  compareLex (compareOn Constituent.symbol) (compareOn Constituent.span)

instance : Ord Constituent where
  compare := cmp

instance : Std.TransOrd Constituent :=
  inferInstanceAs (Std.TransCmp
    (compareLex (compareOn Constituent.symbol) (compareOn Constituent.span)))

instance : Std.LawfulEqOrd Constituent where
  eq_of_compare {a b} h := by
    obtain ⟨hsymbol, hspan⟩ := Ordering.then_eq_eq.1 h
    cases a
    cases b
    simp only [Constituent.mk.injEq]
    exact ⟨Std.LawfulEqOrd.eq_of_compare hsymbol, Std.LawfulEqOrd.eq_of_compare hspan⟩

end Constituent

end Scannerless
