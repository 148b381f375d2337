import Scannerless.Proofs.Slots

/-!
# Expansions

The sequences of symbols that a production stands for: a sequence production stands for its
right-hand side, and a list production for its element repeated, with all separators between each
two elements. A star list stands for nothing as well.

`Production.Walks` is a way from place to place of a production, with the symbols read on it.
`Production.expands_iff` says that the expansions are what is read on the ways from the first place
to the completed one.
-/

namespace Scannerless

namespace Production

/-- One element and `more` further ones, with all separators between each two. -/
def unroll (production : Production) (more : Nat) : List Symbol :=
  match production.rhs with
  | [] => []
  | element :: separators =>
    element :: (List.replicate more (separators ++ [element])).flatten

/-- The sequences of symbols that a production stands for. -/
inductive Expands (production : Production) : List Symbol → Prop
  | sequence (kind : production.kind = .sequence) : Expands production production.rhs
  | list {repetition : Repetition} (kind : production.kind = .list repetition) (more : Nat) :
    Expands production (production.unroll more)
  | empty (kind : production.kind = .list .star) : Expands production []

/-- A way from place to place, with the symbols read on it. -/
inductive Walks (production : Production) : Nat → List Symbol → Nat → Prop
  | nil (index : Nat) : Walks production index [] index
  | cons {index after stop : Nat} {symbol : Symbol} {rest : List Symbol}
    (at_ : production.rhs[index]? = some symbol) (next : after ∈ production.next index)
    (walks : Walks production after rest stop) : Walks production index (symbol :: rest) stop

variable {production : Production} {start middle stop : Nat} {symbols others : List Symbol}

theorem Walks.append (first : production.Walks start symbols middle)
    (second : production.Walks middle others stop) :
    production.Walks start (symbols ++ others) stop := by
  induction first with
  | nil => exact second
  | cons at_ next _ ih => exact .cons at_ next (ih second)

theorem Walks.snoc {symbol : Symbol} (first : production.Walks start symbols middle)
    (at_ : production.rhs[middle]? = some symbol) (next : stop ∈ production.next middle) :
    production.Walks start (symbols ++ [symbol]) stop :=
  first.append (.cons at_ next (.nil stop))

theorem Walks.split (walks : production.Walks start (symbols ++ others) stop) :
    ∃ middle, production.Walks start symbols middle ∧ production.Walks middle others stop := by
  induction symbols generalizing start with
  | nil => exact ⟨start, .nil start, walks⟩
  | cons symbol rest ih =>
    cases walks with
    | cons at_ next walks =>
      obtain ⟨middle, first, second⟩ := ih walks
      exact ⟨middle, .cons at_ next first, second⟩

/-- No way leads on from the completed place. -/
theorem Walks.eq_of_complete (walks : production.Walks production.arity symbols stop) :
    symbols = [] ∧ stop = production.arity := by
  cases walks with
  | nil => exact ⟨rfl, rfl⟩
  | cons at_ _ _ =>
    rw [Production.arity, List.getElem?_length] at at_
    cases at_

/-! ## Sequences -/

theorem walks_sequence (kind : production.kind = .sequence) :
    ∀ (left : Nat) {index : Nat}, index + left = production.arity →
      production.Walks index (production.rhs.drop index) production.arity := by
  intro left
  induction left with
  | zero =>
    intro index total
    have index_eq : index = production.arity := total
    rw [index_eq, Production.arity, List.drop_length]
    exact .nil _
  | succ left ih =>
    intro index total
    have bound : index < production.rhs.length := by
      rw [Production.arity] at total
      omega
    rw [List.drop_eq_getElem_cons bound]
    refine .cons (List.getElem?_eq_getElem bound) ?_ (ih (by omega))
    unfold Production.next
    rw [kind]
    exact List.mem_singleton_self _

theorem Walks.eq_drop_of_sequence (kind : production.kind = .sequence)
    (walks : production.Walks start symbols stop) (complete : stop = production.arity) :
    symbols = production.rhs.drop start := by
  induction walks with
  | nil =>
    rw [complete, Production.arity, List.drop_length]
  | cons at_ next _ ih =>
    unfold Production.next at next
    rw [kind, List.mem_singleton] at next
    obtain ⟨bound, eq⟩ := List.getElem?_eq_some_iff.1 at_
    rw [ih complete, next, List.drop_eq_getElem_cons bound, eq]

/-! ## Lists -/

theorem unroll_succ (production : Production) (more : Nat) :
    production.unroll (more + 1) = production.rhs ++ production.unroll more := by
  unfold unroll
  cases production.rhs with
  | nil => rfl
  | cons element separators => simp [List.replicate_succ]

theorem mem_next_of_list {repetition : Repetition} (kind : production.kind = .list repetition)
    (index : Nat) : (index + 1) % production.arity ∈ production.next index := by
  unfold Production.next
  rw [kind]
  by_cases first : index = 0
  · subst first
    simp
  · simp [first]

/-- From any place of a list, the rest of the right-hand side leads back to the element. -/
theorem walks_round {repetition : Repetition} (kind : production.kind = .list repetition) :
    ∀ (left : Nat) {index : Nat}, index + left + 1 = production.arity →
      production.Walks index (production.rhs.drop index) 0 := by
  intro left
  induction left with
  | zero =>
    intro index total
    have bound : index < production.rhs.length := by
      rw [Production.arity] at total
      omega
    have last : production.rhs.drop (index + 1) = [] := by
      apply List.drop_eq_nil_of_le
      rw [Production.arity] at total
      omega
    have next := mem_next_of_list kind index
    rw [show index + 1 = production.arity by omega, Nat.mod_self] at next
    rw [List.drop_eq_getElem_cons bound, last]
    exact .cons (List.getElem?_eq_getElem bound) next (.nil 0)
  | succ left ih =>
    intro index total
    have bound : index < production.rhs.length := by
      rw [Production.arity] at total
      omega
    have next := mem_next_of_list kind index
    rw [Nat.mod_eq_of_lt (by omega)] at next
    rw [List.drop_eq_getElem_cons bound]
    exact .cons (List.getElem?_eq_getElem bound) next (ih (by omega))

theorem unroll_of_rhs_nil (rhs : production.rhs = []) (more : Nat) :
    production.unroll more = [] := by
  unfold unroll
  rw [rhs]

theorem unroll_eq_replicate {element : Symbol} (bare : production.rhs = [element]) (more : Nat) :
    production.unroll more = List.replicate (more + 1) element := by
  unfold unroll
  rw [bare]
  simp [List.replicate_succ]

theorem unroll_zero {symbol : Symbol} (at_ : production.rhs[0]? = some symbol) :
    production.unroll 0 = [symbol] := by
  unfold unroll
  cases rhs : production.rhs with
  | nil =>
    rw [rhs] at at_
    cases at_
  | cons element separators =>
    rw [rhs] at at_
    cases at_
    rfl

theorem walks_unroll {repetition : Repetition} (kind : production.kind = .list repetition)
    (more : Nat) : production.Walks 0 (production.unroll more) production.arity := by
  cases rhs : production.rhs with
  | nil =>
    have none_ : production.arity = 0 := by rw [Production.arity, rhs, List.length_nil]
    rw [none_, unroll_of_rhs_nil rhs]
    exact .nil 0
  | cons element separators =>
    have first : production.rhs[0]? = some element := by
      rw [rhs]
      rfl
    induction more with
    | zero =>
      rw [unroll_zero first]
      refine .cons first ?_ (.nil _)
      unfold Production.next
      rw [kind]
      exact List.mem_cons_self
    | succ more ih =>
      have round : production.Walks 0 (production.rhs.drop 0) 0 :=
        walks_round kind separators.length
          (by rw [Production.arity, rhs, List.length_cons, Nat.zero_add])
      rw [unroll_succ]
      exact round.append ih

/-- The place after a place of a list, if the list goes on. -/
theorem eq_of_mem_next_of_list {repetition : Repetition}
    (kind : production.kind = .list repetition) {index after : Nat}
    (next : after ∈ production.next index) :
    (index = 0 ∧ after = production.arity) ∨ after = (index + 1) % production.arity := by
  unfold Production.next at next
  rw [kind] at next
  dsimp only at next
  split at next
  · next first =>
    subst first
    rcases List.mem_cons.1 next with ends | goesOn
    · exact .inl ⟨rfl, ends⟩
    · exact .inr (List.mem_singleton.1 goesOn)
  · exact .inr (List.mem_singleton.1 next)

/-- What is read from a place of a list up to its completion: the rest of the round, unless the
element is due, and then the list unrolled. -/
theorem Walks.exists_unroll {repetition : Repetition}
    (kind : production.kind = .list repetition) (walks : production.Walks start symbols stop)
    (complete : stop = production.arity) :
    (start = production.arity ∧ symbols = []) ∨
      ∃ more, symbols =
        (if start = 0 then [] else production.rhs.drop start) ++ production.unroll more := by
  induction walks with
  | nil => exact .inl ⟨complete, rfl⟩
  | @cons index after stop symbol rest at_ next walks ih =>
    right
    obtain ⟨bound, eq⟩ := List.getElem?_eq_some_iff.1 at_
    have drop_eq : production.rhs.drop index = symbol :: production.rhs.drop (index + 1) := by
      rw [List.drop_eq_getElem_cons bound, eq]
    rw [← Production.arity] at bound
    rcases eq_of_mem_next_of_list kind next with ⟨rfl, rfl⟩ | goesOn
    · rw [complete] at walks
      refine ⟨0, ?_⟩
      rw [walks.eq_of_complete.1, unroll_zero at_]
      rfl
    · have rest_eq : ∃ more, rest = production.rhs.drop (index + 1) ++ production.unroll more := by
        by_cases last : index + 1 = production.arity
        · rw [last, Nat.mod_self] at goesOn
          rcases ih complete with ⟨none_, -⟩ | ⟨more, eq⟩
          · omega
          · rw [if_pos goesOn] at eq
            refine ⟨more, ?_⟩
            rw [last, Production.arity, List.drop_length, eq]
        · rw [Nat.mod_eq_of_lt (by omega)] at goesOn
          rcases ih complete with ⟨ends, -⟩ | ⟨more, eq⟩
          · omega
          · rw [if_neg (by omega), goesOn] at eq
            exact ⟨more, eq⟩
      obtain ⟨more, rest_eq⟩ := rest_eq
      by_cases first : index = 0
      · refine ⟨more + 1, ?_⟩
        rw [unroll_succ, if_pos first, rest_eq, ← List.cons_append, ← drop_eq, first,
          List.drop_zero, List.nil_append]
      · refine ⟨more, ?_⟩
        rw [if_neg first, rest_eq, drop_eq, List.cons_append]

theorem expands_iff : production.Expands symbols ↔
    production.Walks 0 symbols production.arity ∨
      (production.kind = .list .star ∧ symbols = []) := by
  constructor
  · intro expands
    cases expands with
    | sequence kind =>
      have walks := walks_sequence kind production.arity (Nat.zero_add _)
      rw [List.drop_zero] at walks
      exact .inl walks
    | list kind more => exact .inl (walks_unroll kind more)
    | empty kind => exact .inr ⟨kind, rfl⟩
  · rintro (walks | ⟨kind, rfl⟩)
    · cases kind : production.kind with
      | sequence =>
        rw [walks.eq_drop_of_sequence kind rfl, List.drop_zero]
        exact .sequence kind
      | list repetition =>
        rcases walks.exists_unroll kind rfl with ⟨none_, rfl⟩ | ⟨more, eq⟩
        · have expands := Expands.list kind 0
          rwa [unroll_of_rhs_nil (List.length_eq_zero_iff.1 none_.symm)] at expands
        · rw [if_pos rfl, List.nil_append] at eq
          rw [eq]
          exact .list kind more
    · exact .empty kind

/-- Before the completed place, the number of symbols read tells the place. -/
theorem Walks.index_eq (walks : production.Walks start symbols stop)
    (bound : stop < production.arity) (first : start < production.arity) :
    stop = (start + symbols.length) % production.arity := by
  induction walks with
  | nil index => exact (Nat.mod_eq_of_lt first).symm
  | @cons index after stop symbol rest at_ next walks ih =>
    have positive : 0 < production.arity := by omega
    rcases Nat.lt_or_ge after production.arity with inside | outside
    · have after_eq : after = (index + 1) % production.arity := by
        unfold Production.next at next
        cases kind : production.kind with
        | sequence =>
          rw [kind, List.mem_singleton] at next
          rw [next, Nat.mod_eq_of_lt (by omega)]
        | list repetition =>
          rw [kind] at next
          dsimp only at next
          split at next
          · next zero =>
            subst zero
            rcases List.mem_cons.1 next with full | again
            · omega
            · exact List.mem_singleton.1 again
          · exact List.mem_singleton.1 next
      rw [ih bound inside, after_eq, Nat.mod_add_mod, List.length_cons]
      congr 1
      omega
    · have complete : after = production.arity := by
        have bounded := Production.le_arity_of_mem_next first next
        omega
      rw [complete] at walks
      have stuck := walks.eq_of_complete.2
      omega

/-- The symbols of an expansion stand in the order of the right-hand side, over and over. -/
theorem Expands.rhs_getElem? (expands : production.Expands symbols) {index : Nat} {symbol : Symbol}
    (at_ : symbols[index]? = some symbol) :
    production.rhs[index % production.arity]? = some symbol := by
  obtain ⟨bound, eq⟩ := List.getElem?_eq_some_iff.1 at_
  rcases expands_iff.1 expands with walks | ⟨-, rfl⟩
  · rw [← List.take_append_drop index symbols, List.drop_eq_getElem_cons bound, eq] at walks
    obtain ⟨place, before, after⟩ := walks.split
    cases after with
    | cons here =>
      have inside : place < production.arity := (List.getElem?_eq_some_iff.1 here).1
      have place_eq := before.index_eq inside (by omega)
      rw [Nat.zero_add, List.length_take, Nat.min_eq_left (by omega)] at place_eq
      rwa [← place_eq]
  · cases bound

theorem Expands.eq_rhs (expands : production.Expands symbols)
    (kind : production.kind = .sequence) : symbols = production.rhs := by
  cases expands with
  | sequence => rfl
  | list other | empty other =>
    rw [kind] at other
    cases other

/-- In an expansion of a list, elements and separators take turns. -/
theorem Expands.length_mod (expands : production.Expands symbols) {repetition : Repetition}
    (kind : production.kind = .list repetition) :
    symbols = [] ∨ (symbols.length - 1) % (production.separatorArity + 1) = 0 := by
  cases expands with
  | sequence other =>
    rw [kind] at other
    cases other
  | empty => exact .inl rfl
  | list _ more =>
    unfold unroll separatorArity arity
    rw [kind]
    cases production.rhs with
    | nil => exact .inl rfl
    | cons element separators =>
      right
      simp [List.length_flatten]

/-- The symbols that may have been read at a place: those on a way there from the first place, and
none at all if the place is the completed one of a list that needs no element. -/
def ReadsTo (production : Production) (symbols : List Symbol) (index : Nat) : Prop :=
  production.Walks 0 symbols index ∨
    (index = production.arity ∧ production.kind = .list .star ∧ symbols = [])

theorem readsTo_arity_iff :
    production.ReadsTo symbols production.arity ↔ production.Expands symbols := by
  unfold ReadsTo
  rw [expands_iff, and_iff_right rfl]

end Production

end Scannerless
