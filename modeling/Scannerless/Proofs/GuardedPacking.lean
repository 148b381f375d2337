import Scannerless.Grammar.Example
import Scannerless.Proofs.Forests
import Scannerless.Proofs.GuardedRecognition
import Scannerless.Proofs.Policies

/-!
# Packing without faults

Guarded packing of any constituent gives what packing gives, as guarded parsing of any text gives
what parsing gives: `Grammar.guards_hold`. A walk stays within the offsets of the span and the
indices of the production and meets no place twice, so that it ends within its steps. The children
of a walk are those of an expansion, which makes them stand for nodes of the grammar and for
stretches of the text, and lets elements and separators take turns. Packing ends within its depth,
since `Packing.Room` is left for all constituents that have something to be packed of.
-/

namespace Scannerless

/-! ## Links -/

/-- A link leads back to an item of the same production that ends no later. -/
theorem Grammar.Linked.reached_before {g : Grammar} {input : Input} {root : Symbol}
    (wired : g.Wired) {item : Item} {link : Backlink} (linked : g.Linked input root item link) :
    g.Reached input root ⟨link.prevPos, ⟨item.state.prod, link.prevIndex⟩, item.origin⟩ ∧
      link.prevPos ≤ item.pos := by
  obtain ⟨prevPos, prevIndex, matched⟩ := link
  unfold Grammar.Linked at linked
  dsimp only at linked
  obtain ⟨reached, by_⟩ := linked
  refine ⟨reached, ?_⟩
  cases matched with
  | none => exact Nat.le_of_eq (congrArg Item.pos by_.2.2.2).symm
  | some found =>
    obtain ⟨node, -, -, span_eq, covered, -⟩ := by_
    rw [span_eq] at covered
    exact (covered.bounds wired).1

namespace Guarded

variable {g : Grammar} {input : Input} {root : Symbol} {chart : Chart}

/-! ## Walks -/

/-- A walk back through a production over a span. It is at a place of the span and has met only such
places, none of them twice, and a step is left for each place that it has not met. -/
structure Underway (span : Span) (slots steps pos index : Nat) (visited : List (Nat × Nat)) :
    Prop where
  here : span.start ≤ pos ∧ pos ≤ span.stop ∧ index ≤ slots
  nodup : visited.Nodup
  within : ∀ place ∈ visited, span.start ≤ place.1 ∧ place.1 ≤ span.stop ∧ place.2 ≤ slots
  room : (span.length + 1) * (slots + 1) < steps + visited.length

section Underway

variable {span : Span} {slots steps pos index : Nat} {visited : List (Nat × Nat)}

theorem Underway.positive (underway : Underway span slots steps pos index visited) : 0 < steps := by
  have bound := span.length_places_le underway.nodup underway.within
  have room := underway.room
  omega

theorem Underway.back (underway : Underway span slots (steps + 1) pos index visited)
    (unvisited : (pos, index) ∉ visited) {prevPos prevIndex : Nat}
    (started : span.start ≤ prevPos) (earlier : prevPos ≤ pos) (bound : prevIndex ≤ slots) :
    Underway span slots steps prevPos prevIndex ((pos, index) :: visited) where
  here := ⟨started, Nat.le_trans earlier underway.here.2.1, bound⟩
  nodup := List.nodup_cons.2 ⟨unvisited, underway.nodup⟩
  within place member := by
    rcases List.mem_cons.1 member with rfl | before
    · exact underway.here
    · exact underway.within place before
  room := by
    have room := underway.room
    rw [List.length_cons]
    omega

end Underway

theorem endingIn_ok (wired : g.Wired) (full : chart.Full g input root) {p : ProdId}
    {entry : WiredProduction} (found : g.prod? p = some entry) (keepEmpty : Bool) (span : Span) :
    ∀ {steps pos index : Nat} {visited : List (Nat × Nat)} {after : List Match},
      Underway span entry.production.arity steps pos index visited →
        endingIn g chart p span.start keepEmpty steps pos index visited after =
          .ok (Walk.endingIn chart p span.start keepEmpty steps pos index visited after) := by
  intro steps
  induction steps with
  | zero => exact fun underway => absurd underway.positive (Nat.lt_irrefl 0)
  | succ steps ih =>
    intro pos index visited after underway
    unfold endingIn Walk.endingIn
    by_cases met : (pos, index) ∈ visited
    · rw [if_pos (List.contains_iff_mem.2 met), if_pos met]
    rw [if_neg (mt List.contains_iff_mem.1 met), if_neg met]
    split
    · rfl
    have each : ∀ link ∈ (chart.links ⟨pos, ⟨p, index⟩, span.start⟩).filter (Walk.keeps keepEmpty),
        (do
          let before ← withIndex g ⟨p, index⟩ link.prevIndex
          endingIn g chart p span.start keepEmpty steps link.prevPos before.index
            ((pos, index) :: visited) (link.matched.toList ++ after)) =
        .ok (Walk.endingIn chart p span.start keepEmpty steps link.prevPos link.prevIndex
          ((pos, index) :: visited) (link.matched.toList ++ after)) := by
      intro link member
      obtain ⟨reached, earlier⟩ : g.Reached input root
          ⟨link.prevPos, ⟨p, link.prevIndex⟩, span.start⟩ ∧ link.prevPos ≤ pos :=
        (full.mem_links_iff.1 (List.mem_filter.1 member).1).reached_before wired
      obtain ⟨started, -, _, foundThere, place⟩ := reached.inBounds wired
      cases found.symm.trans foundThere
      have there : withIndex g ⟨p, index⟩ link.prevIndex = .ok ⟨p, link.prevIndex⟩ :=
        withIndex_ok found (by rwa [wired.length_wiring found])
      rw [there, ok_bind]
      exact ih (underway.back met started earlier place)
    dsimp only
    rw [mapM_ok each, ok_bind]
    rfl

theorem derivations_ok (wired : g.Wired) (full : chart.Full g input root) {p : ProdId}
    {constituent : Constituent} (completed : g.Completed input root p constituent) :
    derivations g chart p constituent.span = .ok (chart.derivations g p constituent.span) := by
  obtain ⟨entry, found, -⟩ := Grammar.exists_prod_of_lhs completed.1
  have ordered := (completed.bounds wired).1
  unfold derivations Chart.derivations
  rw [production_ok found, ok_bind, found]
  dsimp only
  rw [wired.slots_eq found, wired.length_wiring found]
  have underway : Underway constituent.span entry.production.arity
      ((constituent.span.length + 1) * (entry.production.arity + 1) + 1) constituent.span.stop
      entry.production.arity [] :=
    ⟨⟨ordered, Nat.le_refl _, Nat.le_refl _⟩, List.nodup_nil,
      fun _ member => absurd member List.not_mem_nil, Nat.lt_succ_self _⟩
  exact endingIn_ok wired full found _ _ underway

theorem reductions_ok (wired : g.Wired) (full : chart.Full g input root)
    (constituent : Constituent) :
    reductions g chart constituent = .ok (Packing.reductions g chart constituent) := by
  unfold reductions Packing.reductions
  rw [mapM_ok, ok_bind]
  · rfl
  · intro p member
    have completed := full.mem_completed_iff.1 member
    obtain ⟨entry, found, -⟩ := Grammar.exists_prod_of_lhs completed.1
    rw [production_ok found, ok_bind, derivations_ok wired full completed, found]
    rfl

/-! ## Reductions -/

/-- Without a fault, the same comes out of packing, and the same constituents are in progress. -/
structure Agrees {α : Type} (packing : Packing) (guarded : Except Fault (α × Packing))
    (plain : α × Packing) : Prop where
  ok : guarded = .ok plain
  inProgress : plain.2.inProgress = packing.inProgress

/-- Constituents are packed without faults while the given ones are in progress. -/
def AgreesOn (pack : Pack) (plain : Packing.Pack) (stack : List Constituent) : Prop :=
  ∀ (constituent : Constituent) (packing : Packing), packing.inProgress = stack →
    Agrees packing (pack constituent packing) (plain constituent packing)

section Reductions

variable {pack : Pack} {plain : Packing.Pack} {packing : Packing}

theorem slice_ok {span : Span} (ordered : span.start ≤ span.stop ∧ span.stop ≤ input.length) :
    slice input span = .ok (input.slice span) := by
  have chars : input.chars? span.start span.stop =
      some (input.chars.extract span.start span.stop).toList := if_pos ordered
  unfold slice
  rw [demand_some chars, ok_bind]
  rfl

theorem childNode_ok (wired : g.Wired) (agrees : AgreesOn pack plain packing.inProgress)
    {found : Match} {part : Constituent} (stands : found.StandsFor g input root part) :
    Agrees packing (childNode g input pack found packing)
      (Packing.childNode g input plain found packing) := by
  obtain ⟨stackNode, atId, -⟩ := stands.node
  have bounds := stands.covered.bounds wired
  rw [← stands.span_eq] at bounds
  unfold childNode Packing.childNode
  rw [node_ok atId, ok_bind, atId]
  dsimp only
  split
  · rw [slice_ok bounds, ok_bind]
    exact ⟨rfl, rfl⟩
  · exact agrees _ _ rfl

theorem childNodes_ok (wired : g.Wired) {founds : List Match} {parts : List Constituent}
    (stand : List.Forall₂ (Match.StandsFor g input root) founds parts) :
    ∀ {packing : Packing}, AgreesOn pack plain packing.inProgress →
      Agrees packing (childNodes g input pack founds packing)
        (Packing.childNodes g input plain founds packing) := by
  induction stand with
  | nil => exact fun _ => ⟨rfl, rfl⟩
  | @cons found part founds parts stands _ ih =>
    intro packing agrees
    obtain ⟨here, stays⟩ := childNode_ok wired agrees stands
    unfold childNodes Packing.childNodes
    rw [here, ok_bind]
    generalize Packing.childNode g input plain found packing = outcome at stays
    obtain ⟨_ | node, middle⟩ := outcome
    · exact ⟨rfl, stays⟩
    · have agreesAfter : AgreesOn pack plain middle.inProgress := stays ▸ agrees
      obtain ⟨further, staysOn⟩ := ih agreesAfter
      dsimp only
      rw [further, ok_bind]
      generalize Packing.childNodes g input plain founds middle = outcome at staysOn
      obtain ⟨_ | nodes, last⟩ := outcome <;> exact ⟨rfl, staysOn.trans stays⟩

/-- There is a node for each child. -/
theorem length_of_childNodes : ∀ {founds : List Match} {packing last : Packing}
    {nodes : List Node}, Packing.childNodes g input plain founds packing = (some nodes, last) →
      nodes.length = founds.length
  | [], _, _, _, eq => by
    cases eq
    rfl
  | found :: founds, packing, last, nodes, eq => by
    unfold Packing.childNodes at eq
    generalize Packing.childNode g input plain found packing = outcome at eq
    obtain ⟨_ | node, middle⟩ := outcome
    · cases eq
    dsimp only at eq
    cases rest : Packing.childNodes g input plain founds middle with
    | mk others after =>
      rw [rest] at eq
      cases others with
      | none => cases eq
      | some others =>
        cases eq
        exact congrArg (· + 1) (length_of_childNodes rest)

/-- The nodes of an expansion of a list take turns. -/
theorem reductionNode_ok {constituent : Constituent} {production : Production}
    {founds : List Match} {parts : List Constituent}
    (reduction : IsReduction g input root constituent production founds parts)
    {nodes : List Node} (length : nodes.length = founds.length) (packing : Packing) :
    Agrees packing (reductionNode production constituent.span nodes packing)
      (Packing.reductionNode production constituent.span nodes packing) := by
  have lengths : nodes.length = (parts.map Constituent.symbol).length := by
    rw [List.length_map, length]
    exact reduction.stand.length_eq
  unfold reductionNode Packing.reductionNode Production.isList
  cases kind : production.kind with
  | sequence => exact ⟨rfl, rfl⟩
  | list repetition =>
    have alternating : Node.Alternating production.separatorArity nodes := by
      rcases reduction.expands.length_mod kind with none_ | turns
      · rw [none_] at lengths
        exact .inl (List.length_eq_zero_iff.1 lengths)
      · exact .inr (lengths ▸ turns)
    have made : Node.list? packing.nextId production.label production.lhs constituent.span
        production.separatorArity nodes = some (.list packing.nextId production.label
          production.lhs constituent.span production.separatorArity nodes) := if_pos alternating
    unfold Packing.freshId
    dsimp only
    rw [made]
    exact ⟨rfl, rfl⟩

theorem reduce_ok (wired : g.Wired) (agrees : AgreesOn pack plain packing.inProgress)
    {constituent : Constituent} {production : Production} {founds : List Match}
    {parts : List Constituent}
    (reduction : IsReduction g input root constituent production founds parts) :
    Agrees packing (reduce g input pack constituent.span production founds packing)
      (Packing.reduce g input plain constituent.span production founds packing) := by
  obtain ⟨children, stays⟩ := childNodes_ok wired reduction.stand agrees
  unfold reduce Packing.reduce
  rw [children, ok_bind]
  cases outcome : Packing.childNodes g input plain founds packing with
  | mk nodes last =>
    rw [outcome] at stays
    cases nodes with
    | none => exact ⟨rfl, stays⟩
    | some nodes =>
      obtain ⟨node, staysOn⟩ := reductionNode_ok reduction (length_of_childNodes outcome) last
      exact ⟨node, staysOn.trans stays⟩

theorem reduceAll_ok (wired : g.Wired) {constituent : Constituent}
    {todo : List (Production × List Match)}
    (each : ∀ {production : Production} {founds : List Match}, (production, founds) ∈ todo →
      ∃ parts, IsReduction g input root constituent production founds parts) :
    ∀ {packing : Packing}, (todo ≠ [] → AgreesOn pack plain packing.inProgress) →
      Agrees packing (reduceAll g input pack constituent.span todo packing)
        (Packing.reduceAll g input plain constituent.span todo packing) := by
  induction todo with
  | nil => exact fun _ => ⟨rfl, rfl⟩
  | cons head rest ih =>
    intro packing agrees
    obtain ⟨production, founds⟩ := head
    obtain ⟨parts, reduction⟩ := each List.mem_cons_self
    obtain ⟨first, stays⟩ := reduce_ok wired (agrees (List.cons_ne_nil _ _)) reduction
    unfold reduceAll Packing.reduceAll
    rw [first, ok_bind]
    generalize Packing.reduce g input plain constituent.span production founds packing = outcome
      at stays
    obtain ⟨node, middle⟩ := outcome
    have agreesAfter : AgreesOn pack plain middle.inProgress :=
      stays ▸ agrees (List.cons_ne_nil _ _)
    obtain ⟨further, staysOn⟩ :=
      ih (fun member => each (List.mem_cons_of_mem _ member)) fun _ => agreesAfter
    dsimp only
    rw [further, ok_bind]
    exact ⟨rfl, staysOn.trans stays⟩

end Reductions

/-! ## Constituents -/

theorem packWithin_ok (wired : g.Wired) (full : chart.Full g input root) {limit : Nat} :
    ∀ {stack : List Constituent}, Packing.Room chart limit stack →
      AgreesOn (packWithin g input chart limit) (Packing.packWithin g input chart limit) stack := by
  induction limit with
  | zero => exact fun room => absurd room.positive (Nat.lt_irrefl 0)
  | succ limit ih =>
    rintro _ room constituent packing rfl
    unfold packWithin Packing.packWithin
    cases known : packing.memo[constituent]? with
    | some result => exact ⟨rfl, rfl⟩
    | none =>
      dsimp only
      cases inside : Packing.depthIn constituent packing.inProgress with
      | some depth => exact ⟨rfl, rfl⟩
      | none =>
        have outside := Packing.depthIn_eq_none_iff.1 inside
        have agrees : Packing.reductions g chart constituent ≠ [] →
            AgreesOn (packWithin g input chart limit) (Packing.packWithin g input chart limit)
              (packing.enter constituent).inProgress :=
          fun some_ => ih (room.enter outside some_)
        obtain ⟨nodes, stays⟩ :=
          reduceAll_ok wired (fun member => full.exists_isReduction wired member) agrees
        dsimp only
        rw [reductions_ok wired full, ok_bind, nodes, ok_bind]
        generalize Packing.reduceAll g input (Packing.packWithin g input chart limit)
          constituent.span (Packing.reductions g chart constituent) (packing.enter constituent) =
            outcome at stays
        obtain ⟨nodes, last⟩ := outcome
        obtain ⟨merged, eq, -, inProgress, -⟩ := Packing.merge_eq last constituent nodes
        dsimp only
        rw [eq]
        exact ⟨rfl, congrArg List.tail (inProgress.trans stays)⟩

theorem pack_ok (wired : g.Wired) (full : chart.Full g input root) (constituent : Constituent)
    {packing : Packing} (idle : packing.inProgress = []) :
    pack g input chart constituent packing =
      .ok (Packing.pack g input chart constituent packing) := by
  have packed := packWithin_ok wired full (.idle chart) constituent packing idle
  unfold pack Packing.pack
  split
  · dsimp only
    rw [packed.ok]
    rfl
  · rfl

/-! ## Parsing -/

theorem forestOf_ok (wired : g.Wired) (full : chart.Full g input root) (policy : OnAmbiguity)
    (symbol : Symbol) :
    forestOf g policy symbol input chart = .ok (g.forestOf policy symbol input chart).value := by
  unfold forestOf Grammar.forestOf
  rw [span_ok (Nat.zero_le _), ok_bind, pack_ok wired full _ rfl, ok_bind]
  generalize Packing.pack g input chart ⟨symbol, ⟨0, input.length⟩⟩ {} = outcome
  obtain ⟨_ | forest, last⟩ := outcome
  · dsimp only
    rw [rejection_ok wired full, ok_bind]
    rfl
  · dsimp only
    cases policy with
    | keep => rfl
    | refuse => cases forest.ambiguity? <;> rfl

theorem parseSymbol_ok (wired : g.Wired) (policy : OnAmbiguity) (symbol : Symbol) (text : String) :
    parseSymbol g policy symbol text = .ok (g.parseSymbol policy symbol text).value := by
  have full := wired.full_recognize (Input.ofString text) symbol
  have chart_eq : (g.recognition (Input.ofString text) symbol).chart =
      (g.recognize (Input.ofString text) symbol).value := rfl
  unfold parseSymbol
  dsimp only
  rw [recognition_ok wired, ok_bind, chart_eq]
  split
  · next accepts =>
    rw [Grammar.parseSymbol_eq_forestOf accepts]
    exact forestOf_ok wired full policy symbol
  · next rejects =>
    rw [Grammar.parseSymbol_of_rejected (Bool.eq_false_iff.2 rejects), rejection_ok wired full]
    rfl

end Guarded

namespace Grammar

/-- No guard fails, whatever the symbol and the text. Guarded parsing ends with what parsing gives,
under either policy. Guarded recognition ends with what recognition finds; and of the chart that
this is, guarded packing of any constituent gives what packing gives, whatever has been packed of it
before. -/
theorem guards_hold {start : Symbol} {script : List Declaration} {g : Grammar}
    (built : (Grammar.ofScript start script).value = .ok g) :
    (∀ (policy : OnAmbiguity) (symbol : Symbol) (text : String),
      Guarded.parseSymbol g policy symbol text = .ok (g.parseSymbol policy symbol text).value) ∧
    ∀ (input : Input) (root : Symbol),
      let chart := (g.recognize input root).value
      Guarded.recognition g input root = .ok (g.recognition input root) ∧
      ∀ (earlier : List Constituent) (constituent : Constituent),
        let packing := Packing.packed g input chart earlier
        Guarded.pack g input chart constituent packing =
          .ok (Packing.pack g input chart constituent packing) := by
  have wired := Wired.of_script built
  refine ⟨Guarded.parseSymbol_ok wired, fun input root => ?_⟩
  have full := wired.full_recognize input root
  refine ⟨Guarded.recognition_ok wired input root, fun earlier constituent => ?_⟩
  exact Guarded.pack_ok wired full constituent (Packing.packed_intact wired full earlier).2

/-- `S ::= {A "b"}+` and `A ::= "a"`: the text `aba` is parsed past all guards. -/
theorem guards_hold_separatedPlus : ∃ (g : Grammar) (node : Node),
    (Grammar.ofScript (.nonTerminal "S") Example.separatedPlus).value = .ok g ∧
      Guarded.parseSymbol g .refuse (.nonTerminal "S") "aba" = .ok (.ok node) := by
  obtain ⟨g, built, tested⟩ := exists_of_script (.nonTerminal "S") Example.separatedPlus
    (fun g =>
      match (g.parseSymbol .refuse (.nonTerminal "S") "aba").value with
      | .ok _ => true
      | .error _ => false)
    (by decide +kernel)
  have guarded := (guards_hold built).1 .refuse (.nonTerminal "S") "aba"
  cases parsed : (g.parseSymbol .refuse (.nonTerminal "S") "aba").value with
  | error refusal =>
    rw [parsed] at tested
    cases tested
  | ok node => exact ⟨g, node, built, guarded.trans (congrArg Except.ok parsed)⟩

end Grammar

end Scannerless
