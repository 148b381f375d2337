import Mathlib.Logic.Relation
import Scannerless.Proofs.BuildOrder
import Scannerless.Proofs.GuardedPacking
import Scannerless.Proofs.HiddenWiring

/-!
# Nested packing

To pack a constituent is to pack its parts first, and these may be no smaller. `Packing.Asks` says
which constituents are packed on the way, each with the packing as it is by then. Those in progress
are always the ones on the way to it: they differ, each has a completed production, and there are no
more of them than the chart has completed constituents. So packing ends, and any depth beyond that
number gives the same (`Packing.packWithin_eq_of_room`).

A constituent that is left takes with it what was in progress and every cut that refers to it or
further in (`Packing.packWithin_restores`). When the outermost is left, nothing is in progress and
nothing is cut.
-/

namespace Scannerless

namespace Packing

/-! ## Requests -/

/-- A constituent that is to be packed within a depth, and the packing as it is by then. -/
structure Request where
  depth : Nat
  constituent : Constituent
  packing : Packing

/-- What comes of a request. -/
def Request.answer (g : Grammar) (input : Input) (chart : Chart) (request : Request) :
    Option Node × Packing :=
  packWithin g input chart request.depth request.constituent request.packing

/-- The constituent is neither known nor in progress, so that it is begun. -/
structure Request.Begins (request : Request) : Prop where
  unknown : request.packing.memo[request.constituent]? = none
  outside : request.constituent ∉ request.packing.inProgress

section Asking

variable (g : Grammar) (input : Input) (pack : Pack)

/-- In packing the nodes of children, a constituent is asked for: the first that is no terminal, or
one after that, if those before it have nodes. -/
inductive ChildrenAsk : List Match → Packing → Constituent → Packing → Prop
  | first {child : Match} {rest : List Match} {packing : Packing} {node : StackNode}
    (atId : g.node? child.node = some node) (nonTerminal : node.isTerminal = false) :
    ChildrenAsk (child :: rest) packing ⟨node.symbol, child.span⟩ packing
  | later {child : Match} {rest : List Match} {packing middle by_ : Packing} {node : Node}
    {part : Constituent} (first : childNode g input pack child packing = (some node, middle))
    (asks : ChildrenAsk rest middle part by_) : ChildrenAsk (child :: rest) packing part by_

/-- In packing reductions one after another, a constituent is asked for. -/
inductive ReductionsAsk (span : Span) :
    List (Production × List Match) → Packing → Constituent → Packing → Prop
  | first {production : Production} {children : List Match}
    {rest : List (Production × List Match)} {packing by_ : Packing} {part : Constituent}
    (asks : ChildrenAsk g input pack children packing part by_) :
    ReductionsAsk span ((production, children) :: rest) packing part by_
  | later {production : Production} {children : List Match}
    {rest : List (Production × List Match)} {packing by_ : Packing} {part : Constituent}
    (asks : ReductionsAsk span rest
      (reduce g input pack span production children packing).2 part by_) :
    ReductionsAsk span ((production, children) :: rest) packing part by_

end Asking

/-- A request that begins a constituent leads directly to another, for a part of the constituent. -/
inductive Asks (g : Grammar) (input : Input) (chart : Chart) : Request → Request → Prop
  | part {depth : Nat} {constituent part : Constituent} {packing by_ : Packing}
    (begins : (Request.mk (depth + 1) constituent packing).Begins)
    (asks : ReductionsAsk g input (packWithin g input chart depth) constituent.span
      (reductions g chart constituent) (packing.enter constituent) part by_) :
    Asks g input chart ⟨depth + 1, constituent, packing⟩ ⟨depth, part, by_⟩

/-! ## Only what is asked for matters -/

section Congruence

variable {g : Grammar} {input : Input} {chart : Chart} {pack other : Pack} {packing : Packing}

theorem childNode_congr {child : Match} {rest : List Match}
    (agree : ∀ {part : Constituent} {by_ : Packing},
      ChildrenAsk g input pack (child :: rest) packing part by_ → other part by_ = pack part by_) :
    childNode g input other child packing = childNode g input pack child packing := by
  unfold childNode
  cases atId : g.node? child.node with
  | none => rfl
  | some node =>
    dsimp only
    cases terminal : node.isTerminal with
    | true => rfl
    | false => exact agree (.first atId terminal)

theorem childNodes_congr {children : List Match} : ∀ {packing : Packing},
    (∀ {part : Constituent} {by_ : Packing},
      ChildrenAsk g input pack children packing part by_ → other part by_ = pack part by_) →
    childNodes g input other children packing = childNodes g input pack children packing := by
  induction children with
  | nil => exact fun _ => rfl
  | cons child rest ih =>
    intro packing agree
    unfold childNodes
    rw [childNode_congr agree]
    cases first : childNode g input pack child packing with
    | mk node middle =>
      cases node with
      | none => rfl
      | some node =>
        dsimp only
        rw [ih fun asks => agree (.later first asks)]

theorem reduceAll_congr (span : Span) {todo : List (Production × List Match)} :
    ∀ {packing : Packing},
      (∀ {part : Constituent} {by_ : Packing},
        ReductionsAsk g input pack span todo packing part by_ → other part by_ = pack part by_) →
      reduceAll g input other span todo packing = reduceAll g input pack span todo packing := by
  induction todo with
  | nil => exact fun _ => rfl
  | cons head rest ih =>
    intro packing agree
    obtain ⟨production, children⟩ := head
    have first : reduce g input other span production children packing =
        reduce g input pack span production children packing := by
      unfold reduce
      rw [childNodes_congr fun asks => agree (.first asks)]
    unfold reduceAll
    dsimp only
    rw [first, ih fun asks => agree (.later asks)]

end Congruence

/-! ## What is left behind -/

section Restoring

variable {g : Grammar} {input : Input} {chart : Chart} {pack : Pack} {packing : Packing}
  {stack : List Constituent}

/-- Just these constituents are in progress, and no cut refers to one further in. -/
structure Balanced (stack : List Constituent) (packing : Packing) : Prop where
  inProgress : packing.inProgress = stack
  cut_lt : ∀ {depth : Nat}, packing.cut = some depth → depth < stack.length

/-- Packing a constituent leaves those in progress as they were. -/
def Restores (pack : Pack) (stack : List Constituent) : Prop :=
  ∀ (constituent : Constituent) {packing : Packing}, Balanced stack packing →
    Balanced stack (pack constituent packing).2

theorem childNode_restores (restores : Restores pack stack) (child : Match)
    (balanced : Balanced stack packing) :
    Balanced stack (childNode g input pack child packing).2 := by
  unfold childNode
  split
  · exact balanced
  · split
    · exact ⟨balanced.inProgress, balanced.cut_lt⟩
    · exact restores _ balanced

theorem childNodes_restores (restores : Restores pack stack) {children : List Match} :
    ∀ {packing : Packing}, Balanced stack packing →
      Balanced stack (childNodes g input pack children packing).2 := by
  induction children with
  | nil => exact fun balanced => balanced
  | cons child rest ih =>
    intro packing balanced
    have first : Balanced stack (childNode g input pack child packing).2 :=
      childNode_restores restores child balanced
    unfold childNodes
    generalize childNode g input pack child packing = outcome at first
    obtain ⟨_ | node, middle⟩ := outcome
    · exact first
    · have others := ih first
      dsimp only
      generalize childNodes g input pack rest middle = outcome at others
      obtain ⟨_ | nodes, last⟩ := outcome
      · exact others
      · exact others

theorem reduce_restores (restores : Restores pack stack) (span : Span) (production : Production)
    (children : List Match) (balanced : Balanced stack packing) :
    Balanced stack (reduce g input pack span production children packing).2 := by
  have parts : Balanced stack (childNodes g input pack children packing).2 :=
    childNodes_restores restores balanced
  unfold reduce
  generalize childNodes g input pack children packing = outcome at parts
  obtain ⟨_ | nodes, last⟩ := outcome
  · exact parts
  · unfold reductionNode freshId
    dsimp only
    split
    · exact ⟨parts.inProgress, parts.cut_lt⟩
    · exact ⟨parts.inProgress, parts.cut_lt⟩

theorem reduceAll_restores (restores : Restores pack stack) (span : Span)
    {todo : List (Production × List Match)} : ∀ {packing : Packing}, Balanced stack packing →
      Balanced stack (reduceAll g input pack span todo packing).2 := by
  induction todo with
  | nil => exact fun balanced => balanced
  | cons head rest ih =>
    intro packing balanced
    obtain ⟨production, children⟩ := head
    exact ih (reduce_restores restores span production children balanced)

theorem enter_balanced (inProgress : packing.inProgress = stack) (constituent : Constituent) :
    Balanced (constituent :: stack) (packing.enter constituent) :=
  ⟨congrArg (constituent :: ·) inProgress, nofun⟩

theorem lt_of_outermost {first second : Option Nat} {bound depth : Nat}
    (firstBound : ∀ {depth : Nat}, first = some depth → depth < bound)
    (secondBound : ∀ {depth : Nat}, second = some depth → depth < bound)
    (eq : outermost first second = some depth) : depth < bound := by
  cases first with
  | none => exact secondBound eq
  | some one =>
    have less := firstBound rfl
    cases second with
    | none =>
      cases eq
      exact less
    | some other =>
      cases eq
      exact Nat.lt_of_le_of_lt (Nat.min_le_left one other) less

theorem cutAt_balanced (balanced : Balanced stack packing) {constituent : Constituent}
    {depth : Nat} (inside : depthIn constituent packing.inProgress = some depth) :
    Balanced stack (packing.cutAt constituent depth) := by
  have less := depthIn_lt inside
  rw [balanced.inProgress] at less
  refine ⟨balanced.inProgress, lt_of_outermost balanced.cut_lt fun eq => ?_⟩
  cases eq
  exact less

/-- A cut that refers to a constituent goes when the constituent is left. -/
theorem leave_balanced {last : Packing} (balanced : Balanced stack packing)
    {constituent : Constituent} (inner : Balanced (constituent :: stack) last)
    (result : Option Node) :
    Balanced stack (last.leave packing.cut stack.length constituent result) := by
  refine ⟨congrArg List.tail inner.inProgress, lt_of_outermost balanced.cut_lt fun eq => ?_⟩
  exact of_decide_eq_true (Option.filter_eq_some_iff.1 eq).2

/-- Packing a constituent within any depth leaves those in progress as they were, and no cut that
refers further in. -/
theorem packWithin_restores (g : Grammar) (input : Input) (chart : Chart) (limit : Nat) :
    ∀ stack : List Constituent, Restores (packWithin g input chart limit) stack := by
  induction limit with
  | zero => exact fun _ _ _ balanced => balanced
  | succ limit ih =>
    intro stack constituent packing balanced
    unfold packWithin
    cases known : packing.memo[constituent]? with
    | some result => exact balanced
    | none =>
      dsimp only
      cases inside : depthIn constituent packing.inProgress with
      | some depth => exact cutAt_balanced balanced inside
      | none =>
        have inner : Balanced (constituent :: stack) (reduceAll g input
            (packWithin g input chart limit) constituent.span (reductions g chart constituent)
            (packing.enter constituent)).2 :=
          reduceAll_restores (ih _) _ (enter_balanced balanced.inProgress constituent)
        generalize reduceAll g input (packWithin g input chart limit) constituent.span
          (reductions g chart constituent) (packing.enter constituent) = outcome at inner
        obtain ⟨nodes, last⟩ := outcome
        obtain ⟨merged, eq, -, inProgress, cut⟩ := merge_eq last constituent nodes
        have innerMerged : Balanced (constituent :: stack) merged :=
          ⟨inProgress.trans inner.inProgress, fun isCut => inner.cut_lt (cut ▸ isCut)⟩
        dsimp only
        rw [eq, balanced.inProgress]
        exact leave_balanced balanced innerMerged _

end Restoring

/-! ## What is in progress -/

section Requests

variable {g : Grammar} {input : Input} {chart : Chart} {pack : Pack} {stack : List Constituent}
  {outer inner : Request}

theorem ChildrenAsk.balanced (restores : Restores pack stack) {children : List Match}
    {packing by_ : Packing} {part : Constituent}
    (asks : ChildrenAsk g input pack children packing part by_) :
    Balanced stack packing → Balanced stack by_ := by
  induction asks with
  | first => exact fun balanced => balanced
  | @later child _ packing _ _ _ _ first _ ih =>
    intro balanced
    have after : Balanced stack (childNode g input pack child packing).2 :=
      childNode_restores restores child balanced
    rw [first] at after
    exact ih after

theorem ReductionsAsk.balanced (restores : Restores pack stack) {span : Span}
    {todo : List (Production × List Match)} {packing by_ : Packing} {part : Constituent}
    (asks : ReductionsAsk g input pack span todo packing part by_) :
    Balanced stack packing → Balanced stack by_ := by
  induction asks with
  | first asks => exact asks.balanced restores
  | later _ ih => exact fun balanced => ih (reduce_restores restores _ _ _ balanced)

theorem ReductionsAsk.ne_nil {span : Span} {todo : List (Production × List Match)}
    {packing by_ : Packing} {part : Constituent}
    (asks : ReductionsAsk g input pack span todo packing part by_) : todo ≠ [] := by
  cases asks with
  | first => exact List.cons_ne_nil _ _
  | later => exact List.cons_ne_nil _ _

/-- A constituent that is begun is in progress while its parts are packed. -/
theorem Asks.balanced (asks : Asks g input chart outer inner) :
    Balanced (outer.constituent :: outer.packing.inProgress) inner.packing := by
  obtain ⟨-, asks⟩ := asks
  exact asks.balanced (packWithin_restores g input chart _ _) (enter_balanced rfl _)

theorem Asks.depth_add_length (asks : Asks g input chart outer inner) :
    inner.depth + inner.packing.inProgress.length =
      outer.depth + outer.packing.inProgress.length := by
  rw [asks.balanced.inProgress, List.length_cons]
  obtain ⟨-, -⟩ := asks
  dsimp only
  omega

/-- There is room for a request, and no cut refers to a constituent that is not in progress. -/
structure Request.Orderly (chart : Chart) (request : Request) : Prop where
  room : Room chart request.depth request.packing.inProgress
  balanced : Balanced request.packing.inProgress request.packing

theorem Asks.orderly (asks : Asks g input chart outer inner) (orderly : outer.Orderly chart) :
    inner.Orderly chart := by
  have balanced := asks.balanced
  have inProgress := balanced.inProgress
  refine ⟨?_, inProgress ▸ balanced⟩
  rw [inProgress]
  obtain ⟨begins, asks⟩ := asks
  exact orderly.room.enter begins.outside asks.ne_nil

theorem orderly_of_asks (asks : Relation.ReflTransGen (Asks g input chart) outer inner)
    (orderly : outer.Orderly chart) : inner.Orderly chart ∧
      inner.depth + inner.packing.inProgress.length =
        outer.depth + outer.packing.inProgress.length := by
  induction asks with
  | refl => exact ⟨orderly, rfl⟩
  | tail _ asks ih => exact ⟨asks.orderly ih.1, asks.depth_add_length.trans ih.2⟩

/-- How far packing within a depth has gone at a request. The constituents in progress, which make
up what is used of the depth, are no more than the chart has completed. Each is there once, also if
the requested one is begun; and what is cut by the end refers to one of them. -/
structure Request.Nested (g : Grammar) (input : Input) (chart : Chart) (depth : Nat)
    (request : Request) : Prop where
  used : request.depth + request.packing.inProgress.length = depth
  length_le : request.packing.inProgress.length ≤ chart.completions.size
  nodup : request.packing.inProgress.Nodup
  nodup_enter : request.Begins → (request.packing.enter request.constituent).inProgress.Nodup
  restored : Balanced request.packing.inProgress (request.answer g input chart).2

theorem Request.Orderly.nested {request : Request} (orderly : request.Orderly chart) :
    request.Nested g input chart (request.depth + request.packing.inProgress.length) where
  used := rfl
  length_le := orderly.room.length_le
  nodup := orderly.room.nodup
  nodup_enter begins := List.nodup_cons.2 ⟨begins.outside, orderly.room.nodup⟩
  restored := packWithin_restores g input chart _ _ _ orderly.balanced

/-- Depths that leave room for all that may be in progress give the same. -/
theorem packWithin_eq_of_room {limit : Nat} : ∀ {other : Nat} {stack : List Constituent},
    Room chart limit stack → Room chart other stack →
      ∀ (constituent : Constituent) {packing : Packing}, packing.inProgress = stack →
        packWithin g input chart other constituent packing =
          packWithin g input chart limit constituent packing := by
  induction limit with
  | zero => exact fun room => absurd room.positive (Nat.lt_irrefl 0)
  | succ limit ih =>
    intro other stack room roomOther constituent packing inProgress
    cases other with
    | zero => exact absurd roomOther.positive (Nat.lt_irrefl 0)
    | succ other =>
      unfold packWithin
      cases known : packing.memo[constituent]? with
      | some result => rfl
      | none =>
        dsimp only
        cases inside : depthIn constituent packing.inProgress with
        | some depth => rfl
        | none =>
          have outside : constituent ∉ stack := inProgress ▸ depthIn_eq_none_iff.1 inside
          have same : reduceAll g input (packWithin g input chart other) constituent.span
                (reductions g chart constituent) (packing.enter constituent) =
              reduceAll g input (packWithin g input chart limit) constituent.span
                (reductions g chart constituent) (packing.enter constituent) := by
            refine reduceAll_congr _ fun {part by_} asks => ?_
            have balanced := asks.balanced (packWithin_restores g input chart limit _)
              (enter_balanced inProgress constituent)
            exact ih (room.enter outside asks.ne_nil) (roomOther.enter outside asks.ne_nil) part
              balanced.inProgress
          dsimp only
          rw [same]

end Requests

/-! ## Nothing in progress -/

section Idle

variable {g : Grammar} {input : Input} {chart : Chart} {packing : Packing}

theorem Balanced.idle (balanced : Balanced [] packing) :
    packing.inProgress = [] ∧ packing.cut = none := by
  refine ⟨balanced.inProgress, Option.eq_none_iff_forall_ne_some.2 fun depth isCut => ?_⟩
  exact absurd (balanced.cut_lt isCut) (Nat.not_lt_zero depth)

theorem pack_restores (g : Grammar) (input : Input) (chart : Chart) (stack : List Constituent) :
    Restores (pack g input chart) stack := by
  intro constituent packing balanced
  have restored := packWithin_restores g input chart (chart.completions.size + 1) stack constituent
    balanced
  unfold pack
  split
  · exact ⟨restored.inProgress, restored.cut_lt⟩
  · exact balanced

theorem packed_balanced (g : Grammar) (input : Input) (chart : Chart)
    (earlier : List Constituent) : Balanced [] (packed g input chart earlier) :=
  packed_keeps (Balanced []) ⟨rfl, nofun⟩ (pack_restores g input chart []) earlier

end Idle

end Packing

namespace Grammar

/-- Packing ends, whatever has been packed before. Any depth beyond the number of completed
constituents gives the same and no guard fails, so that neither the constituents in progress nor the
places of a walk run out of steps; all requests on the way are nested within that number. In the end
nothing is in progress and nothing is cut. -/
theorem packing_ends_idle {start : Symbol} {script : List Declaration} {g : Grammar}
    (built : (Grammar.ofScript start script).value = .ok g) (input : Input) (root : Symbol)
    (earlier : List Constituent) (constituent : Constituent) :
    let chart := (g.recognize input root).value
    let packing := Packing.packed g input chart earlier
    let last := (Packing.pack g input chart constituent packing).2
    (∀ other : Constituent,
      other ∈ chart.completions.keys ↔ ∃ p, g.Completed input root p other) ∧
    (∀ depth > chart.completions.size,
      Guarded.packWithin g input chart depth constituent packing =
        .ok (Packing.packWithin g input chart (chart.completions.size + 1) constituent packing) ∧
      ∀ request, Relation.ReflTransGen (Packing.Asks g input chart)
        ⟨depth, constituent, packing⟩ request → request.Nested g input chart depth) ∧
    last.inProgress = [] ∧ last.cut = none := by
  intro chart packing last
  have wired := Wired.of_script built
  have full : chart.Full g input root := wired.full_recognize input root
  have balanced : Packing.Balanced [] packing := Packing.packed_balanced g input chart earlier
  have idle := balanced.inProgress
  refine ⟨fun other => mem_completions_iff full (Chart.substantial_recognize g input root),
    fun depth beyond => ?_, (Packing.pack_restores g input chart [] constituent balanced).idle⟩
  have room : Packing.Room chart depth [] :=
    ⟨List.nodup_nil, fun _ member => absurd member List.not_mem_nil, beyond⟩
  refine ⟨?_, fun request asks => ?_⟩
  · rw [(Guarded.packWithin_ok wired full room constituent packing idle).ok,
      Packing.packWithin_eq_of_room (.idle chart) room constituent idle]
  · have orderly : (Packing.Request.mk depth constituent packing).Orderly chart :=
      ⟨idle ▸ room, idle ▸ balanced⟩
    obtain ⟨orderlyThere, used⟩ := Packing.orderly_of_asks asks orderly
    have nested : request.Nested g input chart _ := orderlyThere.nested
    rw [used, idle] at nested
    exact nested

/-- `S ::= A | B`, `A ::= B | "a"` and `B ::= A | "a"`: over the text `a`, `A` refers to itself by
way of `B` and is cut there. Nothing of that is left when `S` has been packed as well. -/
theorem packing_ends_idle_crossed : ∃ g : Grammar,
    (Grammar.ofScript (.nonTerminal "S") Example.crossed).value = .ok g ∧
      let input := Input.ofString "a"
      let chart := (g.recognize input (.nonTerminal "S")).value
      let earlier := Packing.packed g input chart [⟨.nonTerminal "A", ⟨0, 1⟩⟩]
      let last := (Packing.pack g input chart ⟨.nonTerminal "S", ⟨0, 1⟩⟩ earlier).2
      (∃ event ∈ last.events, event.text = "Cutting cyclic derivation of A over [0,1)") ∧
        last.inProgress = [] ∧ last.cut = none := by
  obtain ⟨g, built, tested⟩ := exists_of_script (.nonTerminal "S") Example.crossed
    (fun g =>
      let input := Input.ofString "a"
      let chart := (g.recognize input (.nonTerminal "S")).value
      let earlier := Packing.packed g input chart [⟨.nonTerminal "A", ⟨0, 1⟩⟩]
      let last := (Packing.pack g input chart ⟨.nonTerminal "S", ⟨0, 1⟩⟩ earlier).2
      decide (∃ event ∈ last.events, event.text = "Cutting cyclic derivation of A over [0,1)"))
    (by decide +kernel)
  have ends := packing_ends_idle built (Input.ofString "a") (.nonTerminal "S")
    [⟨.nonTerminal "A", ⟨0, 1⟩⟩] ⟨.nonTerminal "S", ⟨0, 1⟩⟩
  exact ⟨g, built, of_decide_eq_true tested, ends.2.2⟩

end Grammar

end Scannerless
