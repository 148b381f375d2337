import Mathlib.Logic.Relation
import Scannerless.Forest.Sharing
import Scannerless.Proofs.HandlerCalls
import Scannerless.Proofs.OpenAmbiguities

/-!
# The graph of a forest

The graph of a forest is the forest, flattened. Its numbers are given in the order in which a walk
that visits a node before its parts meets the shared nodes for the first time
(`Node.firstVisits`), and the edges that leave a number lead to the parts of its node, in order
(`SharingGraph.Flattens`). So whatever is unfolded from the number of a node is what the node
itself looks like (`SharingGraph.Flattens.unfolds_iff`).

The walk behind the graph goes through a shared node only once. That leaves nothing out: the nodes
that are met but whose parts are still to be added are the ones on the way down, all of them larger
than the node that is added (`SharingGraph.Settled`). So if that node has been met before, all that
is under it has been met as well.
-/

namespace Scannerless

namespace Node

/-! ## First visits -/

/-- The nodes that are met so far and one more, unless it is one of them. -/
def meet (met : List Node) (node : Node) : List Node :=
  if node.id ∈ met.map Node.id then met else met ++ [node]

/-- The nodes that are met so far and others, each where it is met for the first time. -/
def meetAll (met nodes : List Node) : List Node :=
  nodes.foldl meet met

/-- The shared nodes of a forest, in the order of the first visits of a walk that visits a node
before its parts and parts in order. -/
def firstVisits (root : Node) : List Node :=
  meetAll [] root.preorder

section Meeting

variable {root node : Node} {met nodes : List Node}

theorem meet_grows : met <+: meet met node := by
  unfold meet
  split
  · exact List.prefix_rfl
  · exact List.prefix_append met [node]

theorem meetAll_grows : met <+: meetAll met nodes := by
  induction nodes generalizing met with
  | nil => exact List.prefix_rfl
  | cons node rest ih => exact meet_grows.trans ih

theorem meetAll_append (met nodes others : List Node) :
    meetAll met (nodes ++ others) = meetAll (meetAll met nodes) others :=
  List.foldl_append

theorem meet_of_mem (member : node ∈ met) : meet met node = met :=
  if_pos (List.mem_map_of_mem member)

theorem meetAll_of_subset (known : ∀ node ∈ nodes, node ∈ met) : meetAll met nodes = met := by
  induction nodes with
  | nil => rfl
  | cons node rest ih =>
    obtain ⟨here, further⟩ := List.forall_mem_cons.1 known
    rw [meetAll, List.foldl_cons, meet_of_mem here]
    exact ih further

/-- Nodes that are told apart by their ids are not passed over. -/
theorem mem_meet_iff (identified : root.Identified) (inRoot : ∀ other ∈ met, root.Reaches other)
    (reaches : root.Reaches node) {other : Node} :
    other ∈ meet met node ↔ other ∈ met ∨ other = node := by
  unfold meet
  split
  · next known =>
    obtain ⟨same, member, id_eq⟩ := List.mem_map.1 known
    obtain rfl := identified (inRoot same member) reaches id_eq
    exact (or_iff_left_of_imp (· ▸ member)).symm
  · rw [List.mem_append, List.mem_singleton]

theorem mem_meetAll_iff (identified : root.Identified) (inRoot : ∀ other ∈ met, root.Reaches other)
    (reaches : ∀ node ∈ nodes, root.Reaches node) {other : Node} :
    other ∈ meetAll met nodes ↔ other ∈ met ∨ other ∈ nodes := by
  induction nodes generalizing met with
  | nil => exact (or_iff_left List.not_mem_nil).symm
  | cons node rest ih =>
    obtain ⟨here, further⟩ := List.forall_mem_cons.1 reaches
    have mem_meet {other : Node} : other ∈ meet met node ↔ other ∈ met ∨ other = node :=
      mem_meet_iff identified inRoot here
    have inRootToo : ∀ other ∈ meet met node, root.Reaches other := by
      intro other member
      rcases mem_meet.1 member with old | rfl
      · exact inRoot other old
      · exact here
    rw [meetAll, List.foldl_cons, ← meetAll, ih inRootToo further, mem_meet, List.mem_cons, or_assoc]

end Meeting

/-- The nodes that are visited first are those of the forest. -/
theorem mem_firstVisits_iff {root other : Node} (identified : root.Identified) :
    other ∈ root.firstVisits ↔ root.Reaches other := by
  have all : ∀ node ∈ root.preorder, root.Reaches node := fun _ => mem_preorder_iff.1
  rw [firstVisits, mem_meetAll_iff identified (fun _ none => absurd none List.not_mem_nil) all,
    or_iff_right List.not_mem_nil, mem_preorder_iff]

/-- The nodes of a forest that there is are told apart by their ids. -/
theorem IsForest.identified {root : Node} (forest : root.IsForest) : root.Identified := by
  cases forest with
  | made constructed member => exact constructed.identified member
  | parsed built parsed =>
    obtain ⟨registry, all⟩ := (Grammar.Wired.of_script built).regular_of_parsed parsed
    intro first second
    exact Packing.identified_of_regular all

end Node

/-! ## Drawings -/

/-- What can be seen of a forest, with nothing shared: labels, and which branches are marked. -/
inductive Drawing where
  | node (label : String) (marks : List Bool) (branches : List Drawing)

mutual

/-- What can be seen of the forest under a node. -/
def Node.drawing : Node → Drawing
  | .leaf id symbol text span => .node (SharingGraph.labelOf (.leaf id symbol text span)) [] []
  | .branch id tag symbol span children =>
    .node (SharingGraph.labelOf (.branch id tag symbol span children))
      (children.map fun _ => false) (drawings children)
  | .list id tag symbol span arity children =>
    .node (SharingGraph.labelOf (.list id tag symbol span arity children))
      (children.map fun _ => false) (drawings children)
  | .ambiguity id symbol span alternatives =>
    .node (SharingGraph.labelOf (.ambiguity id symbol span alternatives))
      (alternatives.map fun _ => true) (drawings alternatives)

def Node.drawings : List Node → List Drawing
  | [] => []
  | node :: rest => drawing node :: drawings rest

end

theorem Node.drawings_eq (nodes : List Node) : drawings nodes = nodes.map drawing := by
  induction nodes with
  | nil => rfl
  | cons node rest ih => rw [drawings, ih, List.map_cons]

theorem Node.drawing_eq (node : Node) :
    node.drawing = .node (SharingGraph.labelOf node) (node.parts.map fun _ => node.isAmbiguous)
      (node.parts.map drawing) := by
  cases node <;> simp only [drawing, drawings_eq, parts, isAmbiguous, List.map_nil]

namespace SharingGraph

/-- The edges that leave a number, in the order in which they have been put down. -/
def edgesFrom (graph : SharingGraph) (index : Nat) : List SharingEdge :=
  graph.edges.toList.filter (·.source = index)

/-- Whether there is an edge from one number to another. -/
def Joins (graph : SharingGraph) (first second : Nat) : Prop :=
  ∃ edge ∈ graph.edges.toList, edge.source = first ∧ edge.target = second

/-- What is unfolded from a number: its label, and what is unfolded from where its edges lead. -/
inductive Unfolds (graph : SharingGraph) : Nat → Drawing → Prop
  | node {index : Nat} {label : String} {branches : List Drawing}
    (labelled : graph.labels[index]? = some label)
    (each : List.Forall₂ (Unfolds graph) ((graph.edgesFrom index).map SharingEdge.target)
      branches) :
    Unfolds graph index
      (.node label ((graph.edgesFrom index).map SharingEdge.alternative) branches)

/-- Whether edges lead to the numbers of the targets, in order, all marked or none. -/
def Leads (nodes : List Node) (marked : Bool) (edges : List SharingEdge) (targets : List Node) :
    Prop :=
  List.Forall₂ (fun edge target => edge.alternative = marked ∧ nodes[edge.target]? = some target)
    edges targets

/-- Whether a graph is a forest, flattened: the nodes of the forest have one number each, the root
comes first, and the edges are those from each node to its parts. -/
structure Flattens (graph : SharingGraph) (nodes : List Node) (root : Node) : Prop where
  first : nodes[0]? = some root
  once : (nodes.map Node.id).Nodup
  mem_iff : ∀ {node : Node}, node ∈ nodes ↔ root.Reaches node
  labels : graph.labels.toList = nodes.map labelOf
  valid : ∀ edge ∈ graph.edges.toList, edge.source < nodes.length ∧ edge.target < nodes.length
  leads : ∀ {index : Nat} {node : Node}, nodes[index]? = some node →
    Leads nodes node.isAmbiguous (graph.edgesFrom index) node.parts
  reachable : ∀ index < nodes.length, Relation.ReflTransGen graph.Joins 0 index

section Leads

variable {nodes later : List Node} {marked : Bool} {edges : List SharingEdge} {targets : List Node}

theorem getElem?_of_grows (grows : nodes <+: later) {index : Nat} {node : Node}
    (found : nodes[index]? = some node) : later[index]? = some node := by
  obtain ⟨rest, rfl⟩ := grows
  rw [List.getElem?_append_left (List.getElem?_eq_some_iff.1 found).1, found]

theorem getElem?_snoc_iff {node other : Node} {index : Nat} :
    (nodes ++ [node])[index]? = some other ↔
      nodes[index]? = some other ∨ (index = nodes.length ∧ node = other) := by
  grind

theorem Leads.mono (leads : Leads nodes marked edges targets) (grows : nodes <+: later) :
    Leads later marked edges targets :=
  leads.imp fun _ _ ⟨alternative, found⟩ => ⟨alternative, getElem?_of_grows grows found⟩

theorem Leads.snoc (leads : Leads nodes marked edges targets) {edge : SharingEdge} {target : Node}
    (alternative : edge.alternative = marked) (found : nodes[edge.target]? = some target) :
    Leads nodes marked (edges ++ [edge]) (targets ++ [target]) :=
  List.rel_append leads (.cons ⟨alternative, found⟩ .nil)

end Leads

/-! ## Numbers -/

/-- Whether the nodes are the numbered ones, in order. They are nodes of one forest. -/
structure Numbered (root : Node) (nodes : List Node) (p : Partial) : Prop where
  inRoot : ∀ node ∈ nodes, root.Reaches node
  labels : p.graph.labels.toList = nodes.map labelOf
  numbers : ∀ {id number : Nat},
    p.numbers[id]? = some number ↔ ∃ node, nodes[number]? = some node ∧ node.id = id
  sources : ∀ edge ∈ p.graph.edges.toList, edge.source < nodes.length

/-- Whether all that is under the nodes up to some size is among them. -/
def Settled (size : Nat) (nodes : List Node) : Prop :=
  ∀ node ∈ nodes, sizeOf node ≤ size → ∀ {other : Node}, node.Reaches other → other ∈ nodes

/-- What becomes of the edges as nodes are added: the busy numbers apart, nothing is put down for
nodes that have been there, and all that is due for those that have not. -/
structure Drawn (busy : Nat → Prop) (nodes : List Node) (p : Partial) (later : List Node)
    (q : Partial) : Prop where
  kept : ∀ {index : Nat}, index < nodes.length → ¬ busy index →
    q.graph.edgesFrom index = p.graph.edgesFrom index
  drawn : ∀ {index : Nat} {node : Node}, nodes.length ≤ index → later[index]? = some node →
    Leads later node.isAmbiguous (q.graph.edgesFrom index) node.parts

section Numbered

variable {root node : Node} {nodes later : List Node} {p q : Partial}

theorem Numbered.start : Numbered root [] {} where
  inRoot _ member := absurd member List.not_mem_nil
  labels := rfl
  numbers := by simp
  sources _ member := absurd member List.not_mem_nil

theorem Numbered.size_eq (numbered : Numbered root nodes p) :
    p.graph.labels.size = nodes.length := by
  rw [← Array.length_toList, numbered.labels, List.length_map]

theorem Numbered.number_iff (numbered : Numbered root nodes p) (identified : root.Identified)
    (reaches : root.Reaches node) {number : Nat} :
    p.numbers[node.id]? = some number ↔ nodes[number]? = some node := by
  refine numbered.numbers.trans ⟨fun ⟨other, found, id_eq⟩ => ?_, fun found => ⟨node, found, rfl⟩⟩
  obtain rfl := identified (numbered.inRoot other (List.mem_of_getElem? found)) reaches id_eq
  exact found

/-- No two of the nodes have the same id. -/
theorem Numbered.nodup (numbered : Numbered root nodes p) : (nodes.map Node.id).Nodup := by
  rw [List.nodup_iff_getElem?_ne_getElem?]
  intro first second less bound same
  rw [List.length_map] at bound
  rw [List.getElem?_map, List.getElem?_map, List.getElem?_eq_getElem bound,
    List.getElem?_eq_getElem (less.trans bound), Option.map_some, Option.map_some,
    Option.some.injEq] at same
  have foundFirst := numbered.numbers.2 ⟨_, List.getElem?_eq_getElem (less.trans bound), same⟩
  have foundSecond := numbered.numbers.2 ⟨_, List.getElem?_eq_getElem bound, rfl⟩
  rw [foundFirst, Option.some.injEq] at foundSecond
  exact absurd foundSecond (Nat.ne_of_lt less)

/-- A node without a number is met for the first time. -/
theorem Numbered.meet_eq (numbered : Numbered root nodes p)
    (unknown : p.numbers[node.id]? = none) : Node.meet nodes node = nodes ++ [node] := by
  refine if_neg fun known => ?_
  obtain ⟨other, member, id_eq⟩ := List.mem_map.1 known
  obtain ⟨number, found⟩ := List.getElem?_of_mem member
  rw [numbered.numbers.2 ⟨other, found, id_eq⟩] at unknown
  cases unknown

theorem Numbered.addNode (numbered : Numbered root nodes p) (reaches : root.Reaches node)
    (unknown : p.numbers[node.id]? = none) :
    Numbered root (nodes ++ [node]) (p.addNode node).2 where
  inRoot other member := by
    rcases List.mem_append.1 member with old | new
    · exact numbered.inRoot other old
    · exact List.mem_singleton.1 new ▸ reaches
  labels := by
    rw [Partial.addNode, Array.toList_push, numbered.labels, List.map_append, List.map_singleton]
  numbers := by
    intro id number
    have place : (∃ other, (nodes ++ [node])[number]? = some other ∧ other.id = id) ↔
        p.numbers[id]? = some number ∨ (number = nodes.length ∧ node.id = id) := by
      simp only [getElem?_snoc_iff, or_and_right, exists_or, numbered.numbers, and_assoc,
        exists_and_left, exists_eq_left']
    rw [place, Partial.addNode, Std.TreeMap.getElem?_insert, numbered.size_eq]
    split
    · next same =>
      obtain rfl := Std.LawfulEqOrd.eq_of_compare same
      simp only [unknown, Option.some.injEq, reduceCtorEq, false_or, and_true, eq_comm]
    · next differs =>
      refine (or_iff_left ?_).symm
      rintro ⟨-, rfl⟩
      exact differs Std.ReflCmp.compare_self
  sources edge member := by
    have old := numbered.sources edge member
    rw [List.length_append]
    omega

theorem Numbered.addEdge (numbered : Numbered root nodes p) {edge : SharingEdge}
    (source : edge.source < nodes.length) : Numbered root nodes (p.addEdge edge) where
  inRoot := numbered.inRoot
  labels := numbered.labels
  numbers := numbered.numbers
  sources other member := by
    rw [Partial.addEdge, Array.toList_push] at member
    rcases List.mem_append.1 member with old | new
    · exact numbered.sources other old
    · exact List.mem_singleton.1 new ▸ source

end Numbered

/-! ## Adding a node -/

theorem edgesFrom_addEdge (p : Partial) (edge : SharingEdge) (index : Nat) :
    (p.addEdge edge).graph.edgesFrom index =
      p.graph.edgesFrom index ++ if edge.source = index then [edge] else [] := by
  unfold edgesFrom Partial.addEdge
  rw [Array.toList_push, List.filter_append, List.filter_singleton]
  by_cases same : edge.source = index <;> simp [same]

theorem Numbered.edgesFrom_of_le {root : Node} {nodes : List Node} {p : Partial}
    (numbered : Numbered root nodes p) {index : Nat} (new : nodes.length ≤ index) :
    p.graph.edgesFrom index = [] := by
  refine List.filter_eq_nil_iff.2 fun edge member => ?_
  have old := numbered.sources edge member
  simp only [decide_eq_true_eq]
  omega

theorem add_eq (node : Node) (p : Partial) :
    add node p = p.visit node fun number => addAll number node.isAmbiguous node.parts := by
  cases node <;> rfl

section Settled

variable {root node : Node} {nodes : List Node}

/-- What a walk through a whole forest meets is complete. -/
theorem Settled.meetAll (identified : root.Identified)
    (inRoot : ∀ other ∈ nodes, root.Reaches other) (reaches : root.Reaches node) {size : Nat}
    (settled : Settled size nodes) : Settled size (Node.meetAll nodes node.preorder) := by
  have mem_iff {other : Node} :
      other ∈ Node.meetAll nodes node.preorder ↔ other ∈ nodes ∨ other ∈ node.preorder :=
    Node.mem_meetAll_iff identified inRoot fun part member =>
      reaches.trans (Node.mem_preorder_iff.1 member)
  intro first member small second below
  rcases mem_iff.1 member with old | new
  · exact mem_iff.2 (.inl (settled first old small below))
  · exact mem_iff.2 (.inr (Node.mem_preorder_iff.2 ((Node.mem_preorder_iff.1 new).trans below)))

/-- A node whose parts are still to be added is larger than they are. -/
theorem Settled.snoc (settled : Settled (sizeOf node) nodes) {part : Node}
    (member : part ∈ node.parts) : Settled (sizeOf part) (nodes ++ [node]) := by
  have smaller := Node.sizeOf_lt_of_mem_parts member
  intro first isFirst small second below
  rcases List.mem_append.1 isFirst with old | new
  · exact List.mem_append_left _ (settled first old (by omega) below)
  · obtain rfl := List.mem_singleton.1 new
    omega

end Settled

theorem Drawn.refl {busy : Nat → Prop} {nodes : List Node} {p : Partial} :
    Drawn busy nodes p nodes p where
  kept _ _ := rfl
  drawn new found := absurd (List.getElem?_eq_some_iff.1 found).1 (Nat.not_lt_of_le new)

theorem Drawn.trans {busy : Nat → Prop} {nodes middle later : List Node} {p q r : Partial}
    (first : Drawn busy nodes p middle q) (second : Drawn busy middle q later r)
    (grows : nodes <+: middle) (growsToo : middle <+: later)
    (old : ∀ index, busy index → index < nodes.length) : Drawn busy nodes p later r where
  kept inNodes idle :=
    (second.kept (Nat.lt_of_lt_of_le inNodes grows.length_le) idle).trans
      (first.kept inNodes idle)
  drawn {index node} new found := by
    rcases Nat.lt_or_ge index middle.length with inMiddle | newer
    · obtain ⟨other, there⟩ : ∃ other, middle[index]? = some other :=
        ⟨_, List.getElem?_eq_getElem inMiddle⟩
      obtain rfl := Option.some.inj ((getElem?_of_grows growsToo there).symm.trans found)
      rw [second.kept inMiddle fun isBusy => absurd (old index isBusy) (Nat.not_lt_of_le new)]
      exact (first.drawn new there).mono growsToo
    · exact second.drawn newer found

/-- Whether adding a node gives numbers to just the nodes that a walk from there meets for the first
time, and puts down all edges that are due for them. -/
structure Adds (node : Node) (nodes : List Node) (p : Partial) (root : Node) : Prop where
  number : (Node.meetAll nodes node.preorder)[(add node p).1]? = some node
  numbered : Numbered root (Node.meetAll nodes node.preorder) (add node p).2
  drawn : Drawn (fun _ => False) nodes p (Node.meetAll nodes node.preorder) (add node p).2

/-- Whether adding the targets of a number does so as well, and leads to the targets in order. -/
structure AddsAll (source : Nat) (marked : Bool) (targets : List Node) (nodes : List Node)
    (p : Partial) (root : Node) : Prop where
  numbered : Numbered root (Node.meetAll nodes (Node.preorderAll targets))
    (addAll source marked targets p)
  drawn : Drawn (· = source) nodes p (Node.meetAll nodes (Node.preorderAll targets))
    (addAll source marked targets p)
  leads : ∀ earlier : List Node, Leads nodes marked (p.graph.edgesFrom source) earlier →
    Leads (Node.meetAll nodes (Node.preorderAll targets)) marked
      ((addAll source marked targets p).graph.edgesFrom source) (earlier ++ targets)

section Adding

variable {root node target : Node} {nodes rest : List Node} {p : Partial} {source : Nat}
  {marked : Bool}

/-- A node that has been met brings nothing new: all that is under it has been met as well, for it is
no larger than itself. -/
theorem adds_of_known (identified : root.Identified) (reaches : root.Reaches node)
    (numbered : Numbered root nodes p) (settled : Settled (sizeOf node) nodes) {number : Nat}
    (known : p.numbers[node.id]? = some number) : Adds node nodes p root := by
  have found := (numbered.number_iff identified reaches).1 known
  have met : Node.meetAll nodes node.preorder = nodes :=
    Node.meetAll_of_subset fun other member =>
      settled node (List.mem_of_getElem? found) (Nat.le_refl _) (Node.mem_preorder_iff.1 member)
  have added : add node p = (number, p) := by
    rw [add_eq, Partial.visit, known]
  refine ⟨?_, ?_, ?_⟩ <;> rw [met, added]
  · exact found
  · exact numbered
  · exact .refl

/-- A node that is met for the first time gets the next number, and then its parts are added. -/
theorem adds_of_unknown (numbered : Numbered root nodes p) (unknown : p.numbers[node.id]? = none)
    (parts : AddsAll nodes.length node.isAmbiguous node.parts (nodes ++ [node]) (p.addNode node).2
      root) : Adds node nodes p root := by
  obtain ⟨numberedAll, drawn, leads⟩ := parts
  have meets : Node.meetAll nodes node.preorder =
      Node.meetAll (nodes ++ [node]) (Node.preorderAll node.parts) := by
    rw [Node.preorder_eq, Node.meetAll, List.foldl_cons, numbered.meet_eq unknown]
    rfl
  have added : add node p = (nodes.length,
      addAll nodes.length node.isAmbiguous node.parts (p.addNode node).2) := by
    rw [add_eq, Partial.visit, unknown, ← numbered.size_eq]
    rfl
  have length_eq : (nodes ++ [node]).length = nodes.length + 1 := List.length_append
  have here : (Node.meetAll (nodes ++ [node]) (Node.preorderAll node.parts))[nodes.length]? =
      some node :=
    getElem?_of_grows Node.meetAll_grows List.getElem?_concat_length
  refine ⟨?_, ?_, ?_⟩ <;> rw [meets, added]
  · exact here
  · exact numberedAll
  · refine ⟨fun {index} old _ => ?_, fun {index other} new found => ?_⟩
    · exact drawn.kept (by omega) (Nat.ne_of_lt old)
    · rcases Nat.eq_or_lt_of_le new with rfl | newer
      · obtain rfl := Option.some.inj (here.symm.trans found)
        have none : (p.addNode node).2.graph.edgesFrom nodes.length = [] :=
          numbered.edgesFrom_of_le (Nat.le_refl _)
        exact leads [] (none ▸ .nil)
      · exact drawn.drawn (by omega) found

/-- The first target is added, then the edge to it, then the others. -/
theorem AddsAll.cons (known : source < nodes.length) (first : Adds target nodes p root)
    (others : AddsAll source marked rest (Node.meetAll nodes target.preorder)
      ((add target p).2.addEdge ⟨source, (add target p).1, marked⟩) root) :
    AddsAll source marked (target :: rest) nodes p root := by
  obtain ⟨number, -, drawn⟩ := first
  obtain ⟨numberedAll, drawnAll, leadsAll⟩ := others
  have meets : Node.meetAll nodes (Node.preorderAll (target :: rest)) =
      Node.meetAll (Node.meetAll nodes target.preorder) (Node.preorderAll rest) :=
    Node.meetAll_append ..
  have grows : nodes <+: Node.meetAll nodes target.preorder := Node.meetAll_grows
  have stepped : Drawn (· = source) nodes p (Node.meetAll nodes target.preorder)
      ((add target p).2.addEdge ⟨source, (add target p).1, marked⟩) := by
    refine ⟨fun {index} old idle => ?_, fun {index node} new found => ?_⟩
    · rw [edgesFrom_addEdge, if_neg fun same => idle same.symm, List.append_nil]
      exact drawn.kept old id
    · rw [edgesFrom_addEdge, if_neg fun (same : source = index) =>
          Nat.not_lt_of_le new (same ▸ known), List.append_nil]
      exact drawn.drawn new found
  refine ⟨?_, ?_, fun earlier leads => ?_⟩ <;> rw [meets]
  · exact numberedAll
  · exact stepped.trans drawnAll grows Node.meetAll_grows fun _ same => by rwa [same]
  · rw [List.append_cons]
    refine leadsAll _ ?_
    rw [edgesFrom_addEdge, if_pos rfl, drawn.kept known id]
    exact (leads.mono grows).snoc rfl number

/-- Targets are added as they should be if each of them is, at any time at which all that is under
nodes of its size has been met. -/
theorem addsAll_of_each (identified : root.Identified) {targets : List Node}
    (reaches : ∀ target ∈ targets, root.Reaches target)
    (each : ∀ target ∈ targets, ∀ {nodes : List Node} {p : Partial}, Numbered root nodes p →
      Settled (sizeOf target) nodes → Adds target nodes p root) :
    ∀ {nodes : List Node} {p : Partial}, Numbered root nodes p →
      (∀ target ∈ targets, Settled (sizeOf target) nodes) → source < nodes.length →
      AddsAll source marked targets nodes p root := by
  induction targets with
  | nil =>
    intro nodes p numbered _ _
    exact ⟨numbered, .refl, fun _ leads => (List.append_nil _).symm ▸ leads⟩
  | cons target rest ih =>
    intro nodes p numbered settled known
    obtain ⟨reachesTarget, reachesRest⟩ := List.forall_mem_cons.1 reaches
    obtain ⟨eachTarget, eachRest⟩ := List.forall_mem_cons.1 each
    obtain ⟨settledTarget, settledRest⟩ := List.forall_mem_cons.1 settled
    have first := eachTarget numbered settledTarget
    have grows : nodes <+: Node.meetAll nodes target.preorder := Node.meetAll_grows
    have knownToo := Nat.lt_of_lt_of_le known grows.length_le
    exact .cons known first (ih reachesRest eachRest (first.numbered.addEdge knownToo)
      (fun other member => (settledRest other member).meetAll identified numbered.inRoot
        reachesTarget) knownToo)

/-- A node is added as it should be, at any time at which all that is under nodes of its size has
been met. -/
theorem adds (identified : root.Identified) (node : Node) : root.Reaches node →
    ∀ {nodes : List Node} {p : Partial}, Numbered root nodes p → Settled (sizeOf node) nodes →
      Adds node nodes p root := by
  induction node using Node.induction_parts with
  | step node ih =>
    intro reaches nodes p numbered settled
    cases known : p.numbers[node.id]? with
    | some number => exact adds_of_known identified reaches numbered settled known
    | none =>
      have reachesParts : ∀ part ∈ node.parts, root.Reaches part :=
        fun part member => reaches.trans (.part member (.root part))
      have numberKnown : nodes.length < (nodes ++ [node]).length := by
        rw [List.length_append, List.length_singleton]
        exact Nat.lt_succ_self _
      exact adds_of_unknown numbered known (addsAll_of_each identified reachesParts
        (fun part member => ih part member (reachesParts part member))
        (numbered.addNode reaches known) (fun part member => settled.snoc member) numberKnown)

/-- The whole forest is added as it should be: nothing has been met. -/
theorem adds_root (identified : root.Identified) : Adds root [] {} root :=
  adds identified root (.root root) .start fun _ none => absurd none List.not_mem_nil

end Adding

/-! ## The graph as a whole -/

section Flattens

variable {graph : SharingGraph} {nodes targets : List Node} {root node : Node} {marked : Bool}
  {edges : List SharingEdge}

theorem Leads.marks (leads : Leads nodes marked edges targets) :
    edges.map SharingEdge.alternative = targets.map fun _ => marked := by
  induction leads with
  | nil => rfl
  | cons here _ ih => rw [List.map_cons, List.map_cons, here.1, ih]

theorem Leads.target_lt (leads : Leads nodes marked edges targets) {edge : SharingEdge}
    (member : edge ∈ edges) : edge.target < nodes.length := by
  obtain ⟨target, -, -, found⟩ := exists_of_mem_right (List.Forall₂.flip (R := flip _) leads) member
  exact (List.getElem?_eq_some_iff.1 found).1

/-- Where edges lead, the targets are unfolded, if each of them is unfolded from its number. -/
theorem Leads.unfolds_iff (leads : Leads nodes marked edges targets)
    (each : ∀ target ∈ targets, ∀ {index : Nat}, nodes[index]? = some target →
      ∀ {drawing : Drawing}, graph.Unfolds index drawing ↔ drawing = target.drawing)
    {branches : List Drawing} :
    List.Forall₂ graph.Unfolds (edges.map SharingEdge.target) branches ↔
      branches = targets.map Node.drawing := by
  induction leads generalizing branches with
  | nil => exact List.forall₂_nil_left_iff
  | cons here _ ih =>
    obtain ⟨target, further⟩ := List.forall_mem_cons.1 each
    rw [List.map_cons, List.forall₂_cons_left_iff, List.map_cons]
    simp only [ih further, target here.2]
    exact ⟨fun ⟨_, _, first, rest, whole⟩ => first ▸ rest ▸ whole,
      fun whole => ⟨_, _, rfl, rfl, whole⟩⟩

/-- What is unfolded from the number of a node is what can be seen of the forest under it. -/
theorem Flattens.unfolds_iff (flattens : graph.Flattens nodes root) (node : Node) :
    ∀ {index : Nat}, nodes[index]? = some node →
      ∀ {drawing : Drawing}, graph.Unfolds index drawing ↔ drawing = node.drawing := by
  induction node using Node.induction_parts with
  | step node ih =>
    intro index found drawing
    have leads := flattens.leads found
    have labelled : graph.labels[index]? = some (labelOf node) := by
      rw [← Array.getElem?_toList, flattens.labels, List.getElem?_map, found, Option.map_some]
    rw [Node.drawing_eq, ← leads.marks]
    constructor
    · intro unfolds
      cases unfolds with
      | node labelledToo each =>
        rw [(leads.unfolds_iff ih).1 each, Option.some.inj (labelledToo.symm.trans labelled)]
    · rintro rfl
      exact .node labelled ((leads.unfolds_iff ih).2 rfl)

/-- The edges lead from the number of a node to the numbers of all nodes under it. -/
theorem exists_joined
    (leads : ∀ {index : Nat} {node : Node}, nodes[index]? = some node →
      Leads nodes node.isAmbiguous (graph.edgesFrom index) node.parts)
    {other : Node} (reaches : node.Reaches other) : ∀ {index : Nat}, nodes[index]? = some node →
      ∃ target, nodes[target]? = some other ∧ Relation.ReflTransGen graph.Joins index target := by
  induction reaches with
  | root => exact fun found => ⟨_, found, .refl⟩
  | part member _ ih =>
    intro index found
    obtain ⟨edge, isEdge, -, foundPart⟩ := exists_of_mem_right (leads found) member
    obtain ⟨inGraph, source⟩ := List.mem_filter.1 isEdge
    obtain ⟨target, foundOther, joined⟩ := ih foundPart
    exact ⟨target, foundOther, .head ⟨edge, inGraph, of_decide_eq_true source, rfl⟩ joined⟩

/-- A forest whose nodes are told apart by their ids is flattened. -/
theorem flattens_ofNode (identified : root.Identified) :
    (ofNode root).Flattens root.firstVisits root := by
  have ⟨_, numbered, drawn⟩ := adds_root identified
  have first : root.firstVisits[0]? = some root := by
    have grows : [root] <+: Node.meetAll [root] (Node.preorderAll root.parts) := Node.meetAll_grows
    rw [Node.firstVisits, Node.preorder_eq]
    exact getElem?_of_grows grows rfl
  have leads : ∀ {index : Nat} {node : Node}, root.firstVisits[index]? = some node →
      Leads root.firstVisits node.isAmbiguous ((ofNode root).edgesFrom index) node.parts :=
    drawn.drawn (Nat.zero_le _)
  refine ⟨first, numbered.nodup, Node.mem_firstVisits_iff identified, numbered.labels,
    fun edge member => ?_, leads, fun index bound => ?_⟩
  · have source := numbered.sources edge member
    have isEdge : edge ∈ (ofNode root).edgesFrom edge.source :=
      List.mem_filter.2 ⟨member, decide_eq_true rfl⟩
    exact ⟨source, (leads (List.getElem?_eq_getElem source)).target_lt isEdge⟩
  · have reaches := numbered.inRoot _ (List.getElem_mem bound)
    obtain ⟨target, found, joined⟩ := exists_joined leads reaches first
    rw [← List.getElem?_eq_getElem bound] at found
    exact (List.getElem?_inj bound (.of_map _ numbered.nodup)).1 found.symm ▸ joined

end Flattens

/-- The graph of a forest is the forest, flattened. In every forest the nodes are told apart by their
ids, and then each has one number, in the order of the first visits; the root has the first; every
number is reached from there; and the edges that leave a number lead to the parts of its node, in
order and as often as they stand there. So nothing but the forest is unfolded from the graph. -/
theorem ofNode_faithful :
    (∀ {root : Node}, root.IsForest → root.Identified) ∧
    ∀ {root : Node}, root.Identified →
      (∀ {node : Node} {index : Nat}, root.Reaches node →
        ((add root {}).2.numbers[node.id]? = some index ↔
          root.firstVisits[index]? = some node)) ∧
      (ofNode root).Flattens root.firstVisits root ∧
      ∀ {drawing : Drawing}, (ofNode root).Unfolds 0 drawing ↔ drawing = root.drawing := by
  refine ⟨Node.IsForest.identified, fun {root} identified => ?_⟩
  have flattens := flattens_ofNode identified
  exact ⟨fun reaches => (adds_root identified).numbered.number_iff identified reaches, flattens,
    flattens.unfolds_iff root flattens.first⟩

/-- The root of the forest takes one ambiguity twice, whose alternatives share a leaf. There are
five numbers, and two edges alike that leave the first. -/
theorem ofNode_faithful_sharedTwice :
    Grammar.sharedTwice.IsForest ∧ Grammar.sharedTwice.firstVisits.map Node.id = [4, 3, 1, 0, 2] ∧
    (ofNode Grammar.sharedTwice).edges.toList =
      [⟨2, 3, false⟩, ⟨1, 2, true⟩, ⟨4, 3, false⟩, ⟨1, 4, true⟩, ⟨0, 1, false⟩, ⟨0, 1, false⟩] ∧
    (ofNode Grammar.sharedTwice).Flattens Grammar.sharedTwice.firstVisits Grammar.sharedTwice ∧
    (ofNode Grammar.sharedTwice).Unfolds 0 Grammar.sharedTwice.drawing := by
  have letters : Node.Constructed 3 [Grammar.sharedLetter 2 "Second",
      Grammar.sharedLetter 1 "First", .leaf 0 (.literal "a") "a" ⟨0, 1⟩] :=
    .branch _ _ _ (.branch _ _ _ (.leaf _ _ _ .nil) (by simp)) (by simp)
  have merged : Node.merge? 3 (.nonTerminal "A") ⟨0, 1⟩
      [Grammar.sharedLetter 1 "First", Grammar.sharedLetter 2 "Second"] =
        some (.ambiguity 3 (.nonTerminal "A") ⟨0, 1⟩
          [Grammar.sharedLetter 1 "First", Grammar.sharedLetter 2 "Second"]) := rfl
  have forest : Grammar.sharedTwice.IsForest :=
    .made (.branch _ _ _ (.ambiguity letters (by simp) merged) (by simp)) List.mem_cons_self
  obtain ⟨-, flattens, unfolds⟩ := ofNode_faithful.2 (ofNode_faithful.1 forest)
  exact ⟨forest, by decide +kernel, by decide +kernel, flattens, unfolds.2 rfl⟩

end SharingGraph

end Scannerless
