import MeleeHarness.Lib.Explore
import MeleeHarness.M2c.FlowGraph

/-!
# Loops of a flow graph

An edge to a dominator closes a loop: `compute_relations` puts into it whatever comes back to
the edge without its head. `terminate_infinite_loops` adds edges to the end until every basic
node has a way to it.

* `naturalLoops_spec`: the loop of a head is the nodes that it dominates and from which there
  is a way to one of its back edges that does not contain it;
* `terminateInfiniteLoops_spec`: what has got an edge, and that nothing but the dominators of
  the end depends on it.
-/

namespace MeleeHarness.M2c

open Lib

/-- The head is the node at which it is kept. -/
structure NaturalLoop (α : Type) where
  nodes : Finset α
  backedges : Finset α

/-- A way that passes nothing that is left out. -/
theorem exists_walk_without {α : Type} {next : α → List α} {without a b : α}
    (h : LeadsTo next (· = without) a b) :
    ∃ path, Walk (fun a b => b ∈ next a) a path b ∧ without ∉ path := by
  induction h with
  | refl => exact ⟨[], .nil, List.not_mem_nil⟩
  | @tail b c _ hstep ih =>
    obtain ⟨path, hwalk, hnot⟩ := ih
    refine ⟨c :: path, hwalk.cons hstep.1, ?_⟩
    rintro (_ | ⟨_, hmem⟩)
    · exact hstep.2 rfl
    · exact hnot hmem

namespace Nodes
variable {α : Type} [DecidableEq α] (g : Nodes α)

def edges : List (α × α) := g.all.flatMap fun node => (g.children node).map (node, ·)

theorem mem_edges {a b : α} : (a, b) ∈ g.edges ↔ g.Edge a b := by
  simp [edges, g.complete]

variable [Fintype α]

def reachableWithout (start stop without : α) : Bool :=
  stop ∈ explore g.children (· = without) [start] ∅

theorem reachableWithout_iff {start stop without : α} :
    g.reachableWithout start stop without = true ↔
      start ≠ without ∧ LeadsTo g.children (· = without) start stop := by
  rw [reachableWithout, decide_eq_true_eq, mem_explore]
  simp

/-! ## Natural loops -/

abbrev Loops (α : Type) := α → Option (NaturalLoop α)

def loopAt (loops : Loops α) (head : α) : NaturalLoop α := (loops head).getD ⟨∅, ∅⟩

/-- One edge from a node to a child. -/
def addEdge (loops : Loops α) (edge : α × α) : Loops α :=
  if edge.2 ∈ g.dominators edge.1 then
    Function.update loops edge.2 (some
      { nodes := (loopAt loops edge.2).nodes ∪ {edge.2, edge.1} ∪
          Finset.univ.filter fun parent => g.reachableWithout parent edge.1 edge.2
        backedges := insert edge.1 (loopAt loops edge.2).backedges })
  else loops

/-- The `loop` of each node. -/
def naturalLoops : Loops α := g.edges.foldl g.addEdge fun _ => none

/-- What the loops are after some of the edges. -/
structure LoopsOf (done : List (α × α)) (loops : Loops α) : Prop where
  isSome : ∀ head, (loops head).isSome ↔ ∃ tail, tail ∈ (loopAt loops head).backedges
  backedges : ∀ head tail, tail ∈ (loopAt loops head).backedges ↔
    (tail, head) ∈ done ∧ head ∈ g.dominators tail
  nodes : ∀ head a, a ∈ (loopAt loops head).nodes ↔ ∃ tail ∈ (loopAt loops head).backedges,
    a = head ∨ a = tail ∨ g.reachableWithout a tail head = true

variable {g}

theorem LoopsOf.addEdge {done : List (α × α)} {loops : Loops α} (h : g.LoopsOf done loops)
    (edge : α × α) : g.LoopsOf (done ++ [edge]) (g.addEdge loops edge) := by
  obtain ⟨node, child⟩ := edge
  unfold Nodes.addEdge
  split_ifs with hdom
  · have hother (head : α) (hne : head ≠ child) (loop : NaturalLoop α) :
        loopAt (Function.update loops child (some loop)) head = loopAt loops head := by
      rw [loopAt, loopAt, Function.update_of_ne hne]
    have hchild (loop : NaturalLoop α) :
        loopAt (Function.update loops child (some loop)) child = loop := by
      rw [loopAt, Function.update_self]
      rfl
    constructor
    · intro head
      by_cases hhead : head = child
      · subst hhead
        rw [hchild, Function.update_self]
        exact iff_of_true rfl ⟨node, Finset.mem_insert_self _ _⟩
      · rw [hother head hhead, Function.update_of_ne hhead]
        exact h.isSome head
    · intro head tail
      by_cases hhead : head = child
      · subst hhead
        rw [hchild]
        simp only [Finset.mem_insert, h.backedges, List.mem_append, List.mem_singleton,
          Prod.mk.injEq, and_true]
        constructor
        · rintro (rfl | htail)
          · exact ⟨.inr rfl, hdom⟩
          · exact ⟨.inl htail.1, htail.2⟩
        · rintro ⟨htail | rfl, hd⟩
          · exact .inr ⟨htail, hd⟩
          · exact .inl rfl
      · rw [hother head hhead, h.backedges]
        simp [hhead]
    · intro head a
      by_cases hhead : head = child
      · subst hhead
        rw [hchild]
        simp only [Finset.mem_union, h.nodes, Finset.mem_insert, Finset.mem_singleton,
          Finset.mem_filter, Finset.mem_univ, true_and, exists_eq_or_imp]
        constructor
        · rintro ((hold | hcase | hcase) | hreach)
          · exact .inr hold
          · exact .inl (.inl hcase)
          · exact .inl (.inr (.inl hcase))
          · exact .inl (.inr (.inr hreach))
        · rintro ((hcase | hcase | hreach) | hold)
          · exact .inl (.inr (.inl hcase))
          · exact .inl (.inr (.inr hcase))
          · exact .inr hreach
          · exact .inl (.inl hold)
      · rw [hother head hhead]
        exact h.nodes head a
  · refine ⟨h.isSome, ?_, h.nodes⟩
    intro head tail
    rw [h.backedges, List.mem_append, List.mem_singleton]
    constructor
    · exact fun htail => ⟨.inl htail.1, htail.2⟩
    · rintro ⟨htail | heq, hd⟩
      · exact ⟨htail, hd⟩
      · obtain ⟨rfl, rfl⟩ := Prod.mk.inj heq
        exact absurd hd hdom

variable (g)

theorem naturalLoops_loopsOf : g.LoopsOf g.edges g.naturalLoops := by
  have hrun : ∀ (rest done : List (α × α)) (loops : Loops α), g.LoopsOf done loops →
      g.LoopsOf (done ++ rest) (rest.foldl g.addEdge loops) := by
    intro rest
    induction rest with
    | nil =>
      intro done loops h
      simpa using h
    | cons edge rest ih =>
      intro done loops h
      rw [List.foldl_cons, List.append_cons]
      exact ih _ _ (h.addEdge edge)
  refine hrun g.edges [] _ ⟨?_, ?_, ?_⟩ <;> simp [loopAt]

/-- A node has a loop if an edge leads to it from a node that it dominates. -/
theorem naturalLoops_spec (head : α) :
    ((g.naturalLoops head).isSome ↔ ∃ tail, g.Edge tail head ∧ Dominates g.Edge g.entry head tail) ∧
    ∀ loop, g.naturalLoops head = some loop →
      (∀ tail, tail ∈ loop.backedges ↔ g.Edge tail head ∧ Dominates g.Edge g.entry head tail) ∧
      ∀ a, a ∈ loop.nodes ↔ a = head ∨ a ≠ head ∧ Dominates g.Edge g.entry head a ∧
        ∃ tail ∈ loop.backedges, LeadsTo g.children (· = head) a tail := by
  have h := g.naturalLoops_loopsOf
  have hback : ∀ tail, tail ∈ (loopAt g.naturalLoops head).backedges ↔
      g.Edge tail head ∧ Dominates g.Edge g.entry head tail := by
    intro tail
    rw [h.backedges, mem_edges, mem_dominators.1]
  refine ⟨?_, ?_⟩
  · rw [h.isSome]
    simp only [hback]
  · intro loop hloop
    have hat : loopAt g.naturalLoops head = loop := by
      rw [loopAt, hloop]
      rfl
    rw [hat] at hback
    refine ⟨hback, ?_⟩
    intro a
    have hnodes := h.nodes head a
    rw [hat] at hnodes
    rw [hnodes]
    constructor
    · rintro ⟨tail, htail, hcase⟩
      by_cases ha : a = head
      · exact .inl ha
      · refine .inr ⟨ha, ?_⟩
        have hway : LeadsTo g.children (· = head) a tail := by
          rcases hcase with rfl | rfl | hreach
          · exact absurd rfl ha
          · exact .refl
          · exact (g.reachableWithout_iff.mp hreach).2
        obtain ⟨path, hwalk, hnot⟩ := exists_walk_without hway
        exact ⟨((hback tail).mp htail).2.of_after hwalk hnot, tail, htail, hway⟩
    · rintro (rfl | ⟨ha, -, tail, htail, hway⟩)
      · obtain ⟨tail, htail⟩ := (h.isSome a).mp (by rw [hloop]; rfl)
        rw [hat] at htail
        exact ⟨tail, htail, .inl rfl⟩
      · exact ⟨tail, htail, .inr (.inr (g.reachableWithout_iff.mpr ⟨ha, hway⟩))⟩

end Nodes

/-! ## Infinite loops -/

section
variable {α : Type}

def Node.isBasic : Node α → Bool
  | .basicNode _ _ => true
  | _ => false

/-- A basic node with an edge to the end. -/
def Node.withFake (terminal : α) : Node α → Node α
  | .basicNode successor _ => .basicNode successor (some terminal)
  | node => node

namespace Nodes
variable [DecidableEq α] {g g' : Nodes α}

/-- What the edges to the end that were added leave as it was. -/
structure Terminated (g g' : Nodes α) : Prop where
  all : g'.all = g.all
  entry : g'.entry = g.entry
  terminal : g'.terminal = g.terminal
  node : ∀ a, g'.node a = g.node a ∨ ¬Relation.ReflTransGen g.Edge a g.terminal ∧
    ∃ successor, g.node a = .basicNode successor none ∧
      g'.node a = .basicNode successor (some g.terminal)

theorem Terminated.edge (h : Terminated g g') {a b : α} (hedge : g.Edge a b) : g'.Edge a b := by
  rcases h.node a with hnode | ⟨-, successor, hnode, hnode'⟩
  · simpa [Edge, children, hnode] using hedge
  · simp only [Edge, children, hnode, hnode', Node.children, List.mem_cons, List.not_mem_nil,
      or_false] at hedge ⊢
    exact .inl hedge

theorem Terminated.way (h : Terminated g g') {a b : α} (hway : Relation.ReflTransGen g.Edge a b) :
    Relation.ReflTransGen g'.Edge a b := hway.lift id fun _ _ => h.edge

theorem Terminated.edge_back (h : Terminated g g') {a b : α} (hedge : g'.Edge a b)
    (hb : b ≠ g.terminal) : g.Edge a b := by
  rcases h.node a with hnode | ⟨-, successor, hnode, hnode'⟩
  · simpa [Edge, children, hnode] using hedge
  · simp only [Edge, children, hnode, hnode', Node.children, List.mem_cons, List.not_mem_nil,
      or_false] at hedge ⊢
    exact hedge.resolve_right hb

theorem Terminated.trans {g'' : Nodes α} (h : Terminated g g') (h' : Terminated g' g'') :
    Terminated g g'' where
  all := h'.all.trans h.all
  entry := h'.entry.trans h.entry
  terminal := h'.terminal.trans h.terminal
  node := by
    intro a
    rcases h'.node a with hsame | ⟨hstuck, successor, hnode, hnode''⟩
    · rw [hsame]
      exact h.node a
    · rw [h.terminal] at hstuck hnode''
      rcases h.node a with hsame | ⟨-, successor', -, hnode'⟩
      · refine .inr ⟨fun hway => hstuck (h.way hway), successor, ?_, hnode''⟩
        rw [← hsame, hnode]
      · rw [hnode'] at hnode
        cases hnode

variable [Fintype α] (popper : Popper α) (g)

/-- `seen`, going back from the end. -/
def leading : Finset α :=
  sweep (fun a => (g.parents a).toFinset) popper ⟨{g.terminal}, ∅, Finset.disjoint_empty_right _⟩

theorem mem_leading {a : α} : a ∈ g.leading popper ↔ Relation.ReflTransGen g.Edge a g.terminal := by
  rw [leading, mem_sweep, ← Relation.reflTransGen_swap]
  simp only [List.mem_toFinset, mem_parents]

def unterminatedNodes : List α := g.all.filter fun a => a ∉ g.leading popper ∧ (g.node a).isBasic

variable {g} {popper}

theorem mem_unterminatedNodes {a : α} : a ∈ g.unterminatedNodes popper ↔
    ¬Relation.ReflTransGen g.Edge a g.terminal ∧ ∃ successor, g.node a = .basicNode successor none := by
  rw [unterminatedNodes, List.mem_filter, decide_eq_true_eq, mem_leading]
  constructor
  · rintro ⟨-, hstuck, hbasic⟩
    refine ⟨hstuck, ?_⟩
    cases hnode : g.node a with
    | basicNode successor fakeSuccessor =>
      cases fakeSuccessor with
      | none => exact ⟨successor, rfl⟩
      | some f =>
        obtain ⟨rfl, -⟩ := g.fake a successor f hnode
        refine absurd (.single ?_) hstuck
        simp [Edge, children, hnode, Node.children]
    | conditionalNode | returnNode | switchNode | terminalNode =>
      rw [hnode] at hbasic
      cases hbasic
  · rintro ⟨hstuck, successor, hnode⟩
    refine ⟨g.complete a, hstuck, ?_⟩
    rw [hnode]
    rfl

theorem successor_ne {a : α} (h : a ∈ g.unterminatedNodes popper) {successor : α} {f : Option α}
    (hnode : g.node a = .basicNode successor f) : successor ≠ g.terminal := by
  rintro rfl
  obtain ⟨hstuck, successor', hnode'⟩ := mem_unterminatedNodes.mp h
  refine hstuck (.single ?_)
  obtain ⟨rfl, rfl⟩ := Node.basicNode.inj (hnode.symm.trans hnode')
  simp [Edge, children, hnode, Node.children]

/-- `fake_successor = terminal_node` -/
def addFake (g : Nodes α) (a : α) (h : a ∈ g.unterminatedNodes popper) : Nodes α :=
  { g with
    node := Function.update g.node a ((g.node a).withFake g.terminal)
    ends := by
      by_cases ha : g.terminal = a
      · rw [← ha, Function.update_self, g.ends]
        rfl
      · rw [Function.update_of_ne ha]
        exact g.ends
    fake := by
      intro b successor f hb
      by_cases hba : b = a
      · subst hba
        rw [Function.update_self] at hb
        cases hnode : g.node b with
        | basicNode successor' f' =>
          rw [hnode] at hb
          obtain ⟨rfl, hf⟩ := Node.basicNode.inj hb
          exact ⟨(Option.some.inj hf).symm, successor_ne h hnode⟩
        | conditionalNode | returnNode | switchNode | terminalNode =>
          rw [hnode] at hb
          cases hb
      · rw [Function.update_of_ne hba] at hb
        exact g.fake b successor f hb }

theorem addFake_node {a : α} (h : a ∈ g.unterminatedNodes popper) (b : α) :
    (g.addFake a h).node b = if b = a then (g.node a).withFake g.terminal else g.node b := by
  change Function.update g.node a _ b = _
  rw [Function.update_apply]

theorem Terminated.step {a : α} (h : a ∈ g.unterminatedNodes popper) :
    Terminated g (g.addFake a h) where
  all := rfl
  entry := rfl
  terminal := rfl
  node := by
    intro b
    by_cases hba : b = a
    · subst hba
      obtain ⟨hstuck, successor, hnode⟩ := mem_unterminatedNodes.mp h
      refine .inr ⟨hstuck, successor, hnode, ?_⟩
      rw [addFake_node, if_pos rfl, hnode]
      rfl
    · rw [addFake_node, if_neg hba]
      exact .inl rfl

theorem unterminatedNodes_subset (h : Terminated g g') :
    (g'.unterminatedNodes popper).toFinset ⊆ (g.unterminatedNodes popper).toFinset := by
  intro a ha
  rw [List.mem_toFinset, mem_unterminatedNodes, h.terminal] at ha
  rw [List.mem_toFinset, mem_unterminatedNodes]
  obtain ⟨hstuck, successor, hnode⟩ := ha
  refine ⟨fun hway => hstuck (h.way hway), ?_⟩
  rcases h.node a with hsame | ⟨-, successor', -, hnode'⟩
  · exact ⟨successor, hsame ▸ hnode⟩
  · rw [hnode'] at hnode
    cases hnode

theorem addFake_lt {a : α} (h : a ∈ g.unterminatedNodes popper) :
    ((g.addFake a h).unterminatedNodes popper).toFinset.card <
      (g.unterminatedNodes popper).toFinset.card := by
  apply Finset.card_lt_card
  refine (Finset.ssubset_iff_of_subset (unterminatedNodes_subset (.step h))).mpr
    ⟨a, List.mem_toFinset.mpr h, ?_⟩
  rw [List.mem_toFinset, mem_unterminatedNodes]
  rintro ⟨-, successor, hnode⟩
  obtain ⟨-, successor', hnode'⟩ := mem_unterminatedNodes.mp h
  rw [addFake_node, if_pos rfl, hnode'] at hnode
  cases hnode

end Nodes

/-- `terminate_infinite_loops` -/
def terminateInfiniteLoops [DecidableEq α] [Fintype α] (popper : Popper α) (g : Nodes α) : Nodes α :=
  match h : (g.unterminatedNodes popper).getLast? with
  | none => g
  | some a => terminateInfiniteLoops popper (g.addFake a (List.mem_of_getLast? h))
termination_by (g.unterminatedNodes popper).toFinset.card
decreasing_by exact Nodes.addFake_lt _

variable [DecidableEq α] [Fintype α]

theorem terminateInfiniteLoops_terminated (popper : Popper α) (g : Nodes α) :
    Nodes.Terminated g (terminateInfiniteLoops popper g) ∧
      (terminateInfiniteLoops popper g).unterminatedNodes popper = [] := by
  induction g using terminateInfiniteLoops.induct popper with
  | case1 g h =>
    rw [terminateInfiniteLoops]
    split
    · exact ⟨⟨rfl, rfl, rfl, fun _ => .inl rfl⟩, List.getLast?_eq_none_iff.mp h⟩
    · rename_i heq
      rw [h] at heq
      cases heq
  | case2 g a h ih =>
    rw [terminateInfiniteLoops]
    split
    · rename_i heq
      rw [h] at heq
      cases heq
    · rename_i b heq
      obtain rfl : a = b := Option.some.inj (h.symm.trans heq)
      exact ⟨(Nodes.Terminated.step _).trans ih.1, ih.2⟩

/-- Every basic node has a way to the end. Where there was none before, a node may have got an
edge to it; nothing else changes, and no other node's dominators. -/
theorem terminateInfiniteLoops_spec (popper : Popper α) (g : Nodes α) (a : α) :
    (((terminateInfiniteLoops popper g).node a).isBasic = true →
      Relation.ReflTransGen (terminateInfiniteLoops popper g).Edge a g.terminal) ∧
    ((terminateInfiniteLoops popper g).node a = g.node a ∨
      ¬Relation.ReflTransGen g.Edge a g.terminal ∧ ∃ successor,
        g.node a = .basicNode successor none ∧
        (terminateInfiniteLoops popper g).node a = .basicNode successor (some g.terminal)) ∧
    (a ≠ g.terminal → ∀ d, d ∈ (terminateInfiniteLoops popper g).dominators a ↔
      d ∈ g.dominators a) := by
  obtain ⟨hterm, hnone⟩ := terminateInfiniteLoops_terminated popper g
  generalize terminateInfiniteLoops popper g = g' at hterm hnone ⊢
  refine ⟨?_, hterm.node a, ?_⟩
  · intro hbasic
    by_contra hstuck
    have hmem : a ∈ g'.unterminatedNodes popper := by
      rw [Nodes.unterminatedNodes, List.mem_filter, decide_eq_true_eq, Nodes.mem_leading,
        hterm.terminal]
      exact ⟨g'.complete a, hstuck, hbasic⟩
    rw [hnone] at hmem
    cases hmem
  · intro ha d
    rw [Nodes.mem_dominators.1, Nodes.mem_dominators.1, hterm.entry]
    have hback : ∀ path b, Walk g'.Edge g.entry path b → b ≠ g.terminal →
        Walk g.Edge g.entry path b := by
      intro path b hwalk
      induction hwalk with
      | nil => exact fun _ => .nil
      | @cons path b c _ hedge ih =>
        intro hc
        refine (ih ?_).cons (hterm.edge_back hedge hc)
        rintro rfl
        have hends := g'.ends
        rw [hterm.terminal] at hends
        simp [Nodes.Edge, Nodes.children, hends, Node.children] at hedge
    constructor
    · intro hd path hwalk
      exact hd path (hwalk.mono fun _ _ => hterm.edge)
    · exact fun hd path hwalk => hd path (hback path a hwalk ha)

end

/-! ## A block that branches to itself -/

namespace Nodes

def spinningNode : Fin 5 → Node (Fin 5)
  | 0 => .conditionalNode 1 2
  | 1 => .basicNode 1 none
  | 2 => .basicNode 3 none
  | 3 => .returnNode 4
  | 4 => .terminalNode

theorem spinningNode_real (a successor f : Fin 5) : spinningNode a ≠ .basicNode successor (some f) := by
  fin_cases a <;> simp [spinningNode]

/-- A branch around a block that never ends. -/
def spinning : Nodes (Fin 5) where
  all := [0, 1, 2, 3, 4]
  node := spinningNode
  index a := a.val
  entry := 0
  terminal := 4
  complete := by decide
  nodup := by decide
  first := rfl
  last := rfl
  ends := rfl
  fake a successor f h := absurd h (spinningNode_real a successor f)

/-- Where the only edge leads back, nothing else is reached. -/
theorem spinning_stuck {g : Nodes (Fin 5)} (h : g.node 1 = .basicNode 1 none) {a : Fin 5}
    (hway : Relation.ReflTransGen g.Edge 1 a) : a = 1 := by
  induction hway with
  | refl => rfl
  | tail _ hedge ih =>
    subst ih
    simpa [Edge, children, h, Node.children] using hedge

theorem spinning_terminated :
    (terminateInfiniteLoops Popper.least spinning).node 1 = .basicNode 1 (some 4) := by
  obtain ⟨hway, hnode, -⟩ := terminateInfiniteLoops_spec Popper.least spinning 1
  rcases hnode with hsame | ⟨-, successor, hold, hnew⟩
  · have hstuck := spinning_stuck hsame (hway (by rw [hsame]; rfl))
    exact absurd hstuck (by decide)
  · obtain ⟨rfl, -⟩ := Node.basicNode.inj hold
    exact hnew

end Nodes

end MeleeHarness.M2c
