import MeleeHarness.Lib.Dominators
import Mathlib.Algebra.BigOperators.Group.Finset.Basic
import Mathlib.Algebra.Order.BigOperators.Group.Finset
import Mathlib.Data.Finset.Max
import Mathlib.Data.List.MinMax
import Mathlib.Data.Prod.Lex
import Mathlib.Tactic.FinCases

/-!
# The relations of a flow graph

`compute_relations` narrows the sets of dominators, one node after another and in place, until
a whole pass changes nothing. The same loop over the reversed edges gives the postdominators.

* `mem_dominators`: what is left in a set are the dominators, of a node that cannot be reached
  all nodes;
* `immediateDominator_iff`: of a node that can be reached, the immediate dominator is the one
  that all others dominate.
-/

namespace MeleeHarness.M2c

open Lib

inductive Node (α : Type) where
  | basicNode (successor : α) (fakeSuccessor : Option α)
  | conditionalNode (conditionalEdge fallthroughEdge : α)
  | returnNode (terminal : α)
  | switchNode (cases : List α)
  | terminalNode

/-- The nodes in the order of their blocks. A fake edge leads to the end, and only from where
there is no other edge to it. -/
structure Nodes (α : Type) where
  all : List α
  node : α → Node α
  index : α → Nat
  entry : α
  terminal : α
  complete : ∀ a, a ∈ all
  nodup : all.Nodup
  first : all.head? = some entry
  last : all.getLast? = some terminal
  ends : node terminal = .terminalNode
  fake : ∀ a successor f, node a = .basicNode successor (some f) → f = terminal ∧ successor ≠ terminal

section
variable {α : Type} [DecidableEq α]

theorem nodup_eraseDups (k : Nat) : ∀ l : List α, l.length ≤ k → l.eraseDups.Nodup := by
  induction k with
  | zero =>
    intro l hl
    rw [List.length_eq_zero_iff.mp (Nat.le_zero.mp hl)]
    exact List.nodup_nil
  | succ k ih =>
    intro l hl
    cases l with
    | nil => exact List.nodup_nil
    | cons a l =>
      rw [List.eraseDups_cons, List.nodup_cons, List.mem_eraseDups]
      refine ⟨by simp, ih _ ?_⟩
      exact (List.length_filter_le _ _).trans (Nat.le_of_succ_le_succ hl)

def Node.isTerminal : Node α → Bool
  | .terminalNode => true
  | _ => false

def Node.children : Node α → List α
  | .basicNode successor none => [successor]
  | .basicNode successor (some fakeSuccessor) => [successor, fakeSuccessor]
  | .conditionalNode conditionalEdge fallthroughEdge =>
    if conditionalEdge = fallthroughEdge then [conditionalEdge]
    else [conditionalEdge, fallthroughEdge]
  | .returnNode terminal => [terminal]
  | .switchNode cases => cases.eraseDups
  | .terminalNode => []

namespace Nodes
variable (g : Nodes α)

def children (a : α) : List α := (g.node a).children

/-- A node once for each time it names the other as a child. -/
def parents (a : α) : List α :=
  g.all.flatMap fun parent => (g.children parent).filterMap fun child =>
    if child = a then some parent else none

abbrev Edge (a b : α) : Prop := b ∈ g.children a

theorem mem_parents {a b : α} : a ∈ g.parents b ↔ g.Edge a b := by
  simp only [parents, List.mem_flatMap, List.mem_filterMap]
  constructor
  · rintro ⟨parent, -, child, hchild, h⟩
    split_ifs at h with heq
    subst heq
    obtain rfl := Option.some.inj h
    exact hchild
  · intro h
    exact ⟨a, g.complete a, b, h, if_pos rfl⟩

theorem children_nodup (a : α) : (g.children a).Nodup := by
  unfold children
  cases h : g.node a with
  | basicNode successor fakeSuccessor =>
    cases fakeSuccessor with
    | none => simp [Node.children]
    | some fake =>
      have hne : successor ≠ fake := by
        obtain ⟨rfl, hne⟩ := g.fake a successor fake h
        exact hne
      simp [Node.children, hne]
  | conditionalNode conditionalEdge fallthroughEdge =>
    rw [Node.children]
    split_ifs with heq
    · simp
    · simp [heq]
  | returnNode terminal => simp [Node.children]
  | switchNode cases => exact nodup_eraseDups _ cases le_rfl
  | terminalNode => simp [Node.children]

end Nodes

/-! ## Dominators -/

abbrev NodeSets (α : Type) := α → Finset α

section
variable (entry : α) (parents : α → List α)

/-- `nset`, for a node. -/
def narrowed (doms : NodeSets α) (node : α) : Finset α :=
  insert node ((parents node).foldl (fun nset parent => nset ∩ doms parent) (doms node))

/-- One node of a pass. -/
def narrow (s : NodeSets α × Bool) (node : α) : NodeSets α × Bool :=
  if node = entry then s
  else if (narrowed parents s.1 node).card < (s.1 node).card then
    (Function.update s.1 node (s.1 node ∩ narrowed parents s.1 node), true)
  else s

def pass (nodes : List α) (doms : NodeSets α) : NodeSets α × Bool :=
  nodes.foldl (narrow entry parents) (doms, false)

variable {entry parents} {doms : NodeSets α} {s : NodeSets α × Bool} {node d : α}

theorem mem_narrowed : d ∈ narrowed parents doms node ↔
    d = node ∨ d ∈ doms node ∧ ∀ parent ∈ parents node, d ∈ doms parent := by
  rw [narrowed, Finset.mem_insert]
  apply or_congr_right
  generalize doms node = nset
  induction parents node generalizing nset with
  | nil => simp
  | cons parent rest ih => rw [List.foldl_cons, ih, Finset.mem_inter, List.forall_mem_cons, and_assoc]

/-- What a node of a pass does: nothing, or its set loses what some parent does not have. -/
theorem narrow_cases (entry : α) (parents : α → List α) (s : NodeSets α × Bool) (node : α) :
    narrow entry parents s node = s ∧
      (node = entry ∨ (s.1 node).card ≤ (narrowed parents s.1 node).card) ∨
    node ≠ entry ∧ (narrowed parents s.1 node).card < (s.1 node).card ∧
      narrow entry parents s node =
        (Function.update s.1 node (s.1 node ∩ narrowed parents s.1 node), true) := by
  unfold narrow
  by_cases hentry : node = entry
  · exact .inl ⟨if_pos hentry, .inl hentry⟩
  · rw [if_neg hentry]
    by_cases hlt : (narrowed parents s.1 node).card < (s.1 node).card
    · exact .inr ⟨hentry, hlt, if_pos hlt⟩
    · exact .inl ⟨if_neg hlt, .inr (not_lt.mp hlt)⟩

def weight [Fintype α] (doms : NodeSets α) : Nat := ∑ node, (doms node).card

theorem weight_update_lt [Fintype α] {set : Finset α} (h : set.card < (doms node).card) :
    weight (Function.update doms node set) < weight doms := by
  apply Finset.sum_lt_sum
  · intro a _
    by_cases ha : a = node
    · subst ha
      simpa using h.le
    · simp [ha]
  · exact ⟨node, Finset.mem_univ _, by simpa using h⟩

/-- A pass that changes something makes the sets smaller. -/
theorem pass_weight [Fintype α] (nodes : List α) :
    weight (nodes.foldl (narrow entry parents) s).1 ≤ weight s.1 ∧
      ((nodes.foldl (narrow entry parents) s).2 = true → s.2 = true ∨
        weight (nodes.foldl (narrow entry parents) s).1 < weight s.1) := by
  induction nodes generalizing s with
  | nil => exact ⟨le_rfl, .inl⟩
  | cons node nodes ih =>
    rw [List.foldl_cons]
    obtain ⟨hle, hflag⟩ := @ih (narrow entry parents s node)
    rcases narrow_cases entry parents s node with
      ⟨heq, -⟩ | ⟨-, hlt, heq⟩
    · rw [heq] at hle hflag ⊢
      exact ⟨hle, hflag⟩
    · have hsmaller : weight (narrow entry parents s node).1 < weight s.1 := by
        rw [heq]
        exact weight_update_lt ((Finset.card_le_card Finset.inter_subset_right).trans_lt hlt)
      exact ⟨hle.trans hsmaller.le, fun _ => .inr (hle.trans_lt hsmaller)⟩

variable (entry parents)

/-- `while changes` -/
def settle [Fintype α] (nodes : List α) (doms : NodeSets α) : NodeSets α :=
  if (pass entry parents nodes doms).2 then settle nodes (pass entry parents nodes doms).1
  else (pass entry parents nodes doms).1
termination_by weight doms
decreasing_by
  rename_i h
  exact ((pass_weight (s := (doms, false)) nodes).2 h).resolve_left Bool.false_ne_true

/-- `compute_dominators`, up to the immediate dominators. -/
def computeDominators [Fintype α] (nodes : List α) : NodeSets α :=
  settle entry parents nodes fun node => if node = entry then {entry} else Finset.univ

variable {entry parents}

/-- No dominator is lost, and the entry has only itself. -/
structure Kept (entry : α) (parents : α → List α) (doms : NodeSets α) : Prop where
  kept : ∀ node d, Dominates (fun a b => a ∈ parents b) entry d node → d ∈ doms node
  entry : doms entry = {entry}

theorem Kept.after_narrow (h : Kept entry parents s.1) : Kept entry parents (narrow entry parents s node).1 := by
  rcases narrow_cases entry parents s node with
    ⟨heq, -⟩ | ⟨hne, -, heq⟩
  · rwa [heq]
  · rw [heq]
    constructor
    · intro b d hd
      by_cases hb : b = node
      · subst hb
        change d ∈ Function.update s.1 b _ b
        rw [Function.update_self, Finset.mem_inter, mem_narrowed]
        refine ⟨h.kept b d hd, ?_⟩
        by_cases hdb : d = b
        · exact .inl hdb
        · exact .inr ⟨h.kept b d hd, fun parent hp => h.kept parent d (hd.parent hp hdb)⟩
      · exact (congrArg (d ∈ ·) (Function.update_of_ne hb _ _)).mpr (h.kept b d hd)
    · exact (Function.update_of_ne hne.symm _ _).trans h.entry

theorem Kept.after_foldl (h : Kept entry parents s.1) (nodes : List α) :
    Kept entry parents (nodes.foldl (narrow entry parents) s).1 := by
  induction nodes generalizing s with
  | nil => exact h
  | cons node nodes ih => exact ih h.after_narrow

/-- After a pass that changes nothing no set has what a parent's has not. -/
theorem pass_unchanged {nodes : List α}
    (hflag : (nodes.foldl (narrow entry parents) s).2 = false) :
    (nodes.foldl (narrow entry parents) s).1 = s.1 ∧
      ∀ node ∈ nodes, node ≠ entry → (s.1 node).card ≤ (narrowed parents s.1 node).card := by
  have hset : ∀ (nodes : List α) (s : NodeSets α × Bool), s.2 = true →
      (nodes.foldl (narrow entry parents) s).2 = true := by
    intro nodes
    induction nodes with
    | nil => exact fun _ h => h
    | cons node nodes ih =>
      intro s hs
      apply ih
      rcases narrow_cases entry parents s node with
        ⟨heq, -⟩ | ⟨-, -, heq⟩
      · rw [heq]
        exact hs
      · rw [heq]
  induction nodes generalizing s with
  | nil => exact ⟨rfl, by simp⟩
  | cons node nodes ih =>
    rw [List.foldl_cons] at hflag ⊢
    rcases narrow_cases entry parents s node with
      ⟨heq, hstable⟩ | ⟨-, -, heq⟩
    · rw [heq] at hflag ⊢
      obtain ⟨hsame, hrest⟩ := ih hflag
      refine ⟨hsame, List.forall_mem_cons.mpr ⟨fun hne => hstable.resolve_left hne, hrest⟩⟩
    · have htrue := hset nodes (narrow entry parents s node) (by rw [heq])
      rw [htrue] at hflag
      cases hflag

theorem settle_spec [Fintype α] (nodes : List α) (hall : ∀ a, a ∈ nodes) (h : Kept entry parents doms) :
    d ∈ settle entry parents nodes doms node ↔
      Dominates (fun a b => a ∈ parents b) entry d node := by
  induction doms using settle.induct entry parents nodes with
  | case1 doms hchange ih =>
    rw [settle, if_pos hchange]
    exact ih (h.after_foldl nodes)
  | case2 doms hflag =>
    rw [settle, if_neg hflag]
    rw [Bool.not_eq_true] at hflag
    obtain ⟨hsame, hstable⟩ := pass_unchanged hflag
    rw [pass, hsame]
    refine ⟨?_, h.kept node d⟩
    intro hd
    apply dominates_of_closed (D := fun a => (doms a : Set α)) ?_ ?_ hd
    · intro d hd
      simpa [h.entry] using hd
    · intro p b hp hb d hd
      have hsub : narrowed parents doms b ⊆ doms b := by
        intro x hx
        rcases mem_narrowed.mp hx with rfl | hx
        · exact h.kept x x .refl
        · exact hx.1
      have heq := Finset.eq_of_subset_of_card_le hsub (hstable b (hall b) hb)
      rw [← heq, Finset.mem_coe, mem_narrowed] at hd
      exact hd.imp_right fun hd => hd.2 p hp

theorem mem_computeDominators [Fintype α] (nodes : List α) (hall : ∀ a, a ∈ nodes) :
    d ∈ computeDominators entry parents nodes node ↔
      Dominates (fun a b => a ∈ parents b) entry d node := by
  apply settle_spec nodes hall
  constructor
  · intro node d hd
    by_cases hnode : node = entry
    · subst hnode
      simp [dominates_entry hd]
    · simp [hnode]
  · simp

end

/-! ## Immediate dominators -/

section
variable (nodes : List α) (index : α → Nat) (doms : NodeSets α)

/-- The dominator with the most dominators, apart from the node itself. -/
def immediateOf (node : α) : Option α :=
  (nodes.filter fun d => d ∈ doms node ∧ d ≠ node).argmax fun d => toLex ((doms d).card, index d)

variable {nodes index doms} {edge : α → α → Prop} {entry node d : α}

theorem immediateOf_iff (hall : ∀ a, a ∈ nodes)
    (hdoms : ∀ b d, d ∈ doms b ↔ Dominates edge entry d b)
    (hnode : Relation.ReflTransGen edge entry node) :
    immediateOf nodes index doms node = some d ↔ (d ≠ node ∧ Dominates edge entry d node) ∧
      ∀ e, e ≠ node → Dominates edge entry e node → Dominates edge entry e d := by
  have hmem : ∀ e, e ∈ nodes.filter (fun d => d ∈ doms node ∧ d ≠ node) ↔
      e ≠ node ∧ Dominates edge entry e node := by
    intro e
    simp [hall e, hdoms, and_comm]
  constructor
  · intro h
    have hd := (hmem d).mp (List.argmax_mem h)
    refine ⟨hd, ?_⟩
    intro e hne he
    rcases he.linear hnode hd.2 with hed | hde
    · exact hed
    · by_cases heq : d = e
      · exact heq ▸ .refl
      · have hlt := dominators_card_lt hdoms (he.reached hnode) hde heq
        have hle := List.le_of_mem_argmax ((hmem e).mpr ⟨hne, he⟩) h
        rw [Prod.Lex.toLex_le_toLex] at hle
        simp only at hle
        omega
  · rintro ⟨hd, hclosest⟩
    cases hmax : immediateOf nodes index doms node with
    | none =>
      have hnil := List.argmax_eq_none.mp hmax
      have := (hmem d).mpr hd
      rw [hnil] at this
      cases this
    | some e =>
      have he := (hmem e).mp (List.argmax_mem hmax)
      have hed := hclosest e he.1 he.2
      by_contra hne
      have hlt := dominators_card_lt hdoms (hd.2.reached hnode) hed (fun h => hne (h ▸ rfl))
      have hle := List.le_of_mem_argmax ((hmem d).mpr hd) hmax
      rw [Prod.Lex.toLex_le_toLex] at hle
      simp only at hle
      omega

end

namespace Nodes
variable (g : Nodes α) [Fintype α]

def dominators : NodeSets α := computeDominators g.entry g.parents g.all

def postdominators : NodeSets α := computeDominators g.terminal g.children g.all

def immediateDominator : α → Option α := immediateOf g.all g.index g.dominators

variable {g} {a d : α}

/-- The sets are those of the nodes on every way from the entry, and on every way to the end. -/
theorem mem_dominators :
    (d ∈ g.dominators a ↔ Dominates g.Edge g.entry d a) ∧
      (d ∈ g.postdominators a ↔ Dominates (fun a b => g.Edge b a) g.terminal d a) := by
  constructor
  · rw [dominators, mem_computeDominators g.all g.complete]
    simp only [mem_parents]
  · exact mem_computeDominators g.all g.complete

variable (g)

/-- The immediate dominator of a node that can be reached is its strict dominator that all the
others dominate; only the entry has none. -/
theorem immediateDominator_iff (ha : Relation.ReflTransGen g.Edge g.entry a) :
    g.immediateDominator a = some d ↔ (d ≠ a ∧ Dominates g.Edge g.entry d a) ∧
      ∀ e, e ≠ a → Dominates g.Edge g.entry e a → Dominates g.Edge g.entry e d :=
  immediateOf_iff g.complete (fun _ _ => mem_dominators.1) ha

def aroundNode : Fin 4 → Node (Fin 4)
  | 0 => .conditionalNode 2 1
  | 1 => .basicNode 2 none
  | 2 => .returnNode 3
  | 3 => .terminalNode

theorem aroundNode_real (a successor f : Fin 4) : aroundNode a ≠ .basicNode successor (some f) := by
  fin_cases a <;> simp [aroundNode]

/-- A branch around one block. -/
def around : Nodes (Fin 4) where
  all := [0, 1, 2, 3]
  node := aroundNode
  index a := a.val
  entry := 0
  terminal := 3
  complete := by decide
  nodup := by decide
  first := rfl
  last := rfl
  ends := rfl
  fake a successor f h := absurd h (aroundNode_real a successor f)

theorem around_reached (a : Fin 4) : Relation.ReflTransGen around.Edge around.entry a := by
  have hedge : ∀ a b : Fin 4, a = 0 ∧ b = 1 ∨ a = 0 ∧ b = 2 ∨ a = 2 ∧ b = 3 → around.Edge a b := by
    decide
  have hjoin : Relation.ReflTransGen around.Edge 0 2 := .single (hedge 0 2 (by decide))
  fin_cases a
  · exact .refl
  · exact .single (hedge 0 1 (by decide))
  · exact hjoin
  · exact hjoin.tail (hedge 2 3 (by decide))

theorem around_immediateDominator : Relation.ReflTransGen around.Edge around.entry 2 ∧
    (around.immediateDominator 2 = some 0 ↔
      ((0 : Fin 4) ≠ 2 ∧ Dominates around.Edge around.entry 0 2) ∧
      ∀ e, e ≠ 2 → Dominates around.Edge around.entry e 2 →
        Dominates around.Edge around.entry e 0) :=
  ⟨around_reached 2, around.immediateDominator_iff (around_reached 2)⟩

/-- What a node dominates is below it in the tree of immediate dominators. -/
theorem dominates_iff_child {b : α} (hb : Relation.ReflTransGen g.Edge g.entry b) :
    Dominates g.Edge g.entry a b ↔
      b = a ∨ ∃ c, g.immediateDominator c = some a ∧ Dominates g.Edge g.entry c b := by
  constructor
  · intro hab
    by_cases hba : b = a
    · exact .inl hba
    · refine .inr ?_
      obtain ⟨c, hc, hmin⟩ := Finset.exists_min_image
        (Finset.univ.filter fun c => c ≠ a ∧ a ∈ g.dominators c ∧ c ∈ g.dominators b)
        (fun c => (g.dominators c).card)
        ⟨b, by simp [hba, mem_dominators.1, hab, Dominates.refl]⟩
      simp only [Finset.mem_filter, Finset.mem_univ, true_and, mem_dominators.1] at hc hmin
      obtain ⟨hca, hac, hcb⟩ := hc
      refine ⟨c, (g.immediateDominator_iff (hcb.reached hb)).mpr ⟨⟨hca.symm, hac⟩, ?_⟩, hcb⟩
      intro e hec he
      by_cases hea : e = a
      · exact hea ▸ .refl
      · rcases (he.trans hcb).linear hb hab with hle | hle
        · exact hle
        · have hlt := dominators_card_lt (fun _ _ => g.mem_dominators.1) (hcb.reached hb) he hec
          have := hmin e ⟨hea, hle, he.trans hcb⟩
          omega
  · rintro (rfl | ⟨c, hc, hcb⟩)
    · exact .refl
    · exact ((g.immediateDominator_iff (hcb.reached hb)).mp hc).1.2.trans hcb

end Nodes

end

end MeleeHarness.M2c
