import MeleeHarness.M2c.Loops
import Mathlib.Data.Fintype.EquivFin

/-!
# Reducible flow graphs

`is_reducible` takes the nodes off in a topological order of the edges that close no loop
(Kahn's algorithm), and then looks back from the end.

* `isReducible_spec`: it raises nothing, and holds exactly if the edges that close no loop form
  no cycle, every node can be reached and every node has a way to the end.
-/

namespace MeleeHarness.M2c

open Lib

/-- A vertex is first reached from one that it does not dominate. -/
theorem exists_first {α : Type} {edge : α → α → Prop} {entry a b : α} {path : List α}
    (h : Walk edge entry path b) (ha : a ∈ path) :
    ∃ before p, Walk edge entry before p ∧ a ∉ before ∧ edge p a := by
  induction h with
  | nil => cases ha
  | @cons path p c hwalk hedge ih =>
    by_cases hmem : a ∈ path
    · exact ih hmem
    · obtain rfl := (List.mem_cons.mp ha).resolve_right hmem
      exact ⟨path, p, hwalk, hmem, hedge⟩

/-- The edges that come in and are left, and the nodes that have none left. -/
structure Kahn (α : Type) where
  incomingEdges : NodeSets α
  queue : Finset α

namespace Kahn
variable {α : Type} [DecidableEq α]

/-- `incoming_edges[s].remove(n)`, and what follows from it. -/
def remove (k : Kahn α) (n s : α) : Kahn α where
  incomingEdges := Function.update k.incomingEdges s ((k.incomingEdges s).erase n)
  queue := if (k.incomingEdges s).erase n = ∅ then insert s k.queue else k.queue

def load [Fintype α] (k : Kahn α) : Nat := weight k.incomingEdges + k.queue.card

theorem remove_load [Fintype α] {k : Kahn α} {n s : α} (h : n ∈ k.incomingEdges s) :
    (k.remove n s).load ≤ k.load := by
  have hlt := weight_update_lt (Finset.card_erase_lt_of_mem h)
  have hqueue : (k.remove n s).queue.card ≤ k.queue.card + 1 := by
    unfold remove
    dsimp only
    split_ifs
    · exact Finset.card_insert_le _ _
    · exact Nat.le_succ _
  unfold load
  change weight (Function.update _ _ _) + _ ≤ _
  omega

theorem mem_remove_incomingEdges {k : Kahn α} {n s p a : α} :
    p ∈ (k.remove n s).incomingEdges a ↔ p ∈ k.incomingEdges a ∧ ¬(p = n ∧ a = s) := by
  by_cases ha : a = s
  · subst ha
    simp [remove, and_comm]
  · simp [remove, ha]

theorem mem_remove_queue {k : Kahn α} {n s a : α} : a ∈ (k.remove n s).queue ↔
    a ∈ k.queue ∨ a = s ∧ (k.incomingEdges s).erase n = ∅ := by
  unfold remove
  dsimp only
  split_ifs with h
  · simp [h, or_comm]
  · simp [h]

end Kahn

namespace Nodes
variable {α : Type} [DecidableEq α] (g : Nodes α)

/-- An edge that closes no loop. -/
def Forward (a b : α) : Prop := g.Edge a b ∧ ¬Dominates g.Edge g.entry b a

variable {g}

theorem not_forward_entry {p : α} : ¬g.Forward p g.entry := fun h => h.2 fun _ _ => .inl rfl

theorem not_forward_self {p : α} : ¬g.Forward p p := fun h => h.2 .refl

/-- What can be reached is reached first from what it does not dominate. -/
theorem exists_forward {s : α} (hs : Relation.ReflTransGen g.Edge g.entry s) (hne : s ≠ g.entry) :
    ∃ p, g.Forward p s := by
  obtain ⟨path, hwalk⟩ := exists_walk hs
  have hmem : s ∈ path := by
    rcases hwalk.last with ⟨-, rfl⟩ | ⟨rest, rfl⟩
    · exact absurd rfl hne
    · exact List.mem_cons_self
  obtain ⟨before, p, hbefore, hnot, hedge⟩ := exists_first hwalk hmem
  refine ⟨p, hedge, fun hdom => ?_⟩
  exact (hdom before hbefore).elim hne hnot

variable [Fintype α] (g)

def isBackedge (n s : α) : Bool := n ∈ (loopAt g.naturalLoops s).backedges

theorem isBackedge_iff {n s : α} : g.isBackedge n s = true ↔
    g.Edge n s ∧ Dominates g.Edge g.entry s n := by
  rw [isBackedge, decide_eq_true_eq, g.naturalLoops_loopsOf.backedges, mem_edges, mem_dominators.1]

/-- The loop over the children of `n`; an edge that is not there raises. -/
def relax (n : α) : List α → Kahn α → Option (Kahn α)
  | [], k => some k
  | s :: rest, k =>
    if g.isBackedge n s then relax n rest k
    else if n ∈ k.incomingEdges s then relax n rest (k.remove n s)
    else none

theorem relax_load {n : α} {children : List α} {k k' : Kahn α} (h : g.relax n children k = some k') :
    k'.load ≤ k.load := by
  induction children generalizing k with
  | nil => exact (Option.some.inj h) ▸ le_rfl
  | cons s rest ih =>
    rw [relax] at h
    split_ifs at h with hback hmem
    · exact ih h
    · exact (ih h).trans (Kahn.remove_load hmem)

variable (popper : Popper α)

def kahn (k : Kahn α) (seen : Finset α) : Option (NodeSets α × Finset α) :=
  if _hqueue : k.queue.Nonempty then
    match _h : g.relax (popper.pop k.queue) (g.children (popper.pop k.queue))
      ⟨k.incomingEdges, k.queue.erase (popper.pop k.queue)⟩ with
    | none => none
    | some k' => kahn k' (insert (popper.pop k.queue) seen)
  else some (k.incomingEdges, seen)
termination_by k.load
decreasing_by
  have hle := g.relax_load _h
  have hlt := Finset.card_erase_lt_of_mem (popper.pop_mem _ _hqueue)
  unfold Kahn.load at hle ⊢
  dsimp only at hle
  omega

def incomingEdges : NodeSets α := fun n => (g.parents n).toFinset \ (loopAt g.naturalLoops n).backedges

def isReducible : Option Bool :=
  (g.kahn popper ⟨g.incomingEdges, {g.entry}⟩ ∅).map fun (incoming, seen) =>
    if g.all.any fun n => (incoming n).Nonempty then false
    else if seen.card ≠ g.all.length then false
    else (g.leading popper).card = g.all.length

variable {g popper} {k : Kahn α} {seen : Finset α} {n s : α}

/-- A node takes its edges away from all its children. -/
theorem relax_spec {children : List α} (hnodup : children.Nodup)
    (hin : ∀ s ∈ children, g.isBackedge n s = false → n ∈ k.incomingEdges s) :
    ∃ k', g.relax n children k = some k' ∧
      (∀ p s, p ∈ k'.incomingEdges s ↔ p ∈ k.incomingEdges s ∧
        ¬(p = n ∧ s ∈ children ∧ g.isBackedge n s = false)) ∧
      ∀ s, s ∈ k'.queue ↔ s ∈ k.queue ∨
        (s ∈ children ∧ g.isBackedge n s = false) ∧ (k.incomingEdges s).erase n = ∅ := by
  induction children generalizing k with
  | nil => exact ⟨k, rfl, by simp, by simp⟩
  | cons c rest ih =>
    obtain ⟨hc, hnodup⟩ := List.nodup_cons.mp hnodup
    rw [relax]
    by_cases hback : g.isBackedge n c = true
    · rw [if_pos hback]
      obtain ⟨k', hk, hincoming, hqueue⟩ := ih hnodup fun s hs => hin s (List.mem_cons_of_mem _ hs)
      have hskip (s : α) : s ∈ c :: rest ∧ g.isBackedge n s = false ↔
          s ∈ rest ∧ g.isBackedge n s = false := by
        by_cases hs : s = c
        · subst hs
          simp [hback]
        · simp [hs]
      refine ⟨k', hk, ?_, ?_⟩
      · intro p s
        rw [hincoming, hskip]
      · intro s
        rw [hqueue, hskip]
    · rw [if_neg hback, if_pos (hin c List.mem_cons_self (Bool.eq_false_of_not_eq_true hback))]
      have hother (s : α) (hs : s ∈ rest) :
          (k.remove n c).incomingEdges s = k.incomingEdges s := by
        ext p
        rw [Kahn.mem_remove_incomingEdges]
        have : s ≠ c := by
          rintro rfl
          exact hc hs
        simp [this]
      obtain ⟨k', hk, hincoming, hqueue⟩ := @ih (k.remove n c) hnodup (by
        intro s hs hforward
        rw [hother s hs]
        exact hin s (List.mem_cons_of_mem _ hs) hforward)
      rw [Bool.not_eq_true] at hback
      refine ⟨k', hk, ?_, ?_⟩
      · intro p s
        rw [hincoming, Kahn.mem_remove_incomingEdges, List.mem_cons]
        by_cases hs : s = c
        · subst hs
          simp [hback, hc]
        · simp [hs]
      · intro s
        rw [hqueue, Kahn.mem_remove_queue, List.mem_cons]
        by_cases hs : s = c
        · subst hs
          simp [hback, hc]
        · by_cases hmem : s ∈ rest
          · rw [hother s hmem]
            simp [hs]
          · simp [hs, hmem]

/-- The nodes that were taken off are those whose edges have all come in. -/
structure TakenOff (g : Nodes α) (k : Kahn α) (seen : Finset α) : Prop where
  incoming : ∀ p s, p ∈ k.incomingEdges s ↔ g.Forward p s ∧ p ∉ seen
  apart : ∀ s ∈ k.queue, s ∉ seen
  ready : ∀ s, s ∈ seen ∨ s ∈ k.queue ↔
    s = g.entry ∨ (∃ p ∈ seen, g.Forward p s) ∧ ∀ p, g.Forward p s → p ∈ seen
  acc : ∀ s, s ∈ seen ∨ s ∈ k.queue → Acc g.Forward s
  reached : ∀ s, s ∈ seen ∨ s ∈ k.queue → Relation.ReflTransGen g.Edge g.entry s

theorem forward_iff {n s : α} : g.Forward n s ↔ s ∈ g.children n ∧ g.isBackedge n s = false := by
  rw [Forward, ← Bool.not_eq_true, isBackedge_iff]
  tauto

theorem TakenOff.begin : g.TakenOff ⟨g.incomingEdges, {g.entry}⟩ ∅ where
  incoming := by
    intro p s
    have hback := g.isBackedge_iff (n := p) (s := s)
    rw [isBackedge, decide_eq_true_eq] at hback
    change p ∈ g.incomingEdges s ↔ _
    rw [incomingEdges, Finset.mem_sdiff, List.mem_toFinset, mem_parents, hback, Forward]
    simp only [Finset.notMem_empty, not_false_eq_true, and_true]
    tauto
  apart := by simp
  ready := by
    intro s
    simp
  acc := by
    intro s hs
    obtain rfl : s = g.entry := by simpa using hs
    exact ⟨_, fun p hp => absurd hp not_forward_entry⟩
  reached := by
    intro s hs
    obtain rfl : s = g.entry := by simpa using hs
    exact .refl

theorem TakenOff.step (h : g.TakenOff k seen) (hn : n ∈ k.queue) :
    ∃ k', g.relax n (g.children n) ⟨k.incomingEdges, k.queue.erase n⟩ = some k' ∧
      g.TakenOff k' (insert n seen) := by
  have hnew := h.apart n hn
  have hin : ∀ s ∈ g.children n, g.isBackedge n s = false →
      n ∈ (⟨k.incomingEdges, k.queue.erase n⟩ : Kahn α).incomingEdges s := fun s hs hback =>
    (h.incoming n s).mpr ⟨forward_iff.mpr ⟨hs, hback⟩, hnew⟩
  obtain ⟨k', hk, hincoming, hqueue⟩ := relax_spec (g.children_nodup n) hin
  refine ⟨k', hk, ?_⟩
  have hq (s : α) : s ∈ k'.queue ↔ (s ≠ n ∧ s ∈ k.queue) ∨
      g.Forward n s ∧ ∀ p, g.Forward p s → p ∈ insert n seen := by
    have hempty : (k.incomingEdges s).erase n = ∅ ↔ ∀ p, g.Forward p s → p ∈ insert n seen := by
      rw [Finset.eq_empty_iff_forall_notMem]
      apply forall_congr'
      intro p
      rw [Finset.mem_erase, h.incoming, Finset.mem_insert]
      tauto
    rw [hqueue, Finset.mem_erase, ← forward_iff, hempty]
  have hready (s : α) : s ∈ insert n seen ∨ s ∈ k'.queue ↔ (s ∈ seen ∨ s ∈ k.queue) ∨
      g.Forward n s ∧ ∀ p, g.Forward p s → p ∈ insert n seen := by
    rw [hq, Finset.mem_insert]
    by_cases hs : s = n
    · subst hs
      simp [hn]
    · simp [hs, or_assoc]
  constructor
  · intro p s
    rw [hincoming, h.incoming, ← forward_iff, Finset.mem_insert]
    by_cases hp : p = n
    · subst hp
      tauto
    · simp [hp]
  · intro s hs hmem
    rcases (hq s).mp hs with ⟨hne, hs⟩ | ⟨hforward, hall⟩
    · exact h.apart s hs ((Finset.mem_insert.mp hmem).resolve_left hne)
    · rcases Finset.mem_insert.mp hmem with rfl | hmem
      · exact not_forward_self hforward
      · rcases (h.ready s).mp (.inl hmem) with rfl | ⟨-, hseen⟩
        · exact not_forward_entry hforward
        · exact hnew (hseen n hforward)
  · intro s
    rw [hready, h.ready]
    constructor
    · rintro ((rfl | ⟨⟨p, hp, hps⟩, hall⟩) | ⟨hforward, hall⟩)
      · exact .inl rfl
      · exact .inr ⟨⟨p, Finset.mem_insert_of_mem hp, hps⟩,
          fun p hp => Finset.mem_insert_of_mem (hall p hp)⟩
      · exact .inr ⟨⟨n, Finset.mem_insert_self _ _, hforward⟩, hall⟩
    · rintro (rfl | ⟨⟨p, hp, hps⟩, hall⟩)
      · exact .inl (.inl rfl)
      · by_cases hforward : g.Forward n s
        · exact .inr ⟨hforward, hall⟩
        · have hne (p : α) (hps : g.Forward p s) : p ≠ n := by
            rintro rfl
            exact hforward hps
          have hold (p : α) (hps : g.Forward p s) : p ∈ seen :=
            (Finset.mem_insert.mp (hall p hps)).resolve_left (hne p hps)
          exact .inl (.inr ⟨⟨p, hold p hps, hps⟩, hold⟩)
  · intro s hs
    rcases (hready s).mp hs with hs | ⟨-, hall⟩
    · exact h.acc s hs
    · refine ⟨_, fun p hp => ?_⟩
      rcases Finset.mem_insert.mp (hall p hp) with rfl | hmem
      · exact h.acc _ (.inr hn)
      · exact h.acc p (.inl hmem)
  · intro s hs
    rcases (hready s).mp hs with hs | ⟨hforward, -⟩
    · exact h.reached s hs
    · exact (h.reached n (.inr hn)).tail hforward.1

theorem kahn_spec (popper : Popper α) (h : g.TakenOff k seen) : ∃ incoming seen', g.kahn popper k seen = some (incoming, seen') ∧
    g.TakenOff ⟨incoming, ∅⟩ seen' := by
  induction hload : k.load using Nat.strong_induction_on generalizing k seen with
  | _ load ih =>
    rw [kahn]
    by_cases hqueue : k.queue.Nonempty
    · rw [dif_pos hqueue]
      obtain ⟨k', hk, hstep⟩ := h.step (popper.pop_mem _ hqueue)
      have hlt : k'.load < load := by
        have hle := g.relax_load hk
        have hpop := Finset.card_erase_lt_of_mem (popper.pop_mem _ hqueue)
        rw [← hload]
        unfold Kahn.load at hle ⊢
        dsimp only at hle
        omega
      split
      · rename_i heq
        rw [hk] at heq
        cases heq
      · rename_i heq
        obtain rfl := Option.some.inj (hk.symm.trans heq)
        exact ih _ hlt hstep rfl
    · rw [dif_neg hqueue]
      rw [Finset.not_nonempty_iff_eq_empty] at hqueue
      refine ⟨_, _, rfl, ?_⟩
      rwa [← hqueue]

theorem TakenOff.all_iff {incoming : NodeSets α} (h : g.TakenOff ⟨incoming, ∅⟩ seen) :
    (∀ s, s ∈ seen) ↔ (∀ s, ¬Relation.TransGen g.Forward s s) ∧
      ∀ s, Relation.ReflTransGen g.Edge g.entry s := by
  constructor
  · intro hall
    have hwf : WellFounded (Relation.TransGen g.Forward) :=
      WellFounded.transGen ⟨fun s => h.acc s (.inl (hall s))⟩
    exact ⟨fun s hs => hwf.irrefl.irrefl s hs, fun s => h.reached s (.inl (hall s))⟩
  · rintro ⟨hacyclic, hreached⟩
    have : Std.Irrefl (Relation.TransGen g.Forward) := ⟨hacyclic⟩
    have hwf := Finite.wellFounded_of_trans_of_irrefl (Relation.TransGen g.Forward)
    intro s
    induction s using hwf.induction with
    | _ s ih =>
      have hready := (h.ready s).mpr (by
        by_cases hs : s = g.entry
        · exact .inl hs
        · obtain ⟨p, hp⟩ := exists_forward (hreached s) hs
          exact .inr ⟨⟨p, ih p (.single hp), hp⟩, fun p hp => ih p (.single hp)⟩)
      simpa using hready

theorem card_eq_all_iff (set : Finset α) : set.card = g.all.length ↔ ∀ a, a ∈ set := by
  have hall : g.all.toFinset = Finset.univ := by
    ext a
    simp [g.complete]
  rw [← List.toFinset_card_of_nodup g.nodup, hall, Finset.card_univ, Finset.card_eq_iff_eq_univ, Finset.eq_univ_iff_forall]

/-- No edge is taken away twice, whatever is popped next. -/
theorem isReducible_spec (g : Nodes α) (popper : Popper α) : ∃ b, g.isReducible popper = some b ∧
    (b = true ↔ (∀ s, ¬Relation.TransGen g.Forward s s) ∧
      (∀ s, Relation.ReflTransGen g.Edge g.entry s) ∧
      ∀ s, Relation.ReflTransGen g.Edge s g.terminal) := by
  obtain ⟨incoming, seen, hkahn, h⟩ := kahn_spec popper (TakenOff.begin (g := g))
  rw [isReducible, hkahn, Option.map_some]
  refine ⟨_, rfl, ?_⟩
  dsimp only
  rw [← and_assoc, ← h.all_iff]
  have hleading : (g.leading popper).card = g.all.length ↔
      ∀ s, Relation.ReflTransGen g.Edge s g.terminal := by
    rw [card_eq_all_iff]
    simp only [mem_leading]
  have hseen := g.card_eq_all_iff seen
  by_cases hall : ∀ s, s ∈ seen
  · have hnone : (g.all.any fun n => (incoming n).Nonempty) = false := by
      rw [List.any_eq_false]
      intro s _ hs
      obtain ⟨p, hp⟩ := of_decide_eq_true hs
      exact ((h.incoming p s).mp hp).2 (hall p)
    rw [hnone, if_neg Bool.false_ne_true, if_neg (by simpa using hseen.mpr hall), decide_eq_true_eq,
      hleading]
    simp [hall]
  · have hcard : seen.card ≠ g.all.length := fun hcard => hall (hseen.mp hcard)
    rw [if_pos hcard]
    simp [hall]

theorem spinning_isReducible : spinning.isReducible Popper.least = some false := by
  obtain ⟨b, hb, hiff⟩ := isReducible_spec spinning Popper.least
  cases b with
  | false => exact hb
  | true =>
    obtain ⟨-, -, hway⟩ := hiff.mp rfl
    exact absurd (spinning_stuck rfl (hway 1)) (by decide)

end Nodes

end MeleeHarness.M2c
