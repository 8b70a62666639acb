import Mathlib.Algebra.BigOperators.Group.Finset.Basic
import Mathlib.Data.Finset.Max
import Mathlib.Data.Fintype.Basic
import Mathlib.Logic.Relation

/-!
# Searches with a worklist

What a search has seen once nothing is left to look at, in whatever order things are taken
from its worklist.

* `mem_explore`: a search with a stack sees exactly what it can come to;
* `mem_sweep`: so does a search with a set, from which any element may be taken next.
-/

namespace MeleeHarness.Lib

/-- A way along `next` that passes nothing that is left out. -/
abbrev LeadsTo {α : Type} (next : α → List α) (skip : α → Prop) : α → α → Prop :=
  Relation.ReflTransGen fun a b => b ∈ next a ∧ ¬skip b

section
variable {α : Type} {next : α → List α} {skip : α → Prop} {start todo seen : Set α}

/-- A search on its way: what it has seen, and what it has still to look at. -/
structure Searching (next : α → List α) (skip : α → Prop) (start todo seen : Set α) : Prop where
  started : ∀ a ∈ start, ¬skip a → a ∈ seen ∨ a ∈ todo
  sound : ∀ a, a ∈ seen ∨ a ∈ todo ∧ ¬skip a → ∃ s ∈ start, ¬skip s ∧ LeadsTo next skip s a
  closed : ∀ a ∈ seen, ∀ b ∈ next a, ¬skip b → b ∈ seen ∨ b ∈ todo

theorem Searching.begin : Searching next skip start start ∅ where
  started := fun _ ha _ => .inr ha
  sound := by
    rintro a (ha | ⟨ha, hskip⟩)
    · exact ha.elim
    · exact ⟨a, ha, hskip, .refl⟩
  closed := fun _ ha => ha.elim

/-- A thing that is left out or was seen before is dropped. -/
theorem Searching.drop {a : α} {todo' : Set α} (h : Searching next skip start todo seen)
    (ha : skip a ∨ a ∈ seen) (htodo : ∀ b, b ∈ todo → b = a ∨ b ∈ todo') (hsub : todo' ⊆ todo) :
    Searching next skip start todo' seen where
  started := by
    intro b hb hskip
    rcases h.started b hb hskip with hseen | hmem
    · exact .inl hseen
    · rcases htodo b hmem with rfl | hmem
      · exact .inl (ha.resolve_left hskip)
      · exact .inr hmem
  sound := fun b hb => h.sound b (hb.imp_right fun hb => ⟨hsub hb.1, hb.2⟩)
  closed := by
    intro b hb c hc hskip
    rcases h.closed b hb c hc hskip with hseen | hmem
    · exact .inl hseen
    · rcases htodo c hmem with rfl | hmem
      · exact .inl (ha.resolve_left hskip)
      · exact .inr hmem

/-- Looking at a thing puts what comes next on the worklist. -/
theorem Searching.visit {a : α} {todo' : Set α} (h : Searching next skip start todo seen)
    (ha : a ∈ todo) (hskip : ¬skip a) (htodo : ∀ b, b ∈ todo → b = a ∨ b ∈ todo')
    (hnext : ∀ b ∈ next a, ¬skip b → b = a ∨ b ∈ seen ∨ b ∈ todo')
    (hsub : ∀ b ∈ todo', b ∈ todo ∨ b ∈ next a) :
    Searching next skip start todo' (insert a seen) where
  started := by
    intro b hb hb'
    rcases h.started b hb hb' with hseen | hmem
    · exact .inl (.inr hseen)
    · exact (htodo b hmem).imp .inl id
  sound := by
    obtain ⟨s, hs, hss, hsa⟩ := h.sound a (.inr ⟨ha, hskip⟩)
    rintro b ((rfl | hseen) | ⟨hb, hb'⟩)
    · exact ⟨s, hs, hss, hsa⟩
    · exact h.sound b (.inl hseen)
    · rcases hsub b hb with hmem | hmem
      · exact h.sound b (.inr ⟨hmem, hb'⟩)
      · exact ⟨s, hs, hss, hsa.tail ⟨hmem, hb'⟩⟩
  closed := by
    rintro b (rfl | hb) c hc hc'
    · rcases hnext c hc hc' with rfl | hseen | hmem
      · exact .inl (.inl rfl)
      · exact .inl (.inr hseen)
      · exact .inr hmem
    · rcases h.closed b hb c hc hc' with hseen | hmem
      · exact .inl (.inr hseen)
      · exact (htodo c hmem).imp .inl id

theorem Searching.done (h : Searching next skip start ∅ seen) {a : α} :
    a ∈ seen ↔ ∃ s ∈ start, ¬skip s ∧ LeadsTo next skip s a := by
  constructor
  · intro ha
    exact h.sound a (.inl ha)
  · rintro ⟨s, hs, hss, hsa⟩
    induction hsa with
    | refl => exact (h.started s hs hss).resolve_right id
    | tail _ hstep ih => exact (h.closed _ ih _ hstep.1 hstep.2).resolve_right id

end

section
variable {α : Type} [DecidableEq α] (next : α → List α) (skip : α → Prop) [DecidablePred skip]

/-- What lies behind the things that were not seen. -/
def room [Fintype α] (seen : Finset α) : Nat := ∑ a ∈ Finset.univ \ seen, (next a).length

theorem room_insert [Fintype α] {a : α} {seen : Finset α} (h : a ∉ seen) :
    room next seen = (next a).length + room next (insert a seen) := by
  have hsdiff : Finset.univ \ seen = insert a (Finset.univ \ insert a seen) := by
    ext b
    by_cases hb : b = a <;> simp [hb, h]
  rw [room, hsdiff, Finset.sum_insert (by simp)]
  rfl

/-- A search with a stack, the last of the next things on top. -/
def explore [Fintype α] (stack : List α) (seen : Finset α) : Finset α :=
  match stack with
  | [] => seen
  | a :: stack =>
    if skip a ∨ a ∈ seen then explore stack seen
    else explore ((next a).reverse ++ stack) (insert a seen)
termination_by stack.length + room next seen
decreasing_by
  · simp
  · rename_i h
    rw [room_insert next (not_or.mp h).2]
    simp
    omega

theorem explore_searching [Fintype α] (start : Set α) (stack : List α) (seen : Finset α)
    (h : Searching next skip start {a | a ∈ stack} seen) :
    Searching next skip start ∅ (explore next skip stack seen) := by
  induction stack, seen using explore.induct next skip with
  | case1 seen =>
    rw [explore]
    simpa using h
  | case2 seen a stack hdrop ih =>
    rw [explore, if_pos hdrop]
    apply ih
    exact h.drop (by simpa using hdrop) (fun b hb => List.mem_cons.mp hb)
      fun b hb => List.mem_cons_of_mem _ hb
  | case3 seen a stack hnew ih =>
    rw [explore, if_neg hnew]
    apply ih
    rw [Finset.coe_insert]
    refine h.visit List.mem_cons_self (not_or.mp hnew).1 ?_ ?_ ?_
    · intro b hb
      exact (List.mem_cons.mp hb).imp id fun hb => List.mem_append_right _ hb
    · intro b hb _
      exact .inr (.inr (List.mem_append_left _ (List.mem_reverse.mpr hb)))
    · intro b hb
      rcases List.mem_append.mp hb with hb | hb
      · exact .inr (List.mem_reverse.mp hb)
      · exact .inl (List.mem_cons_of_mem _ hb)

theorem mem_explore [Fintype α] {stack : List α} {a : α} : a ∈ explore next skip stack ∅ ↔
    ∃ s ∈ stack, ¬skip s ∧ LeadsTo next skip s a := by
  have h := explore_searching next skip {a | a ∈ stack} stack ∅ (by
    rw [Finset.coe_empty]
    exact Searching.begin)
  exact h.done

end

/-! ## Any element next -/

/-- What is taken from a set that is not empty. -/
structure Popper (α : Type) where
  pop : Finset α → α
  pop_mem : ∀ queue : Finset α, queue.Nonempty → pop queue ∈ queue

/-- The least one is taken. -/
def Popper.least {α : Type} [LinearOrder α] [Inhabited α] : Popper α where
  pop queue := if h : queue.Nonempty then queue.min' h else default
  pop_mem queue h := by
    rw [dif_pos h]
    exact queue.min'_mem h

/-- Nothing that was seen is looked at again. -/
structure Sweep (α : Type) [DecidableEq α] where
  queue : Finset α
  seen : Finset α
  apart : Disjoint queue seen

section
variable {α : Type} [DecidableEq α] (next : α → Finset α) (popper : Popper α)

def Sweep.step (s : Sweep α) : Sweep α where
  queue := s.queue.erase (popper.pop s.queue) ∪
    (next (popper.pop s.queue) \ insert (popper.pop s.queue) s.seen)
  seen := insert (popper.pop s.queue) s.seen
  apart := by
    rw [Finset.disjoint_left]
    intro b hb hseen
    rcases Finset.mem_union.mp hb with hb | hb
    · rcases Finset.mem_insert.mp hseen with rfl | hseen
      · exact (Finset.mem_erase.mp hb).1 rfl
      · exact Finset.disjoint_left.mp s.apart (Finset.mem_erase.mp hb).2 hseen
    · exact (Finset.mem_sdiff.mp hb).2 hseen

def sweep [Fintype α] (s : Sweep α) : Finset α :=
  if s.queue.Nonempty then sweep (s.step next popper) else s.seen
termination_by (Finset.univ \ s.seen).card
decreasing_by
  rename_i h
  have hnew : popper.pop s.queue ∉ s.seen :=
    Finset.disjoint_left.mp s.apart (popper.pop_mem _ h)
  apply Finset.card_lt_card
  refine Finset.ssubset_iff_of_subset ?_ |>.mpr ⟨popper.pop s.queue, ?_, ?_⟩
  · exact Finset.sdiff_subset_sdiff (Finset.Subset.refl _) (Finset.subset_insert _ _)
  · simpa using hnew
  · simp [Sweep.step]

theorem sweep_searching [Fintype α] (start : Set α) (s : Sweep α)
    (h : Searching (fun a => (next a).toList) (fun _ => False) start s.queue s.seen) :
    Searching (fun a => (next a).toList) (fun _ => False) start ∅ (sweep next popper s) := by
  induction s using sweep.induct next popper with
  | case1 s hqueue ih =>
    rw [sweep, if_pos hqueue]
    apply ih
    have hpop := popper.pop_mem _ hqueue
    simp only [Sweep.step, Finset.coe_insert]
    refine h.visit hpop id ?_ ?_ ?_
    · intro b hb
      by_cases hba : b = popper.pop s.queue
      · exact .inl hba
      · exact .inr (Finset.mem_union_left _ (Finset.mem_erase.mpr ⟨hba, hb⟩))
    · intro b hb _
      by_cases hseen : b ∈ insert (popper.pop s.queue) s.seen
      · rcases Finset.mem_insert.mp hseen with rfl | hseen
        · exact .inl rfl
        · exact .inr (.inl hseen)
      · refine .inr (.inr (Finset.mem_union_right _ ?_))
        exact Finset.mem_sdiff.mpr ⟨Finset.mem_toList.mp hb, hseen⟩
    · intro b hb
      rcases Finset.mem_union.mp hb with hb | hb
      · exact .inl (Finset.mem_erase.mp hb).2
      · exact .inr (Finset.mem_toList.mpr (Finset.mem_sdiff.mp hb).1)
  | case2 s hqueue =>
    rw [sweep, if_neg hqueue]
    rw [Finset.not_nonempty_iff_eq_empty] at hqueue
    rw [hqueue, Finset.coe_empty] at h
    exact h

/-- From one thing a sweep comes to all that it leads to. -/
theorem mem_sweep [Fintype α] {s a : α} : a ∈ sweep next popper ⟨{s}, ∅, Finset.disjoint_empty_right _⟩ ↔
    Relation.ReflTransGen (fun a b => b ∈ next a) s a := by
  have h := sweep_searching next popper {s} ⟨{s}, ∅, Finset.disjoint_empty_right _⟩ (by
    rw [Finset.coe_singleton, Finset.coe_empty]
    exact Searching.begin)
  rw [← Finset.mem_coe, h.done]
  simp only [Set.mem_singleton_iff, exists_eq_left, not_false_eq_true, true_and, and_true, LeadsTo,
    Finset.mem_toList]

end

end MeleeHarness.Lib
