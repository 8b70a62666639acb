import Mathlib.Data.Finset.Card
import Mathlib.Data.Fintype.Basic
import Mathlib.Data.Set.Basic
import Mathlib.Logic.Relation

/-!
# Dominators

A directed graph with an entry. A vertex dominates another if every walk from the entry to
the other passes it.

* `Dominates.linear`: the dominators of a vertex that can be reached are in line;
* `dominates_of_closed`, `Dominates.parent`: they are the largest sets that lose nothing
  along an edge but the vertex itself;
* `dominators_card_lt`: further down the line there are more of them.
-/

namespace MeleeHarness.Lib

variable {α : Type} {edge : α → α → Prop} {entry a b c d n p : α} {path more : List α}

/-- A walk, with the vertices after the first, the last one at the head. -/
inductive Walk (edge : α → α → Prop) (a : α) : List α → α → Prop
  | nil : Walk edge a [] a
  | cons {path : List α} {b c : α} : Walk edge a path b → edge b c → Walk edge a (c :: path) c

theorem Walk.append (h : Walk edge a path b) (h' : Walk edge b more c) :
    Walk edge a (more ++ path) c := by
  induction h' with
  | nil => exact h
  | cons _ hedge ih => exact ih.cons hedge

theorem Walk.mono {edge' : α → α → Prop} (hsub : ∀ a b, edge a b → edge' a b)
    (h : Walk edge a path b) : Walk edge' a path b := by
  induction h with
  | nil => exact .nil
  | cons _ hedge ih => exact ih.cons (hsub _ _ hedge)

theorem Walk.reflTransGen (h : Walk edge a path b) : Relation.ReflTransGen edge a b := by
  induction h with
  | nil => exact .refl
  | cons _ hedge ih => exact ih.tail hedge

theorem exists_walk (h : Relation.ReflTransGen edge a b) : ∃ path, Walk edge a path b := by
  induction h with
  | refl => exact ⟨[], .nil⟩
  | tail _ hedge ih =>
    obtain ⟨path, hwalk⟩ := ih
    exact ⟨_, hwalk.cons hedge⟩

/-- A walk from where it last passes a vertex on. -/
theorem Walk.split (h : Walk edge a path c) (hb : b ∈ path) : ∃ after before,
    path = after ++ before ∧ Walk edge a before b ∧ Walk edge b after c ∧ b ∉ after := by
  induction h with
  | nil => cases hb
  | @cons path m c hwalk hedge ih =>
    by_cases hbc : b = c
    · subst hbc
      exact ⟨[], _, rfl, hwalk.cons hedge, .nil, List.not_mem_nil⟩
    · obtain ⟨after, before, rfl, hbefore, hafter, hnot⟩ :=
        ih ((List.mem_cons.mp hb).resolve_left hbc)
      exact ⟨c :: after, before, rfl, hbefore, hafter.cons hedge, by simp [hbc, hnot]⟩

/-- The last vertex is the one at the head. -/
theorem Walk.last (h : Walk edge a path b) : path = [] ∧ b = a ∨ ∃ rest, path = b :: rest := by
  cases h with
  | nil => exact .inl ⟨rfl, rfl⟩
  | cons => exact .inr ⟨_, rfl⟩

/-- Every walk to `n` passes `d`. -/
def Dominates (edge : α → α → Prop) (entry d n : α) : Prop :=
  ∀ path, Walk edge entry path n → d = entry ∨ d ∈ path

theorem Dominates.refl : Dominates edge entry n n := by
  intro path h
  rcases h.last with ⟨-, rfl⟩ | ⟨rest, rfl⟩
  · exact .inl rfl
  · exact .inr List.mem_cons_self

theorem dominates_entry (h : Dominates edge entry d entry) : d = entry :=
  (h [] .nil).resolve_right List.not_mem_nil

theorem Dominates.trans (h : Dominates edge entry a b) (h' : Dominates edge entry b c) :
    Dominates edge entry a c := by
  intro path hwalk
  rcases h' path hwalk with rfl | hb
  · exact .inl (dominates_entry h)
  · obtain ⟨after, before, rfl, hbefore, -, -⟩ := hwalk.split hb
    exact (h before hbefore).imp_right fun ha => List.mem_append_right _ ha

/-- What dominates a vertex and is not that vertex dominates what leads to it. -/
theorem Dominates.parent (h : Dominates edge entry d n) (hedge : edge p n) (hne : d ≠ n) :
    Dominates edge entry d p := by
  intro path hwalk
  exact (h _ (hwalk.cons hedge)).imp_right fun hd => (List.mem_cons.mp hd).resolve_left hne

/-- Sets that lose nothing along an edge but the vertex itself hold dominators only. -/
theorem dominates_of_closed {D : α → Set α} (hentry : ∀ d ∈ D entry, d = entry)
    (hstep : ∀ p n, edge p n → n ≠ entry → ∀ d ∈ D n, d = n ∨ d ∈ D p) (hd : d ∈ D n) :
    Dominates edge entry d n := by
  intro path hwalk
  induction hwalk with
  | nil => exact .inl (hentry d hd)
  | @cons path p n _ hedge ih =>
    by_cases hn : n = entry
    · subst hn
      exact .inl (hentry d hd)
    · rcases hstep p n hedge hn d hd with rfl | hp
      · exact .inr List.mem_cons_self
      · exact (ih hp).imp_right fun hmem => List.mem_cons_of_mem _ hmem

/-- A walk that is past both of two dominators is past one of them last. -/
theorem Dominates.of_after (ha : Dominates edge entry a n) (h : Walk edge b more n)
    (hmore : a ∉ more) : Dominates edge entry a b := by
  intro path hwalk
  exact (ha _ (hwalk.append h)).imp_right fun hmem => (List.mem_append.mp hmem).resolve_left hmore

theorem Dominates.linear (hn : Relation.ReflTransGen edge entry n)
    (ha : Dominates edge entry a n) (hb : Dominates edge entry b n) :
    Dominates edge entry a b ∨ Dominates edge entry b a := by
  obtain ⟨path, hwalk⟩ := exists_walk hn
  rcases ha path hwalk with rfl | hamem
  · exact .inl fun _ _ => .inl rfl
  · rcases hb path hwalk with rfl | hbmem
    · exact .inr fun _ _ => .inl rfl
    · obtain ⟨after, before, rfl, -, hafter, hbafter⟩ := hwalk.split hbmem
      by_cases hmem : a ∈ after
      · obtain ⟨after', between, rfl, -, hafter', -⟩ := hafter.split hmem
        exact .inr (hb.of_after hafter' fun h => hbafter (List.mem_append_left _ h))
      · exact .inl (ha.of_after hafter hmem)

theorem Dominates.antisymm (hb : Relation.ReflTransGen edge entry b)
    (hab : Dominates edge entry a b) (hba : Dominates edge entry b a) : a = b := by
  by_contra hne
  -- A walk to one of them could be cut down to a shorter one for ever.
  have hlonger : ∀ k path, path.length ≤ k → ¬Walk edge entry path b := by
    intro k
    induction k with
    | zero =>
      intro path hlen hwalk
      obtain rfl := List.length_eq_zero_iff.mp (Nat.le_zero.mp hlen)
      cases hwalk
      exact hne (dominates_entry hab)
    | succ k ih =>
      intro path hlen hwalk
      rcases hab path hwalk with rfl | ha
      · exact hne (dominates_entry hba).symm
      · obtain ⟨after, before, rfl, hbefore, hafter, -⟩ := hwalk.split ha
        rcases hba before hbefore with rfl | hmem
        · exact hne (dominates_entry hab)
        · obtain ⟨after', before', rfl, hbefore', -, -⟩ := hbefore.split hmem
          refine ih before' ?_ hbefore'
          rcases hafter.last with ⟨-, rfl⟩ | ⟨rest, rfl⟩
          · exact absurd rfl hne
          · simp at hlen
            omega
  obtain ⟨path, hwalk⟩ := exists_walk hb
  exact hlonger _ path le_rfl hwalk

/-- What dominates a vertex that can be reached can be reached. -/
theorem Dominates.reached (h : Dominates edge entry d n) (hn : Relation.ReflTransGen edge entry n) :
    Relation.ReflTransGen edge entry d := by
  obtain ⟨path, hwalk⟩ := exists_walk hn
  rcases h path hwalk with rfl | hmem
  · exact .refl
  · obtain ⟨-, before, -, hbefore, -, -⟩ := hwalk.split hmem
    exact hbefore.reflTransGen

/-- The sets of dominators grow along the line. -/
theorem dominators_card_lt [DecidableEq α] {D : α → Finset α}
    (hD : ∀ n d, d ∈ D n ↔ Dominates edge entry d n) (hb : Relation.ReflTransGen edge entry b)
    (hab : Dominates edge entry a b) (hne : a ≠ b) : (D a).card < (D b).card := by
  apply Finset.card_lt_card
  refine (Finset.ssubset_iff_of_subset ?_).mpr ⟨b, (hD b b).mpr .refl, ?_⟩
  · intro d hd
    exact (hD b d).mpr (((hD a d).mp hd).trans hab)
  · intro hba
    exact hne (hab.antisymm hb ((hD a b).mp hba))

end MeleeHarness.Lib
