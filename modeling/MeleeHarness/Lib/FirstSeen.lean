import MeleeHarness.Lib.Run
import Mathlib.Data.List.Induction

/-!
# Machines that report a cause once

A machine reads items that each have causes. It reports an item if the item is
loud, or if one of its causes has not occurred before. `FirstSeen` is what a
step has to promise; from it

* `FirstSeen.flagged_iff` says which answers are reports, without the machine;
* `FirstSeen.exists_flagged_iff`: something is reported exactly if some item is
  loud or has a cause at all, so repeating a cause can never hide the first one.
-/

namespace MeleeHarness.Lib

variable {σ α β κ : Type}

/-- `step` reports loud items and fresh causes, and remembers the causes it reads. -/
structure FirstSeen (step : σ → α → β × σ) (seen : σ → κ → Prop) (flagged : β → Prop)
    (loud : α → Prop) (causes : α → κ → Prop) : Prop where
  remember : ∀ s x k, seen (step s x).2 k ↔ seen s k ∨ causes x k
  report : ∀ s x, flagged (step s x).1 ↔ loud x ∨ ∃ k, causes x k ∧ ¬seen s k

namespace FirstSeen

variable {step : σ → α → β × σ} {seen : σ → κ → Prop} {flagged : β → Prop}
  {loud : α → Prop} {causes : α → κ → Prop} {s : σ}

theorem seen_iff (h : FirstSeen step seen flagged loud causes) (fresh : ∀ k, ¬seen s k)
    (xs : List α) (k : κ) : seen (stateAfter step s xs) k ↔ ∃ x ∈ xs, causes x k := by
  refine stateAfter_invariant step (fun read t => seen t k ↔ ∃ x ∈ read, causes x k)
    ?_ ?_ xs
  · simpa using fresh k
  · intro read t x ih
    rw [h.remember, ih, exists_mem_snoc]

/-- An answer is a report exactly if its item is loud or has a cause that no
earlier item has. -/
theorem flagged_iff (h : FirstSeen step seen flagged loud causes) (fresh : ∀ k, ¬seen s k)
    {xs : List α} {i : Nat} {x : α} (hx : xs[i]? = some x) {b : β}
    (hb : (outputs step s xs)[i]? = some b) :
    flagged b ↔ loud x ∨ ∃ k, causes x k ∧ ∀ y ∈ xs.take i, ¬causes y k := by
  rw [outputs_getElem?, hx, Option.map_some, Option.some.injEq] at hb
  rw [← hb, h.report]
  simp only [h.seen_iff fresh, not_exists, not_and]

theorem exists_flagged_iff (h : FirstSeen step seen flagged loud causes)
    (fresh : ∀ k, ¬seen s k) (xs : List α) :
    (∃ b ∈ outputs step s xs, flagged b) ↔ ∃ x ∈ xs, loud x ∨ ∃ k, causes x k := by
  induction xs using List.reverseRecOn with
  | nil => simp [outputs]
  | append_singleton xs x ih =>
    have last : outputs step s (xs ++ [x]) =
        outputs step s xs ++ [(step (stateAfter step s xs) x).1] := by
      rw [outputs_append]
      rfl
    rw [last, exists_mem_snoc, exists_mem_snoc, ih, h.report]
    simp only [h.seen_iff fresh]
    constructor
    · rintro (hxs | hl | ⟨k, hk, -⟩)
      · exact .inl hxs
      · exact .inr (.inl hl)
      · exact .inr (.inr ⟨k, hk⟩)
    · rintro (hxs | hl | ⟨k, hk⟩)
      · exact .inl hxs
      · exact .inr (.inl hl)
      · by_cases hs : ∃ y ∈ xs, causes y k
        · obtain ⟨y, hy, hyk⟩ := hs
          exact .inl ⟨y, hy, .inr ⟨k, hyk⟩⟩
        · exact .inr (.inr ⟨k, hk, hs⟩)

end FirstSeen

end MeleeHarness.Lib
