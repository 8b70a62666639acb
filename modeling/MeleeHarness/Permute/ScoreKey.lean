import Mathlib.Data.Prod.Lex
import Mathlib.Order.Basic

/-!
# Score keys

The rank the permuter gives a candidate. The counts are the unsigned numbers of
the score server's reply; `breakdown` says whether the reply had them all and
takes no part in comparisons.
-/

namespace MeleeHarness.Permute

structure ScoreKey where
  hard : Nat
  regswap : Nat
  stack : Nat
  raw : Nat
  breakdown : Bool := true
  deriving DecidableEq, Repr

namespace ScoreKey

/-- The key of a reply that has only the raw penalty. -/
def fromRaw (raw : Nat) : ScoreKey := ⟨raw, 0, 0, raw, false⟩

/-- The compared fields, in their order. -/
def fields (k : ScoreKey) : ℕ ×ₗ ℕ ×ₗ ℕ ×ₗ ℕ :=
  toLex (k.hard, toLex (k.regswap, toLex (k.stack, k.raw)))

instance : Preorder ScoreKey := Preorder.lift fields

instance : DecidableLE ScoreKey := fun a b => inferInstanceAs (Decidable (a.fields ≤ b.fields))

instance : DecidableLT ScoreKey := fun a b => inferInstanceAs (Decidable (a.fields < b.fields))

/-- `==` of two keys. -/
def same (a b : ScoreKey) : Bool := a.fields = b.fields

theorem le_iff {a b : ScoreKey} : a ≤ b ↔ a.fields ≤ b.fields := Iff.rfl

theorem lt_iff {a b : ScoreKey} : a < b ↔ a.fields < b.fields := Iff.rfl

theorem le_of_not_gt {a b : ScoreKey} (h : ¬a < b) : b ≤ a := by
  rw [lt_iff] at h
  exact not_lt.mp h

/-- Nothing ranks before a key without mismatches and penalty but such keys. -/
theorem raw_eq_zero_of_le {a b : ScoreKey} (h : a ≤ b) (hard : b.hard = 0)
    (regswap : b.regswap = 0) (stack : b.stack = 0) (raw : b.raw = 0) : a.raw = 0 := by
  simp only [le_iff, fields, Prod.Lex.toLex_le_toLex, hard, regswap, stack, raw] at h
  omega

end ScoreKey

end MeleeHarness.Permute
