import Mathlib.Data.List.Basic
import Mathlib.Tactic.Common

/-!
# Byte strings

`bytes` values as lists, with Python's slices: a negative index counts from the
end and an index past the end stands for the end.

* `slice_natCast`, `sliceFrom_natCast`: a slice at offsets that are not negative.
-/

namespace MeleeHarness.Lib

abbrev Bytes := List UInt8

/-- The bytes of a text of ASCII characters. -/
def ascii (s : String) : Bytes := s.toList.map fun c => c.toNat.toUInt8

section
variable {α : Type}

/-- The position that the slice index `i` stands for in a list of length `n`. -/
def sliceIndex (n : Nat) (i : Int) : Nat :=
  if i < 0 then (i + n).toNat else min i.toNat n

/-- `xs[start:]` -/
def sliceFrom (xs : List α) (start : Int) : List α := xs.drop (sliceIndex xs.length start)

/-- `xs[start:stop]` -/
def slice (xs : List α) (start stop : Int) : List α :=
  (xs.take (sliceIndex xs.length stop)).drop (sliceIndex xs.length start)

theorem sliceIndex_natCast (n i : Nat) : sliceIndex n i = min i n := by
  rw [sliceIndex, if_neg (by omega), Int.toNat_natCast]

theorem sliceFrom_natCast (xs : List α) (start : Nat) : sliceFrom xs start = xs.drop start := by
  rw [sliceFrom, sliceIndex_natCast]
  by_cases h : start ≤ xs.length
  · rw [Nat.min_eq_left h]
  · rw [Nat.min_eq_right (by omega), List.drop_length, List.drop_eq_nil_of_le (by omega)]

theorem slice_natCast (xs : List α) (start stop : Nat) :
    slice xs start stop = (xs.take stop).drop start := by
  have htake : xs.take (min stop xs.length) = xs.take stop := by simp
  rw [slice, sliceIndex_natCast, sliceIndex_natCast, htake]
  by_cases h : start ≤ xs.length
  · rw [Nat.min_eq_left h]
  · have hlen : (xs.take stop).length ≤ xs.length := List.length_take_le' stop xs
    rw [Nat.min_eq_right (by omega), List.drop_eq_nil_of_le hlen,
      List.drop_eq_nil_of_le (by omega)]

end

/-- `bytes.splitlines(keepends=True)`: lines end with `\n`, `\r` or `\r\n`. -/
def linesKeepends : Bytes → List Bytes
  | [] => []
  | 13 :: 10 :: rest => [13, 10] :: linesKeepends rest
  | c :: rest =>
    if c = 10 ∨ c = 13 then [c] :: linesKeepends rest
    else
      match linesKeepends rest with
      | [] => [[c]]
      | line :: lines => (c :: line) :: lines

theorem linesKeepends_flatten (t : Bytes) : (linesKeepends t).flatten = t := by
  fun_induction linesKeepends t with
  | case1 => rfl
  | case2 rest ih => simp [ih]
  | case3 c rest _ hc ih => simp [ih]
  | case4 c rest _ hc hnil ih =>
    rw [hnil] at ih
    simp [← ih]
  | case5 c rest _ hc line lines hlines ih =>
    rw [hlines] at ih
    simp [← ih]

end MeleeHarness.Lib
