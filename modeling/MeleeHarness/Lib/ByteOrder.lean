import MeleeHarness.Lib.Bytes
import Mathlib.Algebra.Group.Nat.Defs

/-!
# Numbers as bytes

Unsigned numbers of a fixed width, least or most significant byte first.

* `ByteOrder.read_write`: a number that fits its width is read back;
* `ByteOrder.readEach_write`: a table of them is read back as far as the numbers fit.
-/

namespace MeleeHarness.Lib

def writeLittle : Nat → Nat → Bytes
  | 0, _ => []
  | width + 1, n => UInt8.ofNat (n % 256) :: writeLittle width (n / 256)

def readLittle : Bytes → Nat
  | [] => 0
  | b :: rest => b.toNat + 256 * readLittle rest

theorem length_writeLittle (width n : Nat) : (writeLittle width n).length = width := by
  induction width generalizing n with
  | zero => rfl
  | succ width ih => rw [writeLittle, List.length_cons, ih]

/-- The bytes that do not fit are lost. -/
theorem readLittle_writeLittle (width n : Nat) :
    readLittle (writeLittle width n) = n % 256 ^ width := by
  induction width generalizing n with
  | zero => simp [writeLittle, readLittle, Nat.mod_one]
  | succ width ih =>
    have hbyte : (UInt8.ofNat (n % 256)).toNat = n % 256 := by
      rw [UInt8.toNat_ofNat']
      omega
    rw [writeLittle, readLittle, ih, hbyte, Nat.pow_succ', Nat.mod_mul]

inductive ByteOrder where
  | little
  | big
  deriving DecidableEq, Repr

namespace ByteOrder

def write : ByteOrder → Nat → Nat → Bytes
  | little, width, n => writeLittle width n
  | big, width, n => (writeLittle width n).reverse

def read : ByteOrder → Bytes → Nat
  | little, b => readLittle b
  | big, b => readLittle b.reverse

@[simp] theorem length_write (e : ByteOrder) (width n : Nat) : (e.write width n).length = width := by
  cases e with
  | little => exact length_writeLittle width n
  | big => rw [write, List.length_reverse, length_writeLittle]

theorem read_write_mod (e : ByteOrder) (width n : Nat) : e.read (e.write width n) = n % 256 ^ width := by
  cases e with
  | little => exact readLittle_writeLittle width n
  | big => rw [write, read, List.reverse_reverse, readLittle_writeLittle]

theorem read_write (e : ByteOrder) {width n : Nat} (h : n < 256 ^ width) :
    e.read (e.write width n) = n := by
  rw [read_write_mod, Nat.mod_eq_of_lt h]

/-- The numbers of a table, without the bytes that are not enough for one more. -/
def readEach (e : ByteOrder) (width : Nat) (b : Bytes) : List Nat :=
  (List.range (b.length / width)).map fun i => e.read ((b.drop (i * width)).take width)

theorem readEach_write (e : ByteOrder) {width : Nat} (hwidth : 0 < width) (ns : List Nat) :
    e.readEach width (ns.flatMap (e.write width)) = ns.map (· % 256 ^ width) := by
  have hlength : (ns.flatMap (e.write width)).length = ns.length * width := by
    simp [List.length_flatMap]
  rw [readEach, hlength, Nat.mul_div_cancel _ hwidth]
  clear hlength
  induction ns with
  | nil => rfl
  | cons n ns ih =>
    rw [List.length_cons, List.range_succ_eq_map, List.map_cons, List.map_map, List.flatMap_cons,
      List.map_cons]
    congr 1
    · rw [Nat.zero_mul, List.drop_zero, List.take_left' (length_write e width n), read_write_mod]
    · rw [← ih]
      apply List.map_congr_left
      intro i _
      have hnext : (i + 1) * width = width + i * width := by
        rw [Nat.add_mul, Nat.one_mul, Nat.add_comm]
      rw [Function.comp_apply, hnext, ← List.drop_drop, List.drop_left' (length_write e width n)]

end ByteOrder

end MeleeHarness.Lib
