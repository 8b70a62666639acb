import MeleeHarness.Lib.Bytes
import MeleeHarness.Lib.Text

/-!
# Base64

`base64.b64encode(data).decode("ascii")` and `base64.b64decode`, which passes
over characters outside the alphabet and stops at the padding.

* `b64decode_b64encode`: what is encoded decodes to itself.
-/

namespace MeleeHarness.Lib

def base64Alphabet : Text :=
  ['A', 'B', 'C', 'D', 'E', 'F', 'G', 'H', 'I', 'J', 'K', 'L', 'M', 'N', 'O', 'P', 'Q', 'R', 'S',
    'T', 'U', 'V', 'W', 'X', 'Y', 'Z', 'a', 'b', 'c', 'd', 'e', 'f', 'g', 'h', 'i', 'j', 'k', 'l',
    'm', 'n', 'o', 'p', 'q', 'r', 's', 't', 'u', 'v', 'w', 'x', 'y', 'z', '0', '1', '2', '3', '4',
    '5', '6', '7', '8', '9', '+', '/']

/-- The character of a six-bit number. -/
def base64Char (n : Nat) : Char := base64Alphabet.getD n '='

def base64Value (c : Char) : Option Nat := base64Alphabet.idxOf? c

def b64encode : Bytes → Text
  | [] => []
  | [a] => [base64Char (a.toNat / 4), base64Char (a.toNat % 4 * 16), '=', '=']
  | [a, b] =>
    [base64Char (a.toNat / 4), base64Char (a.toNat % 4 * 16 + b.toNat / 16),
      base64Char (b.toNat % 16 * 4), '=']
  | a :: b :: c :: rest =>
    base64Char (a.toNat / 4) :: base64Char (a.toNat % 4 * 16 + b.toNat / 16) ::
      base64Char (b.toNat % 16 * 4 + c.toNat / 64) :: base64Char (c.toNat % 64) :: b64encode rest

/-- How far into a group of four the decoder is, with the bits it holds back. -/
inductive Quad where
  | none
  | one (bits : Nat)
  | two (bits : Nat)
  | three (bits : Nat)

/-- The decoder's loop; `pads` counts the padding since the last character of the
alphabet. `none` where the data ends inside a group. -/
def decodeQuads : Quad → Nat → Text → Option Bytes
  | .none, _, [] => some []
  | _, _, [] => none
  | quad, pads, c :: rest =>
    if c = '=' then
      match quad with
      | .none | .one _ => decodeQuads quad pads rest
      | .two _ => if pads = 0 then decodeQuads quad 1 rest else some []
      | .three _ => some []
    else
      match base64Value c, quad with
      | none, _ => decodeQuads quad pads rest
      | some v, .none => decodeQuads (.one v) 0 rest
      | some v, .one bits =>
        (decodeQuads (.two (v % 16)) 0 rest).map ((bits * 4 + v / 16).toUInt8 :: ·)
      | some v, .two bits =>
        (decodeQuads (.three (v % 4)) 0 rest).map ((bits * 16 + v / 4).toUInt8 :: ·)
      | some v, .three bits => (decodeQuads .none 0 rest).map ((bits * 64 + v).toUInt8 :: ·)

/-- `base64.b64decode(s)`, `none` where it raises. -/
def b64decode (s : Text) : Option Bytes :=
  if s.all fun c => c.toNat < 128 then decodeQuads .none 0 s else none

theorem base64Char_value : ∀ n < 64, base64Char n ≠ '=' ∧ base64Value (base64Char n) = some n ∧
    (base64Char n).toNat < 128 := by
  decide

section
variable {n : Nat} (h : n < 64) (pads : Nat) (rest : Text)
include h

theorem decodeQuads_none :
    decodeQuads .none pads (base64Char n :: rest) = decodeQuads (.one n) 0 rest := by
  obtain ⟨hpad, hvalue, -⟩ := base64Char_value n h
  simp [decodeQuads, hpad, hvalue]

theorem decodeQuads_one (bits : Nat) :
    decodeQuads (.one bits) pads (base64Char n :: rest) =
      (decodeQuads (.two (n % 16)) 0 rest).map ((bits * 4 + n / 16).toUInt8 :: ·) := by
  obtain ⟨hpad, hvalue, -⟩ := base64Char_value n h
  simp [decodeQuads, hpad, hvalue]

theorem decodeQuads_two (bits : Nat) :
    decodeQuads (.two bits) pads (base64Char n :: rest) =
      (decodeQuads (.three (n % 4)) 0 rest).map ((bits * 16 + n / 4).toUInt8 :: ·) := by
  obtain ⟨hpad, hvalue, -⟩ := base64Char_value n h
  simp [decodeQuads, hpad, hvalue]

theorem decodeQuads_three (bits : Nat) :
    decodeQuads (.three bits) pads (base64Char n :: rest) =
      (decodeQuads .none 0 rest).map ((bits * 64 + n).toUInt8 :: ·) := by
  obtain ⟨hpad, hvalue, -⟩ := base64Char_value n h
  simp [decodeQuads, hpad, hvalue]

end

theorem toUInt8_eq {n : Nat} {b : UInt8} (h : n = b.toNat) : n.toUInt8 = b := by
  simp [h]

theorem decodeQuads_encode (data : Bytes) : decodeQuads .none 0 (b64encode data) = some data := by
  fun_induction b64encode data with
  | case1 => rfl
  | case2 a =>
    have ha := a.toNat_lt
    rw [decodeQuads_none (by omega), decodeQuads_one (by omega),
      toUInt8_eq (b := a) (by omega)]
    rfl
  | case3 a b =>
    have ha := a.toNat_lt
    have hb := b.toNat_lt
    rw [decodeQuads_none (by omega), decodeQuads_one (by omega), decodeQuads_two (by omega),
      toUInt8_eq (b := a) (by omega), toUInt8_eq (b := b) (by omega)]
    rfl
  | case4 a b c rest ih =>
    have ha := a.toNat_lt
    have hb := b.toNat_lt
    have hc := c.toNat_lt
    rw [decodeQuads_none (by omega), decodeQuads_one (by omega), decodeQuads_two (by omega),
      decodeQuads_three (by omega), ih, toUInt8_eq (b := a) (by omega),
      toUInt8_eq (b := b) (by omega), toUInt8_eq (b := c) (by omega)]
    rfl

theorem b64encode_ascii (data : Bytes) : ∀ c ∈ b64encode data, c.toNat < 128 := by
  have hchar : ∀ n < 64, (base64Char n).toNat < 128 := fun n hn => (base64Char_value n hn).2.2
  fun_induction b64encode data with
  | case1 => simp
  | case2 a =>
    have ha := a.toNat_lt
    simp only [List.forall_mem_cons]
    exact ⟨hchar _ (by omega), hchar _ (by omega), by decide, by decide, by simp⟩
  | case3 a b =>
    have ha := a.toNat_lt
    have hb := b.toNat_lt
    simp only [List.forall_mem_cons]
    exact ⟨hchar _ (by omega), hchar _ (by omega), hchar _ (by omega), by decide, by simp⟩
  | case4 a b c rest ih =>
    have ha := a.toNat_lt
    have hb := b.toNat_lt
    have hc := c.toNat_lt
    simp only [List.forall_mem_cons]
    exact ⟨hchar _ (by omega), hchar _ (by omega), hchar _ (by omega), hchar _ (by omega), ih⟩

theorem b64decode_b64encode (data : Bytes) : b64decode (b64encode data) = some data := by
  rw [b64decode, if_pos, decodeQuads_encode]
  simpa using b64encode_ascii data

end MeleeHarness.Lib
