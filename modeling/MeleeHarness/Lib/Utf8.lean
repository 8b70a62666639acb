import MeleeHarness.Lib.Bytes
import MeleeHarness.Lib.Text

/-!
# UTF-8

Bytes and the code points of a `str`, as Python's codec reads and writes them. A
`str` is a list of code points, the surrogates among them: the error handler
`surrogateescape` keeps a byte that belongs to no character as a lone surrogate,
and the strict encoder refuses it.

* `encodeStrict_decodeEscape`: what was read with the handler is written back
  without it exactly if the bytes are UTF-8.
-/

namespace MeleeHarness.Lib

open String (utf8EncodeChar)

/-- The bytes of a text. -/
def encode (t : Text) : Bytes := t.flatMap utf8EncodeChar

def IsUtf8 (b : Bytes) : Prop := ∃ t, encode t = b

@[simp] theorem encode_nil : encode [] = [] := rfl

@[simp] theorem encode_cons (c : Char) (t : Text) : encode (c :: t) = utf8EncodeChar c ++ encode t := rfl

theorem encode_append (s t : Text) : encode (s ++ t) = encode s ++ encode t :=
  List.flatMap_append

/-- The character whose encoding the bytes begin with. -/
def leadingChar (b : Bytes) : Option Char := b.toByteArray.utf8DecodeChar? 0

theorem leadingChar_encode (c : Char) (rest : Bytes) :
    leadingChar (utf8EncodeChar c ++ rest) = some c := by
  rw [leadingChar, List.toByteArray_append]
  exact ByteArray.utf8DecodeChar?_utf8EncodeChar_append

theorem eq_of_leadingChar {b : Bytes} {c : Char} (h : leadingChar b = some c) :
    b = utf8EncodeChar c ++ b.drop c.utf8Size := by
  obtain ⟨l, hl⟩ := ByteArray.exists_of_utf8DecodeChar?_eq_some h
  have hb : b = utf8EncodeChar c ++ l.data.toList := by
    simpa using congrArg (fun x : ByteArray => x.data.toList) hl
  rw [hb, List.drop_left' (String.length_utf8EncodeChar c)]

/-! ## ASCII bytes -/

theorem utf8EncodeChar_ascii {c : Char} (hc : c.toNat < 128) :
    utf8EncodeChar c = [c.toNat.toUInt8] := by
  have hval : c.val.toNat = c.toNat := rfl
  have hsize : c.utf8Size = 1 := by
    rw [Char.utf8Size_eq_one_iff, UInt32.le_iff_toNat_le, hval]
    exact Nat.le_of_lt_succ hc
  rw [String.utf8EncodeChar_eq_singleton hsize]
  rfl

theorem or_high {x k : UInt8} (hk : 128 ≤ k.toNat) : 128 ≤ (x ||| k).toNat := by
  rw [UInt8.toNat_or]
  exact hk.trans Nat.right_le_or

/-- The bytes of a character that is not ASCII are not ASCII either. -/
theorem utf8EncodeChar_high {c : Char} (hc : 128 ≤ c.toNat) : ∀ x ∈ utf8EncodeChar c, 128 ≤ x.toNat := by
  have hval : c.val.toNat = c.toNat := rfl
  rcases c.utf8Size_eq with hsize | hsize | hsize | hsize
  · rw [Char.utf8Size_eq_one_iff, UInt32.le_iff_toNat_le, hval] at hsize
    have : (127 : UInt32).toNat = 127 := rfl
    omega
  · rw [String.utf8EncodeChar_eq_cons_cons hsize]
    simp only [List.forall_mem_cons]
    exact ⟨or_high (by decide), or_high (by decide), by simp⟩
  · rw [String.utf8EncodeChar_eq_cons_cons_cons hsize]
    simp only [List.forall_mem_cons]
    exact ⟨or_high (by decide), or_high (by decide), or_high (by decide), by simp⟩
  · rw [String.utf8EncodeChar_eq_cons_cons_cons_cons hsize]
    simp only [List.forall_mem_cons]
    exact ⟨or_high (by decide), or_high (by decide), or_high (by decide), or_high (by decide), by simp⟩

/-- A newline byte is a newline. -/
theorem newline_mem_utf8EncodeChar {c : Char} (h : 10 ∈ utf8EncodeChar c) : c = '\n' := by
  by_cases hc : c.toNat < 128
  · rw [utf8EncodeChar_ascii hc, List.mem_singleton] at h
    have hnat : c.toNat = 10 := by
      have hval := congrArg UInt8.toNat h
      rw [Nat.toUInt8, UInt8.toNat_ofNat', Nat.mod_eq_of_lt (by omega)] at hval
      exact hval.symm
    rw [← Char.ofNat_toNat c, hnat]
  · have := utf8EncodeChar_high (by omega) 10 h
    exact absurd this (by decide)

theorem newline_mem_encode {t : Text} (h : 10 ∈ encode t) : '\n' ∈ t := by
  obtain ⟨c, hc, hmem⟩ := List.mem_flatMap.mp h
  rw [← newline_mem_utf8EncodeChar hmem]
  exact hc

/-! ## Reading with `surrogateescape` -/

/-- `bytes.decode("utf-8", "surrogateescape")`: a byte that belongs to no character
becomes the lone surrogate `U+DC00` plus its value. The number bounds the bytes to
read. -/
def decodeEscapeFrom : Nat → Bytes → List Nat
  | 0, _ => []
  | _ + 1, [] => []
  | n + 1, x :: rest =>
    match leadingChar (x :: rest) with
    | some c => c.toNat :: decodeEscapeFrom n ((x :: rest).drop c.utf8Size)
    | none => (0xDC00 + x.toNat) :: decodeEscapeFrom n rest

def decodeEscape (b : Bytes) : List Nat := decodeEscapeFrom b.length b

/-- `str.encode("utf-8")` of one code point; a surrogate raises `UnicodeEncodeError`. -/
def encodePoint (n : Nat) : Option Bytes :=
  if n.isValidChar then some (utf8EncodeChar (Char.ofNat n)) else none

/-- `str.encode("utf-8")` -/
def encodeStrict (s : List Nat) : Option Bytes := (s.mapM encodePoint).map List.flatten

theorem encodePoint_toNat (c : Char) : encodePoint c.toNat = some (utf8EncodeChar c) := by
  have hvalid : c.toNat.isValidChar := c.valid
  rw [encodePoint, if_pos hvalid, Char.ofNat_toNat]

theorem encodePoint_escaped (x : UInt8) : encodePoint (0xDC00 + x.toNat) = none := by
  have hlt := x.toNat_lt
  rw [encodePoint, if_neg]
  intro h
  rcases h with h | h <;> omega

@[simp] theorem encodeStrict_nil : encodeStrict [] = some [] := rfl

theorem encodeStrict_cons (n : Nat) (s : List Nat) :
    encodeStrict (n :: s) = (encodePoint n).bind fun b => (encodeStrict s).map (b ++ ·) := by
  rw [encodeStrict, encodeStrict, List.mapM_cons]
  cases encodePoint n with
  | none => rfl
  | some b => cases s.mapM encodePoint <;> rfl

/-- What the strict encoder writes is the text that was read. -/
theorem encodeStrict_decodeEscapeFrom {n : Nat} {b b' : Bytes} (hn : b.length ≤ n)
    (h : encodeStrict (decodeEscapeFrom n b) = some b') : b' = b ∧ IsUtf8 b := by
  induction n generalizing b b' with
  | zero =>
    obtain rfl := List.length_eq_zero_iff.mp (Nat.le_zero.mp hn)
    exact ⟨(Option.some.inj h).symm, [], rfl⟩
  | succ n ih =>
    cases b with
    | nil => exact ⟨(Option.some.inj h).symm, [], rfl⟩
    | cons x rest =>
      rw [decodeEscapeFrom] at h
      cases hc : leadingChar (x :: rest) with
      | none =>
        rw [hc, encodeStrict_cons, encodePoint_escaped] at h
        cases h
      | some c =>
        rw [hc, encodeStrict_cons, encodePoint_toNat] at h
        obtain ⟨b₁, hb₁, rfl⟩ := Option.map_eq_some_iff.mp h
        have hlen : ((x :: rest).drop c.utf8Size).length ≤ n := by
          have hpos := c.utf8Size_pos
          rw [List.length_drop]
          omega
        obtain ⟨rfl, t, ht⟩ := ih hlen hb₁
        have hb := eq_of_leadingChar hc
        exact ⟨hb.symm, c :: t, by rw [encode_cons, ht, ← hb]⟩

theorem encodeStrict_decodeEscapeFrom_encode (t : Text) {n : Nat} (hn : (encode t).length ≤ n) :
    encodeStrict (decodeEscapeFrom n (encode t)) = some (encode t) := by
  induction t generalizing n with
  | nil => cases n <;> rfl
  | cons c t ih =>
    have hlen : (encode (c :: t)).length = c.utf8Size + (encode t).length := by
      rw [encode_cons, List.length_append, String.length_utf8EncodeChar]
    have hpos := c.utf8Size_pos
    cases n with
    | zero => omega
    | succ n =>
      have hc := leadingChar_encode c (encode t)
      have hdrop : (utf8EncodeChar c ++ encode t).drop c.utf8Size = encode t :=
        List.drop_left' (String.length_utf8EncodeChar c)
      rw [encode_cons]
      obtain ⟨x, rest, hx⟩ := List.exists_cons_of_ne_nil (String.utf8EncodeChar_ne_nil (c := c))
      rw [hx, List.cons_append] at hc hdrop ⊢
      rw [decodeEscapeFrom, hc]
      simp only [encodeStrict_cons, encodePoint_toNat, hdrop, Option.bind_some,
        ih (n := n) (by omega), Option.map_some, hx, List.cons_append]

/-- Reading with the handler and writing without it. -/
theorem encodeStrict_decodeEscape (b : Bytes) :
    encodeStrict (decodeEscape b) = some b ↔ IsUtf8 b := by
  constructor
  · intro h
    exact (encodeStrict_decodeEscapeFrom le_rfl h).2
  · rintro ⟨t, rfl⟩
    exact encodeStrict_decodeEscapeFrom_encode t le_rfl

/-- No other bytes are ever written. -/
theorem eq_of_encodeStrict_decodeEscape {b b' : Bytes}
    (h : encodeStrict (decodeEscape b) = some b') : b' = b :=
  (encodeStrict_decodeEscapeFrom le_rfl h).1

/-! ## Reading with `replace` -/

def replacementChar : Char := Char.ofNat 0xFFFD

def isTail (x : UInt8) : Bool := 0x80 ≤ x.toNat && x.toNat ≤ 0xBF

/-- The second byte that can follow the first one of three or four. -/
def secondAllowed (x y : UInt8) : Bool :=
  if x = 0xE0 then 0xA0 ≤ y.toNat && y.toNat ≤ 0xBF
  else if x = 0xED then 0x80 ≤ y.toNat && y.toNat ≤ 0x9F
  else if x = 0xF0 then 0x90 ≤ y.toNat && y.toNat ≤ 0xBF
  else if x = 0xF4 then 0x80 ≤ y.toNat && y.toNat ≤ 0x8F
  else 0xE1 ≤ x.toNat && x.toNat ≤ 0xF3 && isTail y

/-- How many bytes stand for one error: as many as could begin a character. -/
def badLength : Bytes → Nat
  | x :: y :: z :: _ =>
    if secondAllowed x y then (if 0xF0 ≤ x.toNat && isTail z then 3 else 2) else 1
  | [x, y] => if secondAllowed x y then 2 else 1
  | _ => 1

/-- The characters that `bytes.decode("utf-8", "replace")` reads, each with its bytes. -/
def decodeUnitsFrom : Nat → Bytes → List (Char × Bytes)
  | 0, _ => []
  | _ + 1, [] => []
  | n + 1, x :: rest =>
    match leadingChar (x :: rest) with
    | some c => (c, utf8EncodeChar c) :: decodeUnitsFrom n ((x :: rest).drop c.utf8Size)
    | none =>
      (replacementChar, (x :: rest).take (badLength (x :: rest))) ::
        decodeUnitsFrom n ((x :: rest).drop (badLength (x :: rest)))

def decodeUnits (b : Bytes) : List (Char × Bytes) := decodeUnitsFrom b.length b

/-- `bytes.decode("utf-8", "replace")` -/
def decodeReplace (b : Bytes) : Text := (decodeUnits b).map Prod.fst

theorem badLength_pos (b : Bytes) : 0 < badLength b := by
  unfold badLength
  split
  · split_ifs <;> decide
  · split_ifs <;> decide
  · decide

theorem flatMap_decodeUnitsFrom {n : Nat} {b : Bytes} (hn : b.length ≤ n) :
    (decodeUnitsFrom n b).flatMap Prod.snd = b := by
  induction n generalizing b with
  | zero => rw [List.length_eq_zero_iff.mp (Nat.le_zero.mp hn)]; rfl
  | succ n ih =>
    cases b with
    | nil => rfl
    | cons x rest =>
      have hdrop : ∀ k, 0 < k → ((x :: rest).drop k).length ≤ n := by
        intro k hk
        rw [List.length_drop]
        omega
      rw [decodeUnitsFrom]
      cases hc : leadingChar (x :: rest) with
      | some c => simp only [List.flatMap_cons, ih (hdrop _ c.utf8Size_pos), ← eq_of_leadingChar hc]
      | none => simp only [List.flatMap_cons, ih (hdrop _ (badLength_pos _)), List.take_append_drop]

theorem flatMap_decodeUnits (b : Bytes) : (decodeUnits b).flatMap Prod.snd = b :=
  flatMap_decodeUnitsFrom le_rfl

theorem leadingChar_ascii {x : UInt8} (hx : x.toNat < 128) (rest : Bytes) :
    leadingChar (x :: rest) = some (Char.ofNat x.toNat) := by
  have hvalid : x.toNat.isValidChar := .inl (by omega)
  have hnat : (Char.ofNat x.toNat).toNat = x.toNat := by
    rw [Char.ofNat, dif_pos hvalid]
    rfl
  have hencode : utf8EncodeChar (Char.ofNat x.toNat) = [x] := by
    rw [utf8EncodeChar_ascii (by omega), hnat]
    simp
  have hlead := leadingChar_encode (Char.ofNat x.toNat) rest
  rwa [hencode] at hlead

theorem secondAllowed_high {x y : UInt8} (h : secondAllowed x y = true) : 128 ≤ y.toNat := by
  simp only [secondAllowed, isTail] at h
  split_ifs at h <;> simp only [Bool.and_eq_true, decide_eq_true_eq] at h <;> omega

/-- The bytes of an error are not ASCII. -/
theorem bad_high {x : UInt8} {rest : Bytes} (h : leadingChar (x :: rest) = none) :
    ∀ y ∈ (x :: rest).take (badLength (x :: rest)), 128 ≤ y.toNat := by
  have hx : 128 ≤ x.toNat := by
    by_contra hlow
    rw [leadingChar_ascii (by omega)] at h
    cases h
  have hone : ∀ y ∈ (x :: rest).take 1, 128 ≤ y.toNat := by simpa using hx
  rcases rest with _ | ⟨y, _ | ⟨z, rest⟩⟩
  · exact hone
  · rw [badLength]
    split_ifs with hy
    · simpa using ⟨hx, secondAllowed_high hy⟩
    · exact hone
  · rw [badLength]
    split_ifs with hy hz
    · simp only [Bool.and_eq_true, isTail, decide_eq_true_eq] at hz
      simpa using ⟨hx, secondAllowed_high hy, hz.2.1⟩
    · simpa using ⟨hx, secondAllowed_high hy⟩
    · exact hone

theorem unit_newline_from {n : Nat} {b : Bytes} {u : Char × Bytes} (h : u ∈ decodeUnitsFrom n b) :
    u.2 = utf8EncodeChar u.1 ∨ u.1 = replacementChar ∧ 10 ∉ u.2 := by
  induction n generalizing b with
  | zero => cases h
  | succ n ih =>
    cases b with
    | nil => cases h
    | cons x rest =>
      rw [decodeUnitsFrom] at h
      cases hc : leadingChar (x :: rest) with
      | some c =>
        rw [hc] at h
        rcases List.mem_cons.mp h with rfl | h
        · exact .inl rfl
        · exact ih h
      | none =>
        rw [hc] at h
        rcases List.mem_cons.mp h with rfl | h
        · refine .inr ⟨rfl, fun hin => ?_⟩
          exact absurd (bad_high hc 10 hin) (by decide)
        · exact ih h

/-- A unit is a character with its bytes, or stands for bytes that are no newline. -/
theorem unit_newline {b : Bytes} {u : Char × Bytes} (h : u ∈ decodeUnits b) :
    u.2 = utf8EncodeChar u.1 ∨ u.1 = replacementChar ∧ 10 ∉ u.2 :=
  unit_newline_from h

end MeleeHarness.Lib
