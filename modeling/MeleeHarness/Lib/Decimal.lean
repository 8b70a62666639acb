import MeleeHarness.Lib.Text
import Mathlib.Algebra.Order.Field.Rat
import Mathlib.Algebra.Order.Field.Power
import Mathlib.Tactic.Linarith
import Mathlib.Tactic.NormNum
import Mathlib.Tactic.Positivity
import Mathlib.Tactic.Ring

/-!
# Decimal constants

The decimal floating constants of C, with the number each stands for, and how close the numbers
of a binary format are to each other.

* `readDecimal_exponent`, `readDecimal_pointed`: the two ways to write a number;
* `spacing`: between two numbers of `p` binary digits lies at least the `2 ^ p`-th part of either.
-/

namespace MeleeHarness.Lib

/-! ## Reading -/

def sign (negative : Bool) : Text := if negative then ['-'] else []

def readSign : Text → Bool × Text
  | '-' :: rest => (true, rest)
  | rest => (false, rest)

/-- The digits at the front. -/
def readDigits (t : Text) : Text × Text := (t.takeWhile Char.isDigit, t.dropWhile Char.isDigit)

def readExponentDigits (t : Text) : Option (Nat × Text) :=
  let (digits, rest) := readDigits t
  if digits = [] then none else some (Nat.ofDigitChars 10 digits 0, rest)

/-- The exponent of ten, and what follows. -/
def readExponent : Text → Option (Int × Text)
  | 'e' :: '-' :: rest => (readExponentDigits rest).map fun r => (-(r.1 : Int), r.2)
  | 'e' :: '+' :: rest => (readExponentDigits rest).map fun r => ((r.1 : Int), r.2)
  | 'e' :: rest => (readExponentDigits rest).map fun r => ((r.1 : Int), r.2)
  | rest => some (0, rest)

def readPoint : Text → Option (Text × Text)
  | '.' :: rest => some (readDigits rest)
  | _ => none

/-- A floating constant behind a sign, of type `float` if it is `single`. -/
structure FloatingConstant where
  negative : Bool
  magnitude : Rat
  single : Bool

/-- Without a point and without an exponent it is an integer constant, and takes no suffix. -/
def readDecimal (t : Text) : Option FloatingConstant := do
  let (negative, t) := readSign t
  let (whole, t) := readDigits t
  let point := readPoint t
  let (frac, t) := point.getD ([], t)
  let (exponent, rest) ← readExponent t
  if whole ++ frac = [] ∨ point = none ∧ t.head? ≠ some 'e' ∨ rest ≠ [] ∧ rest ≠ ['f'] then none
  else some ⟨negative, (Nat.ofDigitChars 10 (whole ++ frac) 0 : Rat) * 10 ^ (exponent - frac.length),
    rest = ['f']⟩

def Digits (t : Text) : Prop := ∀ c ∈ t, c.isDigit = true

def Suffix (t : Text) : Prop := t = [] ∨ t = ['f']

theorem digits_replicate (k : Nat) : Digits (List.replicate k '0') := by
  intro c hc
  rw [List.eq_of_mem_replicate hc]
  rfl

theorem Digits.append {a b : Text} (ha : Digits a) (hb : Digits b) : Digits (a ++ b) := fun c hc =>
  (List.mem_append.mp hc).elim (ha c) (hb c)

theorem Digits.take {a : Text} (ha : Digits a) (k : Nat) : Digits (a.take k) := fun c hc =>
  ha c (List.mem_of_mem_take hc)

theorem Digits.drop {a : Text} (ha : Digits a) (k : Nat) : Digits (a.drop k) := fun c hc =>
  ha c (List.mem_of_mem_drop hc)

theorem not_mem_digits {a : Text} (ha : Digits a) {c : Char} (hc : c.isDigit = false) : c ∉ a :=
  fun hmem => by simp [ha c hmem] at hc

theorem digits_toDigits (n : Nat) : Digits (Nat.toDigits 10 n) := fun _ hc =>
  Nat.isDigit_of_mem_toDigits (by decide) (by decide) hc

theorem readDigits_append {ds rest : Text} (h : Digits ds)
    (hrest : ∀ c ∈ rest.head?, c.isDigit = false) : readDigits (ds ++ rest) = (ds, rest) := by
  rw [readDigits, List.takeWhile_append_of_pos h, List.dropWhile_append_of_pos h]
  cases rest with
  | nil => simp
  | cons c rest =>
    have hc := hrest c rfl
    simp [hc]

theorem digit_ne_minus {c : Char} (h : c.isDigit = true) : c ≠ '-' := by
  rintro rfl
  exact absurd h (by decide)

theorem readSign_append (negative : Bool) {t : Text} (h : ∃ c rest, t = c :: rest ∧ c.isDigit = true) :
    readSign (sign negative ++ t) = (negative, t) := by
  obtain ⟨c, rest, rfl, hc⟩ := h
  cases negative with
  | true => rfl
  | false =>
    have hne := digit_ne_minus hc
    rw [sign, if_neg Bool.false_ne_true, List.nil_append, readSign]
    rintro rest' heq
    exact hne (List.cons.inj heq).1

theorem exists_digit {whole rest : Text} (h : Digits whole) (hne : whole ≠ []) :
    ∃ c rest', whole ++ rest = c :: rest' ∧ c.isDigit = true := by
  obtain ⟨c, cs, rfl⟩ := List.exists_cons_of_ne_nil hne
  exact ⟨c, cs ++ rest, rfl, h c List.mem_cons_self⟩

theorem suffix_head {suffix : Text} (h : Suffix suffix) : ∀ c ∈ suffix.head?, c.isDigit = false := by
  rcases h with rfl | rfl
  · simp
  · intro c hc
    obtain rfl : 'f' = c := Option.some.inj hc
    rfl

theorem readExponent_suffix {suffix : Text} (h : Suffix suffix) :
    readExponent suffix = some (0, suffix) := by
  rcases h with rfl | rfl <;> rfl

theorem suffix_rest {suffix : Text} (h : Suffix suffix) : ¬(suffix ≠ [] ∧ suffix ≠ ['f']) := by
  rintro ⟨hnil, hf⟩
  exact h.elim hnil hf

/-- Digits with a point among them. -/
theorem readDecimal_pointed (negative : Bool) {whole frac suffix : Text} (hwhole : Digits whole)
    (hne : whole ≠ []) (hfrac : Digits frac) (hsuffix : Suffix suffix) :
    readDecimal (sign negative ++ (whole ++ '.' :: (frac ++ suffix))) =
      some ⟨negative, (Nat.ofDigitChars 10 (whole ++ frac) 0 : Rat) * 10 ^ (-(frac.length : Int)),
        suffix = ['f']⟩ := by
  have hpoint : readPoint ('.' :: (frac ++ suffix)) = some (frac, suffix) := by
    rw [readPoint, readDigits_append hfrac (suffix_head hsuffix)]
  rw [readDecimal, readSign_append negative (exists_digit hwhole hne)]
  simp only [readDigits_append hwhole (by simp : ∀ c ∈ ('.' :: (frac ++ suffix)).head?, c.isDigit = false),
    hpoint, Option.getD_some, readExponent_suffix hsuffix, Option.bind_eq_bind, Option.bind_some,
    zero_sub]
  rw [if_neg]
  rintro (hnil | hnone | hrest)
  · exact hne (List.append_eq_nil_iff.mp hnil).1
  · cases hnone.1
  · exact suffix_rest hsuffix hrest

/-- Digits before the exponent of ten: none, or a point and some. -/
def pointed (whole frac : Text) : Text := if frac = [] then whole else whole ++ '.' :: frac

theorem readExponent_signed (negative : Bool) {ds suffix : Text} (hds : Digits ds) (hne : ds ≠ [])
    (hsuffix : Suffix suffix) :
    readExponent ('e' :: (if negative then '-' else '+') :: (ds ++ suffix)) =
      some (if negative then -(Nat.ofDigitChars 10 ds 0 : Int) else Nat.ofDigitChars 10 ds 0, suffix) := by
  have hread : readExponentDigits (ds ++ suffix) = some (Nat.ofDigitChars 10 ds 0, suffix) := by
    rw [readExponentDigits, readDigits_append hds (suffix_head hsuffix)]
    exact if_neg hne
  cases negative <;> simp [readExponent, hread]

/-- Digits, perhaps with a point among them, and an exponent. -/
theorem readDecimal_exponent (negative negativeExponent : Bool) {whole frac ds suffix : Text}
    (hwhole : Digits whole) (hne : whole ≠ []) (hfrac : Digits frac) (hds : Digits ds)
    (hdsne : ds ≠ []) (hsuffix : Suffix suffix) :
    readDecimal (sign negative ++ (pointed whole frac ++
        'e' :: (if negativeExponent then '-' else '+') :: (ds ++ suffix))) =
      some ⟨negative, (Nat.ofDigitChars 10 (whole ++ frac) 0 : Rat) *
        10 ^ ((if negativeExponent then -(Nat.ofDigitChars 10 ds 0 : Int)
          else Nat.ofDigitChars 10 ds 0) - frac.length), suffix = ['f']⟩ := by
  have hexponent := readExponent_signed negativeExponent hds hdsne hsuffix
  generalize (if negativeExponent then '-' else '+') = mark at hexponent ⊢
  generalize (if negativeExponent then -(Nat.ofDigitChars 10 ds 0 : Int)
    else Nat.ofDigitChars 10 ds 0) = exponent at hexponent ⊢
  have hhead {rest : Text} : ∀ c ∈ ('e' :: rest).head?, c.isDigit = false := by simp
  have hpointHead {rest : Text} : ∀ c ∈ ('.' :: rest).head?, c.isDigit = false := by simp
  by_cases hnil : frac = []
  · subst hnil
    have hpoint : readPoint ('e' :: mark :: (ds ++ suffix)) = none := rfl
    rw [pointed, if_pos rfl, readDecimal, readSign_append negative (exists_digit hwhole hne)]
    simp only [readDigits_append hwhole hhead, hpoint, Option.getD_none, hexponent,
      Option.bind_eq_bind, Option.bind_some]
    rw [if_neg]
    rintro (hnil | hnone | hrest)
    · exact hne (List.append_eq_nil_iff.mp hnil).1
    · exact hnone.2 rfl
    · exact suffix_rest hsuffix hrest
  · have hpoint : readPoint ('.' :: (frac ++ 'e' :: mark :: (ds ++ suffix))) =
        some (frac, 'e' :: mark :: (ds ++ suffix)) := by
      rw [readPoint, readDigits_append hfrac hhead]
    rw [pointed, if_neg hnil, readDecimal, List.append_assoc, List.cons_append,
      readSign_append negative (exists_digit hwhole hne)]
    simp only [readDigits_append hwhole hpointHead, hpoint, Option.getD_some, hexponent,
      Option.bind_eq_bind, Option.bind_some]
    rw [if_neg]
    rintro (hnil | hnone | hrest)
    · exact hne (List.append_eq_nil_iff.mp hnil).1
    · cases hnone.1
    · exact suffix_rest hsuffix hrest

/-! ## Numbers of a binary format -/

/-- `mantissa * 2 ^ exponent` has `p` binary digits, or the least exponent. -/
structure Binary (p : Nat) (least : Int) (mantissa : Nat) (exponent : Int) : Prop where
  lt : mantissa < 2 ^ p
  le : least ≤ exponent
  full : 2 ^ (p - 1) ≤ mantissa ∨ exponent = least

/-- A number in a smaller unit. -/
theorem in_unit (m : Nat) {e u : Int} (h : u ≤ e) :
    (m : Rat) * 2 ^ e = ((m * 2 ^ (e - u).toNat : Nat) : Rat) * 2 ^ u := by
  have hsplit : (2 : Rat) ^ e = 2 ^ (e - u).toNat * 2 ^ u := by
    rw [← zpow_natCast, Int.toNat_of_nonneg (by omega), ← zpow_add₀ (by norm_num)]
    congr 1
    omega
  rw [hsplit]
  push_cast
  ring

/-- Multiples of a unit, compared as numbers. -/
theorem le_of_unit {n n' P : Nat} {u : Int} (h : (n : Rat) ≤ P * |(n : Rat) - n'|) :
    (n : Rat) * 2 ^ u ≤ P * |(n : Rat) * 2 ^ u - (n' : Rat) * 2 ^ u| := by
  have hpos : (0 : Rat) < 2 ^ u := by positivity
  rw [← sub_mul, abs_mul, abs_of_pos hpos, ← mul_assoc]
  exact mul_le_mul_of_nonneg_right h hpos.le

/-- Two numbers that differ do so by at least the `2 ^ p`-th part of the first. -/
theorem spacing {p : Nat} (hp : 0 < p) {least e e' : Int} {m m' : Nat} (h : Binary p least m e)
    (h' : Binary p least m' e') (hne : (m : Rat) * 2 ^ e ≠ (m' : Rat) * 2 ^ e') :
    (m : Rat) * 2 ^ e ≤ (2 ^ p : Nat) * |(m : Rat) * 2 ^ e - (m' : Rat) * 2 ^ e'| := by
  by_cases hle : e ≤ e'
  · -- The second is a multiple of the unit of the first.
    rw [in_unit m' hle] at hne ⊢
    generalize m' * 2 ^ (e' - e).toNat = n at hne ⊢
    apply le_of_unit
    have hmn : (m : Int) - n ≠ 0 := by
      intro heq
      have : (m : Int) = n := by omega
      rw [Int.ofNat_inj.mp this] at hne
      exact hne rfl
    have hone : (1 : Rat) ≤ |(m : Rat) - n| := by
      have := Int.one_le_abs hmn
      exact_mod_cast this
    have hm : (m : Rat) ≤ (2 ^ p : Nat) := by exact_mod_cast h.lt.le
    calc (m : Rat) ≤ (2 ^ p : Nat) * 1 := by rw [mul_one]; exact hm
      _ ≤ (2 ^ p : Nat) * |(m : Rat) - n| := by gcongr
  · -- The first has all its digits, in a larger unit than the second.
    have hfull := h.full.resolve_right (by have := h'.le; omega)
    have hlarge : 2 ^ p ≤ m * 2 ^ (e - e').toNat := by
      have htwo : 2 ^ 1 ≤ 2 ^ (e - e').toNat := Nat.pow_le_pow_right (by decide) (by omega)
      calc 2 ^ p = 2 ^ (p - 1) * 2 ^ 1 := by rw [← Nat.pow_add]; congr 1; omega
        _ ≤ m * 2 ^ (e - e').toNat := Nat.mul_le_mul hfull htwo
    rw [in_unit m (by omega : e' ≤ e)]
    generalize m * 2 ^ (e - e').toNat = n at hlarge ⊢
    apply le_of_unit
    have hlt := h'.lt
    generalize 2 ^ p = P at hlarge hlt ⊢
    have hmn : (m' : Rat) + 1 ≤ P := by exact_mod_cast hlt
    have hPn : (P : Rat) ≤ n := by exact_mod_cast hlarge
    have hP : (1 : Rat) ≤ P := by
      have : (0 : Rat) ≤ m' := by positivity
      linarith
    rw [abs_of_nonneg (by linarith)]
    nlinarith

/-- What is within half the `Q`-th part of a number is nearer to it than to any other number that
is at least its `P`-th part away, for `P < Q`. -/
theorem nearer {a b v : Rat} {P Q : Nat} (hPQ : P < Q) (ha : 0 < a) (hfar : a ≤ P * |a - b|)
    (hclose : 2 * Q * |v - a| ≤ a) : |v - a| < |v - b| := by
  by_contra hle
  rw [not_lt] at hle
  have htri : |a - b| ≤ 2 * |v - a| := by
    calc |a - b| ≤ |a - v| + |v - b| := abs_sub_le a v b
      _ ≤ |v - a| + |v - a| := by rw [abs_sub_comm a v]; linarith
      _ = 2 * |v - a| := by ring
  have hP : (0 : Rat) ≤ P := by positivity
  have hlt : (P : Rat) + 1 ≤ Q := by exact_mod_cast hPQ
  have hbound : a ≤ P * (2 * |v - a|) := hfar.trans (mul_le_mul_of_nonneg_left htri hP)
  have hpos : 0 < |v - a| := by
    by_contra hzero
    have hzero : |v - a| = 0 := le_antisymm (not_lt.mp hzero) (abs_nonneg _)
    rw [hzero] at hbound
    linarith
  nlinarith

/-- The digits of a number with this much precision say which one it is. -/
theorem Binary.eq {p : Nat} (hp : 0 < p) {least e e' : Int} {m m' : Nat} (h : Binary p least m e)
    (h' : Binary p least m' e') (heq : (m : Rat) * 2 ^ e = (m' : Rat) * 2 ^ e') :
    m = m' ∧ e = e' := by
  have hle : ∀ {m m' : Nat} {e e' : Int}, Binary p least m e → Binary p least m' e' →
      (m : Rat) * 2 ^ e = (m' : Rat) * 2 ^ e' → e' ≤ e := by
    intro m m' e e' h h' heq
    by_contra hlt
    have hfull := h'.full.resolve_right (by have := h.le; omega)
    rw [in_unit m' (by omega : e ≤ e')] at heq
    have heq := mul_right_cancel₀ (by positivity) heq
    have hm : m = m' * 2 ^ (e' - e).toNat := by exact_mod_cast heq
    have htwo : 2 ^ 1 ≤ 2 ^ (e' - e).toNat := Nat.pow_le_pow_right (by decide) (by omega)
    have hlarge : 2 ^ p ≤ m := by
      calc 2 ^ p = 2 ^ (p - 1) * 2 ^ 1 := by rw [← Nat.pow_add]; congr 1; omega
        _ ≤ m' * 2 ^ (e' - e).toNat := Nat.mul_le_mul hfull htwo
        _ = m := hm.symm
    exact absurd h.lt (not_lt.mpr hlarge)
  obtain rfl : e = e' := le_antisymm (hle h' h heq.symm) (hle h h' heq)
  have heq := mul_right_cancel₀ (by positivity) heq
  exact ⟨by exact_mod_cast heq, rfl⟩

end MeleeHarness.Lib
