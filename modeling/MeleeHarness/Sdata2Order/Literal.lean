import MeleeHarness.Lib.Decimal
import MeleeHarness.Lib.Run
import MeleeHarness.Sdata2Order.Mismatch

/-!
# The helper that orders the constants

`render_helper` of `tools/sdata2_order.py` writes every constant of the target as a literal.

* `readDecimal_formatG`: a literal stands for the rounded digits of its constant;
* `renderHelper_reads`: of all constants of its size and sign, the one it was written for is the
  nearest to what a literal stands for.
-/

namespace MeleeHarness.Sdata2Order

open Lib

/-! ## Rounding -/

theorem roundHalfEven_near (n d : Nat) (hd : 0 < d) :
    2 * n ≤ 2 * (d * roundHalfEven n d) + d ∧ 2 * (d * roundHalfEven n d) ≤ 2 * n + d := by
  have hdiv := Nat.div_add_mod n d
  have hmod := Nat.mod_lt n hd
  rw [roundHalfEven]
  split_ifs with h
  · omega
  · rw [Nat.mul_add, Nat.mul_one]
    omega

theorem le_roundHalfEven {n d k : Nat} (hd : 0 < d) (h : d * k ≤ n) : k ≤ roundHalfEven n d := by
  have hk : k ≤ n / d := (Nat.le_div_iff_mul_le hd).mpr (by rwa [Nat.mul_comm])
  rw [roundHalfEven]
  split_ifs <;> omega

theorem roundHalfEven_le {n d k : Nat} (hd : 0 < d) (h : n < d * k) : roundHalfEven n d ≤ k := by
  have hk : n / d < k := (Nat.div_lt_iff_lt_mul hd).mpr (by rwa [Nat.mul_comm])
  rw [roundHalfEven]
  split_ifs <;> omega

/-- The exponent is that of the first digit. -/
theorem decimalExponent_spec {n d : Nat} (hn : 0 < n) (hd : 0 < d) :
    (10 : Rat) ^ decimalExponent n d ≤ (n : Rat) / d ∧
      (n : Rat) / d < 10 ^ (decimalExponent n d + 1) := by
  have hd' : (0 : Rat) < d := by exact_mod_cast hd
  have hn' : (0 : Rat) < n := by exact_mod_cast hn
  rw [decimalExponent]
  by_cases h : d ≤ n
  · rw [if_pos h, le_div_iff₀ hd', div_lt_iff₀ hd']
    have hne : n / d ≠ 0 := (Nat.div_pos h hd).ne'
    have hlow := Nat.pow_log_le_self 10 hne
    have hhigh := Nat.lt_pow_succ_log_self (by decide : 1 < 10) (n / d)
    generalize Nat.log 10 (n / d) = x at hlow hhigh
    rw [Nat.le_div_iff_mul_le hd] at hlow
    rw [Nat.div_lt_iff_lt_mul hd] at hhigh
    exact ⟨by exact_mod_cast hlow, by exact_mod_cast hhigh⟩
  · rw [if_neg h, le_div_iff₀ hd', div_lt_iff₀ hd']
    have htwo : 1 < (d + n - 1) / n := (Nat.le_div_iff_mul_le hn).mpr (by omega)
    have hup : d ≤ n * 10 ^ Nat.clog 10 ((d + n - 1) / n) := by
      have hceil := Nat.le_pow_clog (by decide : 1 < 10) ((d + n - 1) / n)
      have hmul := Nat.mul_le_mul_left n hceil
      have hdiv := Nat.div_add_mod (d + n - 1) n
      have hmod := Nat.mod_lt (d + n - 1) hn
      omega
    have hpred := Nat.pow_pred_clog_lt_self (by decide : 1 < 10) htwo
    have hpos := Nat.clog_pos (by decide : 1 < 10) htwo
    rw [← Nat.succ_le_iff, Nat.le_div_iff_mul_le hn, Nat.succ_mul] at hpred
    generalize Nat.clog 10 ((d + n - 1) / n) = k at hup hpred hpos
    have hlow : 10 ^ k.pred * n < d := by omega
    obtain ⟨k, rfl⟩ := Nat.exists_eq_succ_of_ne_zero hpos.ne'
    rw [Nat.pred_succ] at hlow
    have hup' : (d : Rat) ≤ n * 10 ^ (k + 1) := by exact_mod_cast hup
    have hlow' : (10 : Rat) ^ k * n < d := by exact_mod_cast hlow
    have hten : (0 : Rat) < 10 ^ k := by positivity
    constructor
    · rw [zpow_neg, zpow_natCast, inv_mul_le_iff₀ (by positivity), mul_comm]
      exact hup'
    · have hexp : -((k.succ : Nat) : Int) + 1 = -(k : Int) := by push_cast; ring
      rw [hexp, zpow_neg, zpow_natCast, lt_inv_mul_iff₀ hten]
      exact hlow'

/-- A quotient moved by a power of ten, as the quotient of two numbers. -/
theorem shifted_eq (n d : Nat) (shift : Int) :
    ((n * 10 ^ shift.toNat : Nat) : Rat) / (d * 10 ^ (-shift).toNat : Nat) = n / d * 10 ^ shift := by
  have hten : (10 : Rat) ^ shift = 10 ^ shift.toNat / 10 ^ (-shift).toNat := by
    rw [← zpow_natCast, ← zpow_natCast, ← zpow_sub₀ (by norm_num)]
    congr 1
    omega
  rw [hten]
  push_cast
  rw [div_mul_div_comm]

/-- As many digits as asked for, and a number within half a unit of the last one. -/
theorem roundDigits_spec {precision n d : Nat} (hprecision : 0 < precision) (hn : 0 < n) (hd : 0 < d) :
    let r := roundDigits precision n d
    (10 ^ (precision - 1) ≤ r.1 ∧ r.1 < 10 ^ precision) ∧
      2 * (10 ^ (precision - 1) : Nat) * |(r.1 : Rat) * 10 ^ (r.2 + 1 - precision) - (n : Rat) / d| ≤
        (n : Rat) / d := by
  obtain ⟨hlow, hhigh⟩ := decimalExponent_spec hn hd
  generalize hx : decimalExponent n d = x at hlow hhigh
  obtain ⟨shift, hshift⟩ : ∃ shift : Int, shift = precision - 1 - x := ⟨_, rfl⟩
  have hquot := shifted_eq n d shift
  have hD : 0 < d * 10 ^ (-shift).toNat := by positivity
  have hrounded : roundDigits precision n d =
      let digits := roundHalfEven (n * 10 ^ shift.toNat) (d * 10 ^ (-shift).toNat)
      if digits = 10 ^ precision then (10 ^ (precision - 1), x + 1) else (digits, x) := by
    rw [roundDigits, hx, ← hshift]
  rw [hrounded]
  generalize n * 10 ^ shift.toNat = N at hquot ⊢
  generalize d * 10 ^ (-shift).toNat = D at hquot hD ⊢
  have hD' : (0 : Rat) < D := by exact_mod_cast hD
  have hpos : (0 : Rat) < 10 ^ shift := by positivity
  -- The quotient has its digits before the point.
  have hlowN : D * 10 ^ (precision - 1) ≤ N := by
    have hle : (10 : Rat) ^ x * 10 ^ shift ≤ N / D := by
      rw [hquot]
      gcongr
    rw [← zpow_add₀ (by norm_num), show x + shift = ((precision - 1 : Nat) : Int) by omega,
      zpow_natCast, le_div_iff₀ hD', mul_comm] at hle
    exact_mod_cast hle
  have hhighN : N < D * 10 ^ precision := by
    have hlt : (N : Rat) / D < 10 ^ (x + 1) * 10 ^ shift := by
      rw [hquot]
      gcongr
    rw [← zpow_add₀ (by norm_num), show x + 1 + shift = ((precision : Nat) : Int) by omega,
      zpow_natCast, div_lt_iff₀ hD', mul_comm] at hlt
    exact_mod_cast hlt
  have hle := le_roundHalfEven hD hlowN
  have hge := roundHalfEven_le hD hhighN
  obtain ⟨hnear₁, hnear₂⟩ := roundHalfEven_near N D hD
  dsimp only
  generalize roundHalfEven N D = digits at hle hge hnear₁ hnear₂ ⊢
  have hnear : 2 * |(digits : Rat) - N / D| ≤ 1 := by
    have h₁ : (2 : Rat) * N ≤ 2 * (D * digits) + D := by exact_mod_cast hnear₁
    have h₂ : (2 : Rat) * (D * digits) ≤ 2 * N + D := by exact_mod_cast hnear₂
    have hdist : (digits : Rat) - N / D = (D * digits - N) / D := by
      rw [sub_div, mul_div_cancel_left₀ _ hD'.ne']
    rw [hdist, abs_div, abs_of_pos hD', ← mul_div_assoc, div_le_one hD']
    rcases abs_cases ((D : Rat) * digits - N) with h | h <;> linarith
  have hclose : 2 * (10 ^ (precision - 1) : Nat) * |(digits : Rat) * 10 ^ (x + 1 - precision) - (n : Rat) / d| ≤
      (n : Rat) / d := by
    have hscale : (digits : Rat) * 10 ^ (x + 1 - precision) - n / d =
        (digits - N / D) * 10 ^ (x + 1 - precision) := by
      rw [hquot, sub_mul, mul_assoc, ← zpow_add₀ (by norm_num),
        show shift + (x + 1 - precision) = 0 by omega, zpow_zero, mul_one]
    have hunit : ((10 ^ (precision - 1) : Nat) : Rat) * 10 ^ (x + 1 - precision) = 10 ^ x := by
      push_cast
      rw [← zpow_natCast, ← zpow_add₀ (by norm_num)]
      congr 1
      omega
    have hposx : (0 : Rat) < 10 ^ x := by positivity
    rw [hscale, abs_mul, abs_of_pos (by positivity : (0 : Rat) < 10 ^ (x + 1 - precision))]
    calc 2 * ((10 ^ (precision - 1) : Nat) : Rat) * (|(digits : Rat) - N / D| * 10 ^ (x + 1 - precision))
        = 2 * |(digits : Rat) - N / D| * (((10 ^ (precision - 1) : Nat) : Rat) * 10 ^ (x + 1 - precision)) := by ring
      _ = 2 * |(digits : Rat) - N / D| * 10 ^ x := by rw [hunit]
      _ ≤ 1 * 10 ^ x := by gcongr
      _ ≤ n / d := by rw [one_mul]; exact hlow
  by_cases hcarry : digits = 10 ^ precision
  · rw [if_pos hcarry]
    refine ⟨⟨le_rfl, Nat.pow_lt_pow_right (by decide) (by omega)⟩, ?_⟩
    have hsame : ((10 ^ (precision - 1) : Nat) : Rat) * 10 ^ (x + 1 + 1 - precision) =
        (digits : Rat) * 10 ^ (x + 1 - precision) := by
      rw [hcarry]
      push_cast
      rw [← zpow_natCast, ← zpow_natCast, ← zpow_add₀ (by norm_num), ← zpow_add₀ (by norm_num)]
      congr 1
      omega
    dsimp only
    rw [hsame]
    exact hclose
  · rw [if_neg hcarry]
    exact ⟨⟨hle, lt_of_le_of_ne hge hcarry⟩, hclose⟩

/-! ## What a literal stands for -/

/-- Without the zeros at its end, a number is written with these digits. -/
theorem stripped_digits {n : Nat} (hn : 0 < n) :
    ∃ k, Nat.toDigits 10 n = (Nat.toDigits 10 n).rdropWhile (· = '0') ++ List.replicate k '0' ∧
      (Nat.toDigits 10 n).rdropWhile (· = '0') ≠ [] ∧
      Digits ((Nat.toDigits 10 n).rdropWhile (· = '0')) := by
  have hsplit := List.rdropWhile_append_rtakeWhile (p := fun c => decide (c = '0')) (l := Nat.toDigits 10 n)
  have hzeros : (Nat.toDigits 10 n).rtakeWhile (· = '0') =
      List.replicate ((Nat.toDigits 10 n).rtakeWhile (· = '0')).length '0' := by
    rw [List.eq_replicate_iff]
    exact ⟨rfl, fun c hc => by simpa using List.mem_rtakeWhile_imp hc⟩
  rw [hzeros] at hsplit
  refine ⟨_, hsplit.symm, ?_, ?_⟩
  · intro hnil
    rw [hnil, List.nil_append] at hsplit
    have hvalue := Nat.ofDigitChars_ten_toDigits (n := n)
    rw [← hsplit, Nat.ofDigitChars_replicate_zero] at hvalue
    omega
  · intro c hc
    have hmem := (List.rdropWhile_prefix _ _).subset hc
    exact Nat.isDigit_of_mem_toDigits (by decide) (by decide) hmem

theorem not_mem_sign (negative : Bool) {c : Char} (hc : c ≠ '-') : c ∉ sign negative := by
  cases negative <;> simp [sign, hc]

/-- A text with a point or an exponent in it stays as it is. -/
theorem normalize_marked {s : Text} {c : Char} (hc : c = 'e' ∨ c = '.') (hs : c ∈ s) :
    normalizeFloatLiteral s = s := by
  rw [normalizeFloatLiteral, if_neg]
  rintro ⟨he, -, hpoint⟩
  rcases hc with rfl | rfl
  · exact he hs
  · exact hpoint hs

theorem normalize_plain (negative : Bool) {whole : Text} (h : Digits whole) :
    normalizeFloatLiteral (sign negative ++ whole) = sign negative ++ (whole ++ '.' :: ['0']) := by
  have hnot : ∀ c : Char, c ≠ '-' → c.isDigit = false → c ∉ sign negative ++ whole := by
    intro c hne hdigit hmem
    exact (List.mem_append.mp hmem).elim (not_mem_sign negative hne) (not_mem_digits h hdigit)
  rw [normalizeFloatLiteral, if_pos ⟨hnot 'e' (by decide) (by decide), hnot 'E' (by decide) (by decide),
    hnot '.' (by decide) (by decide)⟩, List.append_assoc]
  rfl

theorem ten_pow_add (a b : Int) : (10 : Rat) ^ (a + b) = 10 ^ a * 10 ^ b := zpow_add₀ (by norm_num) a b

theorem length_toDigits {precision digits : Nat} (hprecision : 0 < precision)
    (h : 10 ^ (precision - 1) ≤ digits ∧ digits < 10 ^ precision) :
    (Nat.toDigits 10 digits).length = precision := by
  have hle := (Nat.length_toDigits_le_iff (by decide) hprecision).mpr h.2
  by_cases hone : precision = 1
  · have := Nat.length_toDigits_pos (b := 10) (n := digits)
    omega
  · have hnot := mt (Nat.length_toDigits_le_iff (by decide) (by omega : 0 < precision - 1)).mp
      (not_lt.mpr h.1)
    omega

/-- A literal stands for the digits of its constant, rounded to the precision. -/
theorem readDecimal_formatG (precision : Nat) (hprecision : 0 < precision) (val : FiniteFloat)
    (hval : 0 < val.mantissa) {suffix : Text} (hsuffix : Suffix suffix) :
    let r := roundDigits precision (val.mantissa * 2 ^ val.exponent.toNat) (2 ^ (-val.exponent).toNat)
    readDecimal (normalizeFloatLiteral (formatG precision val) ++ suffix) =
      some ⟨val.negative, (r.1 : Rat) * 10 ^ (r.2 + 1 - precision), suffix = ['f']⟩ := by
  have hrounded := (roundDigits_spec hprecision (n := val.mantissa * 2 ^ val.exponent.toNat)
    (d := 2 ^ (-val.exponent).toNat) (by positivity) (by positivity)).1
  rw [formatG, if_neg hval.ne']
  dsimp only at hrounded ⊢
  generalize roundDigits precision _ _ = r at hrounded ⊢
  obtain ⟨digits, x⟩ := r
  dsimp only at hrounded ⊢
  have hpositive : 0 < digits := lt_of_lt_of_le (by positivity) hrounded.1
  obtain ⟨k, hsplit, hne, hdigits⟩ := stripped_digits hpositive
  generalize (Nat.toDigits 10 digits).rdropWhile (· = '0') = ds at hsplit hne hdigits ⊢
  -- The digits that are written, and the weight of the last one.
  have hlength : ds.length + k = precision := by
    have := length_toDigits hprecision hrounded
    rw [hsplit, List.length_append, List.length_replicate] at this
    exact this
  have hvalue : (digits : Rat) * 10 ^ (x + 1 - precision) =
      (Nat.ofDigitChars 10 ds 0 : Rat) * 10 ^ (x + 1 - ds.length) := by
    have hnumber := Nat.ofDigitChars_ten_toDigits (n := digits)
    rw [hsplit, Nat.ofDigitChars_append, Nat.ofDigitChars_replicate_zero] at hnumber
    have hexp : x + 1 - (ds.length : Int) = k + (x + 1 - precision) := by omega
    rw [hexp, ten_pow_add, zpow_natCast, ← hnumber]
    push_cast
    ring
  rw [hvalue]
  change readDecimal (normalizeFloatLiteral (if x < -4 ∨ (precision : Int) ≤ x then
      sign val.negative ++ pointed (ds.take 1) (ds.drop 1) ++ 'e' :: (if x < 0 then '-' else '+') ::
        (List.replicate (2 - (Nat.toDigits 10 x.natAbs).length) '0' ++ Nat.toDigits 10 x.natAbs)
    else if x < 0 then sign val.negative ++ pointed ['0'] (List.replicate (x.natAbs - 1) '0' ++ ds)
    else sign val.negative ++
      pointed (ds.take (x.toNat + 1) ++ List.replicate (x.toNat + 1 - ds.length) '0')
        (ds.drop (x.toNat + 1))) ++ suffix) = _
  by_cases hexponent : x < -4 ∨ (precision : Int) ≤ x
  · -- The first digit, a point and the others, and the exponent.
    rw [if_pos hexponent, normalize_marked (.inl rfl) (by simp)]
    have hexpDigits := (digits_replicate (2 - (Nat.toDigits 10 x.natAbs).length)).append
      (digits_toDigits x.natAbs)
    have hread := readDecimal_exponent val.negative (decide (x < 0)) (hdigits.take 1) (by simpa using hne)
      (hdigits.drop 1) hexpDigits (by simp) hsuffix
    have hnumber : Nat.ofDigitChars 10 (List.replicate (2 - (Nat.toDigits 10 x.natAbs).length) '0' ++
        Nat.toDigits 10 x.natAbs) 0 = x.natAbs := by
      rw [Nat.ofDigitChars_append, Nat.ofDigitChars_replicate_zero, Nat.mul_zero,
        Nat.ofDigitChars_ten_toDigits]
    simp only [decide_eq_true_eq, hnumber, List.take_append_drop, List.length_drop] at hread
    rw [List.append_assoc, List.append_assoc, List.cons_append, List.cons_append, hread]
    have hpos := List.length_pos_iff.mpr hne
    congr 4
    split_ifs <;> omega
  · rw [if_neg hexponent]
    by_cases hneg : x < 0
    · -- Zeros behind the point.
      have hfrac := (digits_replicate (x.natAbs - 1)).append hdigits
      have hpointed : pointed ['0'] (List.replicate (x.natAbs - 1) '0' ++ ds) =
          ['0'] ++ '.' :: (List.replicate (x.natAbs - 1) '0' ++ ds) := if_neg (by simp [hne])
      have hread := readDecimal_pointed val.negative (digits_replicate 1) (by simp) hfrac hsuffix
      have hnumber : Nat.ofDigitChars 10 (List.replicate 1 '0' ++ (List.replicate (x.natAbs - 1) '0' ++ ds)) 0 =
          Nat.ofDigitChars 10 ds 0 := by
        rw [← List.append_assoc, ← List.replicate_add, Nat.ofDigitChars_append,
          Nat.ofDigitChars_replicate_zero, Nat.mul_zero]
      rw [hnumber] at hread
      rw [if_pos hneg, hpointed, normalize_marked (.inr rfl) (by simp), List.append_assoc,
        List.append_assoc, List.cons_append]
      refine hread.trans ?_
      rw [List.length_append, List.length_replicate]
      congr 4
      omega
    · -- The point among the digits, or behind them.
      rw [if_neg hneg]
      by_cases hfrac : ds.drop (x.toNat + 1) = []
      · have hle := List.drop_eq_nil_iff.mp hfrac
        have hwhole := hdigits.append (digits_replicate (x.toNat + 1 - ds.length))
        have hread := readDecimal_pointed val.negative hwhole (by simp [hne]) (digits_replicate 1) hsuffix
        rw [hfrac, pointed, if_pos rfl, List.take_of_length_le hle, normalize_plain _ hwhole,
          List.append_assoc, List.append_assoc, List.cons_append]
        refine hread.trans ?_
        have hnumber : Nat.ofDigitChars 10 (ds ++ List.replicate (x.toNat + 1 - ds.length) '0' ++
            List.replicate 1 '0') 0 = 10 ^ (x.toNat + 1 - ds.length + 1) * Nat.ofDigitChars 10 ds 0 := by
          rw [Nat.ofDigitChars_append, Nat.ofDigitChars_append, Nat.ofDigitChars_replicate_zero,
            Nat.ofDigitChars_replicate_zero, Nat.pow_succ']
          ring
        have hexp : x + 1 - (ds.length : Int) = ((x.toNat + 1 - ds.length + 1 : Nat) : Int) + (-1) := by
          omega
        rw [hnumber, hexp, ten_pow_add, zpow_natCast, List.length_replicate]
        push_cast
        congr 2
        ring
      · have hlt := not_le.mp (mt List.drop_eq_nil_iff.mpr hfrac)
        have hread := readDecimal_pointed val.negative (hdigits.take (x.toNat + 1)) (by simp [hne])
          (hdigits.drop (x.toNat + 1)) hsuffix
        have hzeros : x.toNat + 1 - ds.length = 0 := by omega
        rw [hzeros, List.replicate_zero, List.append_nil, pointed, if_neg hfrac,
          normalize_marked (.inr rfl) (by simp), List.append_assoc, List.append_assoc, List.cons_append]
        refine hread.trans ?_
        rw [List.take_append_drop, List.length_drop]
        congr 4
        omega

/-! ## The nearest constant -/

def FiniteFloat.magnitude (val : FiniteFloat) : Rat := val.mantissa * 2 ^ val.exponent

/-- The least exponent of a format. -/
def FloatFormat.least (f : FloatFormat) : Int := 1 - (2 ^ (f.expBits - 1) - 1) - f.fracBits

theorem unpack_some {f : FloatFormat} {bits : Nat} {val : FiniteFloat} (h : f.unpack bits = some val) :
    val.negative = decide (bits / 2 ^ (f.fracBits + f.expBits) = 1) ∧
    (bits / 2 ^ f.fracBits % 2 ^ f.expBits = 0 ∧ val.mantissa = bits % 2 ^ f.fracBits ∧
        val.exponent = f.least ∨
      0 < bits / 2 ^ f.fracBits % 2 ^ f.expBits ∧
        val.mantissa = 2 ^ f.fracBits + bits % 2 ^ f.fracBits ∧
        val.exponent = f.least + (bits / 2 ^ f.fracBits % 2 ^ f.expBits : Nat) - 1) := by
  rw [FloatFormat.unpack] at h
  split_ifs at h with hfinite hzero
  · obtain rfl := Option.some.inj h
    exact ⟨rfl, .inl ⟨hzero, rfl, rfl⟩⟩
  · obtain rfl := Option.some.inj h
    refine ⟨rfl, .inr ⟨Nat.pos_of_ne_zero hzero, rfl, ?_⟩⟩
    rw [FloatFormat.least]
    dsimp only
    omega

theorem unpack_binary {f : FloatFormat} {bits : Nat} {val : FiniteFloat} (h : f.unpack bits = some val) :
    Binary (f.fracBits + 1) f.least val.mantissa val.exponent := by
  have hfrac := Nat.mod_lt bits (by positivity : 0 < 2 ^ f.fracBits)
  have hpow : 2 ^ (f.fracBits + 1) = 2 ^ f.fracBits + 2 ^ f.fracBits := by ring
  obtain ⟨-, ⟨-, hmantissa, hexponent⟩ | ⟨hexp, hmantissa, hexponent⟩⟩ := unpack_some h
  · exact ⟨by omega, hexponent.ge, .inr hexponent⟩
  · refine ⟨by omega, by omega, .inl ?_⟩
    rw [hmantissa, Nat.add_sub_cancel]
    omega

/-- The sign, the mantissa and the exponent are all there is to a constant. -/
theorem unpack_inj {f : FloatFormat} {bits bits' : Nat} {val val' : FiniteFloat}
    (h : f.unpack bits = some val) (h' : f.unpack bits' = some val')
    (hbits : bits < 2 ^ (f.fracBits + f.expBits + 1)) (hbits' : bits' < 2 ^ (f.fracBits + f.expBits + 1))
    (hnegative : val.negative = val'.negative) (hmantissa : val.mantissa = val'.mantissa)
    (hexponent : val.exponent = val'.exponent) : bits = bits' := by
  obtain ⟨hsign, hcase⟩ := unpack_some h
  obtain ⟨hsign', hcase'⟩ := unpack_some h'
  have hfrac := Nat.mod_lt bits (by positivity : 0 < 2 ^ f.fracBits)
  have hfrac' := Nat.mod_lt bits' (by positivity : 0 < 2 ^ f.fracBits)
  have hfields : bits % 2 ^ f.fracBits = bits' % 2 ^ f.fracBits ∧
      bits / 2 ^ f.fracBits % 2 ^ f.expBits = bits' / 2 ^ f.fracBits % 2 ^ f.expBits := by
    rcases hcase with ⟨hexp, hm, he⟩ | ⟨hexp, hm, he⟩ <;>
      rcases hcase' with ⟨hexp', hm', he'⟩ | ⟨hexp', hm', he'⟩ <;> omega
  have hsigns : bits / 2 ^ (f.fracBits + f.expBits) = bits' / 2 ^ (f.fracBits + f.expBits) := by
    have hlt : ∀ b : Nat, b < 2 ^ (f.fracBits + f.expBits + 1) → b / 2 ^ (f.fracBits + f.expBits) < 2 := by
      intro b hb
      rw [Nat.div_lt_iff_lt_mul (by positivity), Nat.mul_comm, ← Nat.pow_succ]
      exact hb
    have hone : bits / 2 ^ (f.fracBits + f.expBits) = 1 ↔ bits' / 2 ^ (f.fracBits + f.expBits) = 1 := by
      rw [← decide_eq_decide, ← hsign, ← hsign', hnegative]
    have hlt₁ := hlt bits hbits
    have hlt₂ := hlt bits' hbits'
    generalize bits / 2 ^ (f.fracBits + f.expBits) = i at hone hlt₁ ⊢
    generalize bits' / 2 ^ (f.fracBits + f.expBits) = j at hone hlt₂ ⊢
    omega
  have hjoin : ∀ b : Nat, b = 2 ^ f.fracBits * (2 ^ f.expBits * (b / 2 ^ (f.fracBits + f.expBits)) +
      b / 2 ^ f.fracBits % 2 ^ f.expBits) + b % 2 ^ f.fracBits := by
    intro b
    rw [Nat.pow_add, ← Nat.div_div_eq_div_mul, Nat.div_add_mod, Nat.div_add_mod]
  rw [hjoin bits, hjoin bits', hsigns, hfields.1, hfields.2]

/-- Of all constants of a format and a sign, this one is the nearest to a number. -/
def FloatFormat.Nearest (f : FloatFormat) (bits : Nat) (c : FloatingConstant) : Prop :=
  ∃ val, f.unpack bits = some val ∧ val.negative = c.negative ∧
    ∀ bits' val', bits' < 2 ^ (f.fracBits + f.expBits + 1) → f.unpack bits' = some val' →
      val'.negative = c.negative → bits' ≠ bits →
        |c.magnitude - val.magnitude| < |c.magnitude - val'.magnitude|

theorem magnitude_eq (val : FiniteFloat) : val.magnitude =
    ((val.mantissa * 2 ^ val.exponent.toNat : Nat) : Rat) / (2 ^ (-val.exponent).toNat : Nat) := by
  have htwo : (2 : Rat) ^ val.exponent = 2 ^ val.exponent.toNat / 2 ^ (-val.exponent).toNat := by
    rw [← zpow_natCast, ← zpow_natCast, ← zpow_sub₀ (by norm_num)]
    congr 1
    omega
  rw [FiniteFloat.magnitude, htwo]
  push_cast
  rw [mul_div_assoc]

/-- Constants of one sign that differ have different magnitudes. -/
theorem magnitude_ne {f : FloatFormat} {bits bits' : Nat} {val val' : FiniteFloat}
    (h : f.unpack bits = some val) (h' : f.unpack bits' = some val')
    (hbits : bits < 2 ^ (f.fracBits + f.expBits + 1)) (hbits' : bits' < 2 ^ (f.fracBits + f.expBits + 1))
    (hnegative : val.negative = val'.negative) (hne : bits' ≠ bits) : val.magnitude ≠ val'.magnitude := by
  intro heq
  obtain ⟨hmantissa, hexponent⟩ := (unpack_binary h).eq (Nat.succ_pos _) (unpack_binary h') heq
  exact hne (unpack_inj h h' hbits hbits' hnegative hmantissa hexponent).symm

/-- With enough digits, the literal of a constant is nearest to it. -/
theorem formatG_nearest {f : FloatFormat} {precision bits : Nat} {val : FiniteFloat}
    (hprecision : 0 < precision) (henough : 2 ^ (f.fracBits + 1) < 10 ^ (precision - 1))
    (hbits : bits < 2 ^ (f.fracBits + f.expBits + 1)) (h : f.unpack bits = some val) {suffix : Text}
    (hsuffix : Suffix suffix) :
    ∃ c, readDecimal (normalizeFloatLiteral (formatG precision val) ++ suffix) = some c ∧
      c.single = decide (suffix = ['f']) ∧ f.Nearest bits c := by
  by_cases hzero : val.mantissa = 0
  · refine ⟨⟨val.negative, 0, suffix = ['f']⟩, ?_, rfl, val, h, rfl, ?_⟩
    · have hread := readDecimal_pointed val.negative (digits_replicate 1) (by simp) (digits_replicate 1)
        hsuffix
      rw [formatG, if_pos hzero]
      change readDecimal (normalizeFloatLiteral (sign val.negative ++ List.replicate 1 '0') ++ suffix) = _
      rw [normalize_plain _ (digits_replicate 1), List.append_assoc, List.append_assoc]
      refine hread.trans ?_
      rw [← List.replicate_add, Nat.ofDigitChars_replicate_zero]
      simp
    · intro bits' val' hbits' h' hnegative hne
      have hne := magnitude_ne h h' hbits hbits' hnegative.symm hne
      have hval : val.magnitude = 0 := by rw [FiniteFloat.magnitude, hzero, Nat.cast_zero, zero_mul]
      rw [hval] at hne ⊢
      rw [sub_zero, abs_zero, abs_pos, zero_sub, neg_ne_zero]
      exact hne.symm
  · have hpos := Nat.pos_of_ne_zero hzero
    refine ⟨_, readDecimal_formatG precision hprecision val hpos hsuffix, rfl, val, h, rfl, ?_⟩
    intro bits' val' hbits' h' hnegative hne
    have hclose := (roundDigits_spec hprecision (n := val.mantissa * 2 ^ val.exponent.toNat)
      (d := 2 ^ (-val.exponent).toNat) (by positivity) (by positivity)).2
    rw [← magnitude_eq] at hclose
    have hmagnitude : 0 < val.magnitude := by
      have : (0 : Rat) < val.mantissa := by exact_mod_cast hpos
      rw [FiniteFloat.magnitude]
      positivity
    have hfar := spacing (Nat.succ_pos _) (unpack_binary h) (unpack_binary h')
      (magnitude_ne h h' hbits hbits' hnegative.symm hne)
    exact nearer henough hmagnitude hfar hclose

/-! ## The helper -/

def Sdata2Entry.format (entry : Sdata2Entry) : FloatFormat := if entry.size = 4 then f32 else f64

/-- A literal that has the entry's type and stands for it. -/
def Sdata2Entry.ReadAs (entry : Sdata2Entry) (literal : Text) : Prop :=
  ∃ c, readDecimal literal = some c ∧ c.single = decide (entry.size = 4) ∧
    entry.format.Nearest (fromBytes entry.data) c

theorem fromBytes_lt (data : Bytes) : fromBytes data < 256 ^ data.length := by
  have hfold : ∀ (data : Bytes) (n k : Nat), n < 256 ^ k →
      data.foldl (fun bits byte => bits * 256 + byte.toNat) n < 256 ^ (k + data.length) := by
    intro data
    induction data with
    | nil => exact fun _ _ h => h
    | cons byte data ih =>
      intro n k h
      have hbyte := byte.toNat_lt
      rw [List.foldl_cons, List.length_cons, Nat.add_comm data.length, ← Nat.add_assoc]
      apply ih
      rw [Nat.pow_succ]
      omega
  have hlt := hfold data 0 0 (by decide)
  rw [Nat.zero_add] at hlt
  exact hlt

/-- The literal of a negative zero is what `format` would have given. -/
theorem entryLiteral_cases {entry : Sdata2Entry} (hsize : entry.size = 4 ∨ entry.size = 8) {literal : Text}
    (h : entryLiteral entry = .ok literal) : ∃ val, entry.format.unpack (fromBytes entry.data) = some val ∧
      literal = if entry.size = 4 then normalizeFloatLiteral (formatG 9 val) ++ ['f']
        else normalizeFloatLiteral (formatG 17 val) ++ [] := by
  rw [Sdata2Entry.format]
  rcases hsize with hsize | hsize
  · rw [entryLiteral, if_pos hsize] at h
    simp only [if_pos hsize]
    by_cases hzero : fromBytes entry.data = 0x80000000
    · rw [hzero, if_pos rfl] at h
      refine ⟨⟨true, 0, -149⟩, by rw [hzero]; rfl, ?_⟩
      rw [← Except.ok.inj h]
      rfl
    · rw [if_neg hzero] at h
      cases hunpack : f32.unpack (fromBytes entry.data) with
      | none =>
        rw [hunpack] at h
        cases h
      | some val =>
        rw [hunpack] at h
        exact ⟨val, rfl, (Except.ok.inj h).symm⟩
  · have hnot : entry.size ≠ 4 := by omega
    rw [entryLiteral, if_neg hnot, if_pos hsize] at h
    simp only [if_neg hnot]
    by_cases hzero : fromBytes entry.data = 0x8000000000000000
    · rw [hzero, if_pos rfl] at h
      refine ⟨⟨true, 0, -1074⟩, by rw [hzero]; rfl, ?_⟩
      rw [← Except.ok.inj h]
      rfl
    · rw [if_neg hzero] at h
      cases hunpack : f64.unpack (fromBytes entry.data) with
      | none =>
        rw [hunpack] at h
        cases h
      | some val =>
        rw [hunpack] at h
        refine ⟨val, rfl, ?_⟩
        rw [List.append_nil]
        exact (Except.ok.inj h).symm

theorem entryLiteral_readAs {entry : Sdata2Entry} (hsize : entry.size = 4 ∨ entry.size = 8) {literal : Text}
    (h : entryLiteral entry = .ok literal) : entry.ReadAs literal := by
  obtain ⟨val, hunpack, hliteral⟩ := entryLiteral_cases hsize h
  have hlt := fromBytes_lt entry.data
  rw [entry.filled] at hlt
  rw [Sdata2Entry.ReadAs]
  rw [Sdata2Entry.format] at hunpack ⊢
  rcases hsize with hsize | hsize
  · rw [if_pos hsize] at hunpack hliteral ⊢
    rw [hsize] at hlt ⊢
    obtain ⟨c, hread, hsingle, hnearest⟩ := formatG_nearest (show 0 < 9 by decide) (by decide) hlt
      hunpack (.inr rfl)
    exact ⟨c, hliteral ▸ hread, hsingle, hnearest⟩
  · have hnot : entry.size ≠ 4 := by omega
    rw [if_neg hnot] at hunpack hliteral ⊢
    rw [hsize] at hlt ⊢
    obtain ⟨c, hread, hsingle, hnearest⟩ := formatG_nearest (show 0 < 17 by decide) (by decide) hlt
      hunpack (.inl rfl)
    exact ⟨c, hliteral ▸ hread, hsingle, hnearest⟩

theorem bind_isOk {ε α β : Type} {f : α → Except ε β} (x : Except ε α) (h : ∀ a, (f a).isOk = true) :
    (x >>= f).isOk = x.isOk := by
  cases x with
  | error e => rfl
  | ok a => exact h a

theorem mapM_isOk {ε α β : Type} (f : α → Except ε β) (xs : List α) :
    (xs.mapM f).isOk = xs.all fun x => (f x).isOk := by
  induction xs with
  | nil => rfl
  | cons x xs ih =>
    rw [List.mapM_cons, List.all_cons, ← ih]
    cases f x with
    | error e => rfl
    | ok y =>
      change (xs.mapM f >>= fun ys => Except.ok (y :: ys)).isOk = _
      exact bind_isOk _ fun _ => rfl

/-- The lines of the helper. -/
def helperLines (name : Text) (literals : List Text) : List Text :=
  ("static void ".toList ++ name ++ "(void)".toList) :: ['\x7b'] ::
    literals.map (fun literal => "    (void) ".toList ++ literal ++ [';']) ++ [['\x7d']]

def renderHelper (entries : List Sdata2Entry) (name : Text) : Except Text Text := do
  let literals ← entries.mapM entryLiteral
  return ['\n'].intercalate (helperLines name literals) ++ ['\n']

/-- There is a helper if every constant is finite, and it names them in order: each literal has
the type of its constant and stands for it. -/
theorem renderHelper_reads (s : Sdata2) (name : Text) :
    (renderHelper s.entries name).isOk = s.entries.all Sdata2Entry.isFinite ∧
    ∀ text, renderHelper s.entries name = .ok text → ∃ literals,
      text = ['\n'].intercalate (helperLines name literals) ++ ['\n'] ∧
      List.Forall₂ Sdata2Entry.ReadAs s.entries literals := by
  constructor
  · rw [renderHelper, bind_isOk _ (fun _ => rfl), mapM_isOk, Bool.eq_iff_iff, List.all_eq_true,
      List.all_eq_true]
    apply forall₂_congr
    intro entry hentry
    rw [entryLiteral_isOk (s.sizes entry hentry)]
  · intro text h
    obtain ⟨literals, hliterals, htext⟩ := bind_ok_iff.mp h
    refine ⟨literals, (pure_ok_iff.mp htext).symm, ?_⟩
    clear h htext
    rw [mapM_ok_iff] at hliterals
    have hsizes := s.sizes
    generalize s.entries = entries at hliterals hsizes ⊢
    induction hliterals with
    | nil => exact .nil
    | @cons entry literal entries literals hliteral _ ih =>
      rw [List.forall_mem_cons] at hsizes
      exact .cons (entryLiteral_readAs hsizes.1 hliteral) (ih hsizes.2)

theorem renderHelper_one :
    ((renderHelper (single [0x3f, 0x80, 0, 0] rfl).entries "sdata2_order".toList).isOk =
      (single [0x3f, 0x80, 0, 0] rfl).entries.all Sdata2Entry.isFinite) ∧
    ∃ text, renderHelper (single [0x3f, 0x80, 0, 0] rfl).entries "sdata2_order".toList = .ok text ∧
      ∃ literals, text = ['\n'].intercalate (helperLines "sdata2_order".toList literals) ++ ['\n'] ∧
        List.Forall₂ Sdata2Entry.ReadAs (single [0x3f, 0x80, 0, 0] rfl).entries literals := by
  have h := renderHelper_reads (single [0x3f, 0x80, 0, 0] rfl) "sdata2_order".toList
  refine ⟨h.1, ?_⟩
  have hok : (renderHelper (single [0x3f, 0x80, 0, 0] rfl).entries "sdata2_order".toList).isOk = true :=
    h.1.trans (by decide)
  cases hrender : renderHelper (single [0x3f, 0x80, 0, 0] rfl).entries "sdata2_order".toList with
  | error e =>
    rw [hrender] at hok
    cases hok
  | ok text => exact ⟨text, rfl, h.2 text hrender⟩

end MeleeHarness.Sdata2Order
