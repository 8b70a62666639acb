import Mathlib.Data.Char
import Mathlib.Data.List.Lex
import Mathlib.Data.Nat.Log
import Mathlib.Data.Prod.Lex
import MeleeHarness.Lib.Bytes
import MeleeHarness.Lib.Text

/-!
# Explaining a comparison of .sdata2 sections

`sdata2_matches` compares two sections by their constants, the bytes up to the last one and the
number of these bytes; `first_mismatch` names the first difference, a constant by its literal.

* `sdata2Entries`: the entries of a section are sorted and lie in its data;
* `entryLiteral_isOk`: a constant has a literal when it is finite;
* `firstMismatch_explains_iff`: when a failed comparison is explained.
-/

namespace MeleeHarness.Sdata2Order

open Lib

/-! ## Entries -/

structure Symbol where
  offset : Int
  size : Int
  typ : Text
  bind : Text
  ndx : Text
  name : Text

structure Sdata2Entry where
  offset : Nat
  size : Nat
  data : Bytes
  name : Text
  filled : data.length = size

def isGapSymbol (sym : Symbol) : Bool :=
  "gap_".toList.isPrefixOf sym.name || sym.typ = "SECTION".toList

def literalSymbols (symbols : List Symbol) (sectionIdx : Int) (preferLocal : Bool) : List Symbol :=
  let base := symbols.filter fun sym =>
    sym.ndx = (toString sectionIdx).toList && sym.typ = "OBJECT".toList &&
      (sym.size = 4 || sym.size = 8) && !isGapSymbol sym
  if preferLocal then
    let localLiterals := base.filter fun sym =>
      sym.bind = "LOCAL".toList && sym.name.head? = some '@'
    if localLiterals = [] then base else localLiterals
  else base

/-- `(s.offset, s.size, s.name)`, as tuples compare -/
def Symbol.key (sym : Symbol) : Int ×ₗ Int ×ₗ Text := toLex (sym.offset, toLex (sym.size, sym.name))

/-- The loop of `sdata2_entries` over the sorted symbols. -/
def entriesFrom (data : Bytes) : List (Int × Int) → List Symbol → List Sdata2Entry
  | _, [] => []
  | seen, sym :: syms =>
    if (sym.offset, sym.size) ∈ seen then entriesFrom data seen syms
    else
      let seen := (sym.offset, sym.size) :: seen
      if h : sym.offset < 0 ∨ sym.offset + sym.size > data.length then entriesFrom data seen syms
      else
        { offset := sym.offset.toNat
          size := sym.size.toNat
          data := (data.drop sym.offset.toNat).take sym.size.toNat
          name := sym.name
          filled := by rw [List.length_take, List.length_drop]; omega } :: entriesFrom data seen syms

/-- Where the entries of a list stand in it. -/
def Sdata2Entry.Before (a b : Sdata2Entry) : Prop :=
  a.offset < b.offset ∨ a.offset = b.offset ∧ a.size < b.size

/-- What `sdata2_entries` returns: the data of a section and its entries. -/
structure Sdata2 where
  data : Bytes
  entries : List Sdata2Entry
  sizes : ∀ entry ∈ entries, entry.size = 4 ∨ entry.size = 8
  within : ∀ entry ∈ entries, entry.offset + entry.size ≤ data.length ∧
    entry.data = (data.drop entry.offset).take entry.size
  sorted : entries.Pairwise Sdata2Entry.Before

theorem noEntries_sizes : ∀ entry ∈ ([] : List Sdata2Entry), entry.size = 4 ∨ entry.size = 8 :=
  List.forall_mem_nil _

theorem noEntries_within : ∀ entry ∈ ([] : List Sdata2Entry),
    entry.offset + entry.size ≤ ([] : Bytes).length ∧
      entry.data = (([] : Bytes).drop entry.offset).take entry.size := List.forall_mem_nil _

def noSection : Sdata2 := ⟨[], [], noEntries_sizes, noEntries_within, List.Pairwise.nil⟩

theorem mem_entriesFrom {data : Bytes} {seen : List (Int × Int)} {syms : List Symbol}
    {entry : Sdata2Entry} (h : entry ∈ entriesFrom data seen syms) :
    ∃ sym ∈ syms, (sym.offset, sym.size) ∉ seen ∧ 0 ≤ sym.offset ∧
      sym.offset + sym.size ≤ data.length ∧ entry.offset = sym.offset.toNat ∧
      entry.size = sym.size.toNat ∧ entry.data = (data.drop sym.offset.toNat).take sym.size.toNat := by
  induction syms generalizing seen with
  | nil => simp [entriesFrom] at h
  | cons sym syms ih =>
    -- an entry of a later symbol, which is not in the longer list of keys either
    have later {seen' : List (Int × Int)} (hsub : seen ⊆ seen') (h : entry ∈ entriesFrom data seen' syms) :
        ∃ sym' ∈ sym :: syms, (sym'.offset, sym'.size) ∉ seen ∧ 0 ≤ sym'.offset ∧
          sym'.offset + sym'.size ≤ data.length ∧ entry.offset = sym'.offset.toNat ∧
          entry.size = sym'.size.toNat ∧
          entry.data = (data.drop sym'.offset.toNat).take sym'.size.toNat := by
      obtain ⟨sym', hmem, hseen, hrest⟩ := ih h
      exact ⟨sym', List.mem_cons_of_mem _ hmem, fun hin => hseen (hsub hin), hrest⟩
    rw [entriesFrom] at h
    split at h
    · exact later (List.Subset.refl _) h
    · rename_i hseen
      split at h
      · exact later (List.subset_cons_self _ _) h
      · rename_i hbound
        rcases List.mem_cons.mp h with rfl | h
        · exact ⟨sym, List.mem_cons_self, hseen, by omega, by omega, rfl, rfl, rfl⟩
        · exact later (List.subset_cons_self _ _) h

theorem entriesFrom_sorted {data : Bytes} {seen : List (Int × Int)} {syms : List Symbol}
    (hsizes : ∀ sym ∈ syms, 0 ≤ sym.size) (h : syms.Pairwise fun a b => a.key ≤ b.key) :
    (entriesFrom data seen syms).Pairwise Sdata2Entry.Before := by
  induction syms generalizing seen with
  | nil => exact List.Pairwise.nil
  | cons sym syms ih =>
    rw [List.pairwise_cons] at h
    have hrest := List.forall_mem_cons.mp hsizes
    rw [entriesFrom]
    split
    · exact ih hrest.2 h.2
    · split
      · exact ih hrest.2 h.2
      · refine List.Pairwise.cons ?_ (ih hrest.2 h.2)
        intro entry hentry
        obtain ⟨sym', hmem, hseen, hpos, -, hoff, hsize, -⟩ := mem_entriesFrom hentry
        have hle := h.1 sym' hmem
        have hne : ¬ (sym'.offset = sym.offset ∧ sym'.size = sym.size) := fun heq =>
          hseen (by rw [heq.1, heq.2]; exact List.mem_cons_self)
        have hsize' := hrest.2 sym' hmem
        have hsize0 := hrest.1
        simp only [Symbol.key, Prod.Lex.toLex_le_toLex] at hle
        rw [Sdata2Entry.Before, hoff, hsize]
        dsimp only
        omega

theorem literalSymbols_size {symbols : List Symbol} {sectionIdx : Int} {preferLocal : Bool}
    {sym : Symbol} (h : sym ∈ literalSymbols symbols sectionIdx preferLocal) :
    sym.size = 4 ∨ sym.size = 8 := by
  have hbase {sym : Symbol} (h : sym ∈ symbols.filter fun sym =>
      sym.ndx = (toString sectionIdx).toList && sym.typ = "OBJECT".toList &&
        (sym.size = 4 || sym.size = 8) && !isGapSymbol sym) : sym.size = 4 ∨ sym.size = 8 := by
    simp only [List.mem_filter, Bool.and_eq_true, Bool.or_eq_true, decide_eq_true_eq] at h
    exact h.2.1.2
  unfold literalSymbols at h
  dsimp only at h
  split at h
  · split at h
    · exact hbase h
    · exact hbase (List.mem_filter.mp h).1
  · exact hbase h

theorem entriesFrom_sizes {data : Bytes} {seen : List (Int × Int)} {syms : List Symbol}
    (hsizes : ∀ sym ∈ syms, sym.size = 4 ∨ sym.size = 8) :
    ∀ entry ∈ entriesFrom data seen syms, entry.size = 4 ∨ entry.size = 8 := by
  intro entry h
  obtain ⟨sym, hmem, -, -, -, -, hsize, -⟩ := mem_entriesFrom h
  have hsym := hsizes sym hmem
  omega

theorem entriesFrom_within {data : Bytes} {seen : List (Int × Int)} {syms : List Symbol}
    (hsizes : ∀ sym ∈ syms, sym.size = 4 ∨ sym.size = 8) :
    ∀ entry ∈ entriesFrom data seen syms, entry.offset + entry.size ≤ data.length ∧
      entry.data = (data.drop entry.offset).take entry.size := by
  intro entry h
  obtain ⟨sym, hmem, -, hpos, hbound, hoff, hsize, hdata⟩ := mem_entriesFrom h
  have hsym := hsizes sym hmem
  rw [hdata, hoff, hsize]
  exact ⟨by omega, rfl⟩

theorem mergeSort_key (syms : List Symbol) :
    (syms.mergeSort fun a b => a.key ≤ b.key).Pairwise fun a b => a.key ≤ b.key := by
  have hsorted := @List.pairwise_mergeSort _ (fun a b : Symbol => decide (a.key ≤ b.key))
    (fun a b c hab hbc => by
      rw [decide_eq_true_eq] at hab hbc ⊢
      exact hab.trans hbc)
    (fun a b => by simpa using le_total a.key b.key) syms
  exact hsorted.imp of_decide_eq_true

theorem sizes_nonneg {syms : List Symbol} (hsizes : ∀ sym ∈ syms, sym.size = 4 ∨ sym.size = 8) :
    ∀ sym ∈ syms, 0 ≤ sym.size := by
  intro sym h
  have hsym := hsizes sym h
  omega

def sdata2Entries (symbols : List Symbol) (sectionIdx : Option Int) (sectionData : Bytes)
    (preferLocal : Bool) : Sdata2 :=
  match sectionIdx with
  | none => noSection
  | some sectionIdx =>
    let syms := (literalSymbols symbols sectionIdx preferLocal).mergeSort fun a b => a.key ≤ b.key
    have hsizes : ∀ sym ∈ syms, sym.size = 4 ∨ sym.size = 8 := fun _ h =>
      literalSymbols_size (List.mem_mergeSort.mp h)
    { data := sectionData
      entries := entriesFrom sectionData [] syms
      sizes := entriesFrom_sizes hsizes
      within := entriesFrom_within hsizes
      sorted := entriesFrom_sorted (sizes_nonneg hsizes) (mergeSort_key _) }

/-! ## Literals -/

/-- The widths of a binary floating point format. -/
structure FloatFormat where
  expBits : Nat
  fracBits : Nat

def f32 : FloatFormat := ⟨8, 23⟩

def f64 : FloatFormat := ⟨11, 52⟩

/-- `± mantissa * 2 ^ exponent` -/
structure FiniteFloat where
  negative : Bool
  mantissa : Nat
  exponent : Int

/-- The exponent of infinities and of values that are no numbers is all ones. -/
def FloatFormat.isFinite (f : FloatFormat) (bits : Nat) : Bool :=
  bits / 2 ^ f.fracBits % 2 ^ f.expBits + 1 ≠ 2 ^ f.expBits

/-- `struct.unpack` of one value, where it is finite. -/
def FloatFormat.unpack (f : FloatFormat) (bits : Nat) : Option FiniteFloat :=
  let frac := bits % 2 ^ f.fracBits
  let exp := bits / 2 ^ f.fracBits % 2 ^ f.expBits
  let negative := bits / 2 ^ (f.fracBits + f.expBits) = 1
  let bias : Int := 2 ^ (f.expBits - 1) - 1
  if !f.isFinite bits then none
  else if exp = 0 then some ⟨negative, frac, 1 - bias - f.fracBits⟩
  else some ⟨negative, 2 ^ f.fracBits + frac, exp - bias - f.fracBits⟩

/-- `n / d` to the nearest number, to the even one of two. -/
def roundHalfEven (n d : Nat) : Nat :=
  let q := n / d
  let r := n % d
  if 2 * r < d ∨ 2 * r = d ∧ q % 2 = 0 then q else q + 1

/-- `x` with `10 ^ x ≤ n / d < 10 ^ (x + 1)` -/
def decimalExponent (n d : Nat) : Int :=
  if d ≤ n then Nat.log 10 (n / d) else -Nat.clog 10 ((d + n - 1) / n)

/-- The first digits of `n / d` and the exponent of the first one. -/
def roundDigits (precision n d : Nat) : Nat × Int :=
  let x := decimalExponent n d
  let shift := precision - 1 - x
  let digits := roundHalfEven (n * 10 ^ shift.toNat) (d * 10 ^ (-shift).toNat)
  if digits = 10 ^ precision then (10 ^ (precision - 1), x + 1) else (digits, x)

/-- `format(val, ".<precision>g")` -/
def formatG (precision : Nat) (val : FiniteFloat) : Text :=
  let sign : Text := if val.negative then ['-'] else []
  let pointed (whole frac : Text) : Text := if frac = [] then whole else whole ++ '.' :: frac
  if val.mantissa = 0 then sign ++ ['0']
  else
    let (digits, x) := roundDigits precision (val.mantissa * 2 ^ val.exponent.toNat)
      (2 ^ (-val.exponent).toNat)
    let digits := (Nat.toDigits 10 digits).rdropWhile (· = '0')
    if x < -4 ∨ precision ≤ x then
      let exponent := Nat.toDigits 10 x.natAbs
      sign ++ pointed (digits.take 1) (digits.drop 1) ++ 'e' :: (if x < 0 then '-' else '+') ::
        (List.replicate (2 - exponent.length) '0' ++ exponent)
    else if x < 0 then sign ++ pointed ['0'] (List.replicate (x.natAbs - 1) '0' ++ digits)
    else
      let places := x.toNat + 1
      sign ++ pointed (digits.take places ++ List.replicate (places - digits.length) '0')
        (digits.drop places)

def normalizeFloatLiteral (s : Text) : Text :=
  if 'e' ∉ s ∧ 'E' ∉ s ∧ '.' ∉ s then s ++ ".0".toList else s

/-- `int.from_bytes(data, "big")` -/
def fromBytes (data : Bytes) : Nat := data.foldl (fun bits byte => bits * 256 + byte.toNat) 0

def entryLiteral (entry : Sdata2Entry) : Except Text Text :=
  let bits := fromBytes entry.data
  if entry.size = 4 then
    if bits = 0x80000000 then .ok "-0.0f".toList
    else match f32.unpack bits with
      | none => .error ("cannot emit non-finite f32 literal for ".toList ++ entry.name)
      | some val => .ok (normalizeFloatLiteral (formatG 9 val) ++ ['f'])
  else if entry.size = 8 then
    if bits = 0x8000000000000000 then .ok "-0.0".toList
    else match f64.unpack bits with
      | none => .error ("cannot emit non-finite f64 literal for ".toList ++ entry.name)
      | some val => .ok (normalizeFloatLiteral (formatG 17 val))
  else .error ("unsupported .sdata2 entry size ".toList ++ Nat.toDigits 10 entry.size)

def Sdata2Entry.cType (entry : Sdata2Entry) : Text :=
  if entry.size = 4 then "f32".toList else "f64".toList

def describeEntry (entry : Sdata2Entry) : Except Text Text := do
  return entry.cType ++ ' ' :: (← entryLiteral entry)

/-- The constant is finite in its format. -/
def Sdata2Entry.isFinite (entry : Sdata2Entry) : Bool :=
  (if entry.size = 4 then f32 else f64).isFinite (fromBytes entry.data)

theorem isSome_unpack (f : FloatFormat) (bits : Nat) : (f.unpack bits).isSome = f.isFinite bits := by
  unfold FloatFormat.unpack
  cases f.isFinite bits with
  | true =>
    simp only [Bool.not_true, Bool.false_eq_true, ite_false]
    split <;> rfl
  | false => rfl

/-- There is a literal for a finite constant and for no other. -/
theorem entryLiteral_isOk {entry : Sdata2Entry} (hsize : entry.size = 4 ∨ entry.size = 8) :
    (entryLiteral entry).isOk = entry.isFinite := by
  have hsome (f : FloatFormat) (bits : Nat) : (∃ val, f.unpack bits = some val) ↔ f.isFinite bits := by
    rw [← isSome_unpack, Option.isSome_iff_exists]
  rcases hsize with hsize | hsize
  · simp only [entryLiteral, Sdata2Entry.isFinite, hsize, ite_true]
    split
    · rename_i hzero
      rw [hzero]
      rfl
    · rw [← isSome_unpack]
      cases f32.unpack (fromBytes entry.data) <;> rfl
  · simp only [entryLiteral, Sdata2Entry.isFinite, hsize, Nat.reduceEqDiff, ite_false, ite_true]
    split
    · rename_i hzero
      rw [hzero]
      rfl
    · rw [← isSome_unpack]
      cases f64.unpack (fromBytes entry.data) <;> rfl

theorem describeEntry_isOk {entry : Sdata2Entry} (hsize : entry.size = 4 ∨ entry.size = 8) :
    (describeEntry entry).isOk = entry.isFinite := by
  rw [← entryLiteral_isOk hsize, describeEntry]
  cases entryLiteral entry <;> rfl

/-! ## Comparing two sections -/

def usedSize (entries : List Sdata2Entry) : Nat :=
  (entries.map fun e => e.offset + e.size).foldr max 0

def Sdata2Entry.signature (e : Sdata2Entry) : Nat × Bytes := (e.size, e.data)

def entrySignature (entries : List Sdata2Entry) : List (Nat × Bytes) :=
  entries.map Sdata2Entry.signature

def sdata2Matches (target current : Sdata2) : Bool :=
  let targetUsed := usedSize target.entries
  let currentUsed := usedSize current.entries
  entrySignature target.entries = entrySignature current.entries && targetUsed = currentUsed &&
    target.data.take targetUsed = current.data.take currentUsed

inductive Mismatch where
  | constant (i : Nat) (target current : Text)
  | count (target current : Nat)
  | usedSize (target current : Nat)
  | byte (i : Nat) (target current : UInt8)
  | unknown

/-- `{byte:02x}` -/
def hexByte (byte : UInt8) : Text :=
  List.replicate (2 - (hex byte.toNat).length) '0' ++ hex byte.toNat

/-- The text `first_mismatch` returns. -/
def Mismatch.text : Mismatch → Text
  | constant i target current => "constant ".toList ++
      (Nat.toDigits 10 i ++ ": target ".toList ++ target ++ ", current ".toList ++ current)
  | count target current => "constant count: target ".toList ++
      (Nat.toDigits 10 target ++ ", current ".toList ++ Nat.toDigits 10 current)
  | usedSize target current => "used .sdata2 size: target 0x".toList ++
      (hex target ++ ", current 0x".toList ++ hex current)
  | byte i target current => "byte 0x".toList ++
      (hex i ++ ": target 0x".toList ++ hexByte target ++ ", current 0x".toList ++ hexByte current)
  | unknown => "unknown mismatch".toList

/-- The loop over the constants, from index `i`. -/
def constantMismatch : Nat → List Sdata2Entry → List Sdata2Entry → Option (Except Text Mismatch)
  | i, target :: targets, current :: currents =>
    if target.size ≠ current.size ∨ target.data ≠ current.data then
      some do return .constant i (← describeEntry target) (← describeEntry current)
    else constantMismatch (i + 1) targets currents
  | _, _, _ => none

/-- The loop over the bytes, from index `i`. -/
def byteMismatch : Nat → Bytes → Bytes → Option Mismatch
  | i, target :: targets, current :: currents =>
    if target ≠ current then some (.byte i target current) else byteMismatch (i + 1) targets currents
  | _, _, _ => none

/-- The body of `first_mismatch`. -/
def findMismatch (target current : Sdata2) : Except Text Mismatch :=
  match constantMismatch 0 target.entries current.entries with
  | some result => result
  | none =>
    if target.entries.length ≠ current.entries.length then
      .ok (.count target.entries.length current.entries.length)
    else
      let targetUsed := usedSize target.entries
      let currentUsed := usedSize current.entries
      if targetUsed ≠ currentUsed then .ok (.usedSize targetUsed currentUsed)
      else
        let limit := min targetUsed currentUsed
        .ok ((byteMismatch 0 (target.data.take limit) (current.data.take limit)).getD .unknown)

def firstMismatch (target current : Sdata2) : Except Text Text :=
  (findMismatch target current).map Mismatch.text

/-- The sections differ in what is named. -/
def Mismatch.Real (target current : Sdata2) : Mismatch → Prop
  | constant i _ _ => ∃ t c, target.entries[i]? = some t ∧ current.entries[i]? = some c ∧
      t.signature ≠ c.signature
  | count t c => t = target.entries.length ∧ c = current.entries.length ∧ t ≠ c
  | usedSize t c => t = Sdata2Order.usedSize target.entries ∧
      c = Sdata2Order.usedSize current.entries ∧ t ≠ c
  | byte i t c => target.data[i]? = some t ∧ current.data[i]? = some c ∧ t ≠ c
  | unknown => False

/-- The comparison raises nothing, and after a failed match it names a difference. -/
def Explained (target current : Sdata2) : Prop :=
  ∃ mismatch : Mismatch, firstMismatch target current = .ok mismatch.text ∧
    (sdata2Matches target current = false →
      mismatch.text ≠ "unknown mismatch".toList ∧ mismatch.Real target current)

/-- `t` and `c` are the first two constants that differ. -/
def FirstDiffering (target current : Sdata2) (t c : Sdata2Entry) : Prop :=
  ∃ i, target.entries[i]? = some t ∧ current.entries[i]? = some c ∧ t.signature ≠ c.signature ∧
    entrySignature (target.entries.take i) = entrySignature (current.entries.take i)

theorem signature_ne {t c : Sdata2Entry} :
    t.signature ≠ c.signature ↔ t.size ≠ c.size ∨ t.data ≠ c.data := by
  rw [Sdata2Entry.signature, Sdata2Entry.signature, Ne, Prod.mk.injEq, not_and_or]

/-- The loop stops at the first two constants that differ. -/
theorem constantMismatch_eq {targets currents : List Sdata2Entry} {i : Nat} {t c : Sdata2Entry} (k : Nat)
    (ht : targets[i]? = some t) (hc : currents[i]? = some c) (hne : t.signature ≠ c.signature)
    (hfront : entrySignature (targets.take i) = entrySignature (currents.take i)) :
    constantMismatch k targets currents =
      some do return .constant (k + i) (← describeEntry t) (← describeEntry c) := by
  induction i generalizing k targets currents with
  | zero =>
    cases targets with
    | nil => simp at ht
    | cons target targets =>
      cases currents with
      | nil => simp at hc
      | cons current currents =>
        obtain rfl := Option.some.inj ht
        obtain rfl := Option.some.inj hc
        rw [constantMismatch, if_pos (signature_ne.mp hne)]
        rfl
  | succ i ih =>
    cases targets with
    | nil => simp at ht
    | cons target targets =>
      cases currents with
      | nil => simp at hc
      | cons current currents =>
        simp only [entrySignature, List.take_succ_cons, List.map_cons, List.cons.injEq] at hfront
        have hsame : ¬ (target.size ≠ current.size ∨ target.data ≠ current.data) :=
          fun h => signature_ne.mpr h hfront.1
        rw [constantMismatch, if_neg hsame, ih (k + 1) ht hc hfront.2, Nat.add_right_comm]
        rfl

theorem constantMismatch_none {targets currents : List Sdata2Entry} {k : Nat}
    (hlength : targets.length = currents.length) (h : constantMismatch k targets currents = none) :
    entrySignature targets = entrySignature currents := by
  induction targets generalizing k currents with
  | nil =>
    rw [List.length_nil, eq_comm, List.length_eq_zero_iff] at hlength
    rw [hlength]
  | cons target targets ih =>
    cases currents with
    | nil => cases hlength
    | cons current currents =>
      rw [constantMismatch] at h
      split at h
      · cases h
      · rename_i hsame
        have hhead : target.signature = current.signature :=
          not_not.mp fun hne => hsame (signature_ne.mp hne)
        have htail := ih (Nat.succ.inj hlength) h
        simp only [entrySignature] at htail
        rw [entrySignature, entrySignature, List.map_cons, List.map_cons, hhead, htail]

theorem constantMismatch_some {targets currents : List Sdata2Entry} {k : Nat}
    {result : Except Text Mismatch} (h : constantMismatch k targets currents = some result) :
    ∃ i t c, targets[i]? = some t ∧ currents[i]? = some c ∧ t.signature ≠ c.signature ∧
      entrySignature (targets.take i) = entrySignature (currents.take i) ∧
      result = do return .constant (k + i) (← describeEntry t) (← describeEntry c) := by
  induction targets generalizing k currents with
  | nil => cases h
  | cons target targets ih =>
    cases currents with
    | nil => cases h
    | cons current currents =>
      rw [constantMismatch] at h
      split at h
      · rename_i hne
        exact ⟨0, target, current, rfl, rfl, signature_ne.mpr hne, rfl, (Option.some.inj h).symm⟩
      · rename_i hsame
        have hhead : target.signature = current.signature :=
          not_not.mp fun hne => hsame (signature_ne.mp hne)
        obtain ⟨i, t, c, ht, hc, hne, hfront, hresult⟩ := ih h
        refine ⟨i + 1, t, c, ht, hc, hne, ?_, by rw [hresult, Nat.add_right_comm]; rfl⟩
        simp only [entrySignature] at hfront
        simp only [entrySignature, List.take_succ_cons, List.map_cons, hhead, hfront]

theorem byteMismatch_some {targets currents : Bytes} {k : Nat} {mismatch : Mismatch}
    (h : byteMismatch k targets currents = some mismatch) :
    ∃ i t c, targets[i]? = some t ∧ currents[i]? = some c ∧ t ≠ c ∧ mismatch = .byte (k + i) t c := by
  induction targets generalizing k currents with
  | nil => cases h
  | cons target targets ih =>
    cases currents with
    | nil => cases h
    | cons current currents =>
      rw [byteMismatch] at h
      split at h
      · rename_i hne
        exact ⟨0, target, current, rfl, rfl, hne, (Option.some.inj h).symm⟩
      · obtain ⟨i, t, c, ht, hc, hne, rfl⟩ := ih h
        exact ⟨i + 1, t, c, ht, hc, hne, by rw [Nat.add_right_comm]; rfl⟩

theorem byteMismatch_none {targets currents : Bytes} {k : Nat}
    (hlength : targets.length = currents.length) (h : byteMismatch k targets currents = none) :
    targets = currents := by
  induction targets generalizing k currents with
  | nil => exact (List.length_eq_zero_iff.mp hlength.symm).symm
  | cons target targets ih =>
    cases currents with
    | nil => cases hlength
    | cons current currents =>
      rw [byteMismatch] at h
      split at h
      · cases h
      · rename_i heq
        rw [not_not.mp heq, ih (Nat.succ.inj hlength) h]

/-- What is used of a section lies in its data. -/
theorem Sdata2.usedSize_le (s : Sdata2) : usedSize s.entries ≤ s.data.length := by
  have hbound := fun e he => (s.within e he).1
  generalize s.entries = entries at hbound
  induction entries with
  | nil => exact Nat.zero_le _
  | cons e entries ih =>
    rw [List.forall_mem_cons] at hbound
    exact max_le hbound.1 (ih hbound.2)

theorem Mismatch.Real.text_ne {target current : Sdata2} {mismatch : Mismatch}
    (h : mismatch.Real target current) : mismatch.text ≠ "unknown mismatch".toList := by
  intro heq
  -- the second character tells the others from this text
  have second {s : String} {rest : Text} {c : Char} (htext : mismatch.text = s.toList ++ rest)
      (hc : s.toList[1]? = some c) : c = 'n' := by
    have hlt := (List.getElem?_eq_some_iff.mp hc).1
    have h := congrArg (fun t : Text => t[1]?) (htext.symm.trans heq)
    rw [List.getElem?_append_left hlt, hc, toList_literal rfl] at h
    exact Option.some.inj h
  cases mismatch with
  | constant => exact absurd (second rfl (by rw [toList_literal rfl]; rfl) : 'o' = 'n') (by decide)
  | count => exact absurd (second rfl (by rw [toList_literal rfl]; rfl) : 'o' = 'n') (by decide)
  | usedSize => exact absurd (second rfl (by rw [toList_literal rfl]; rfl) : 's' = 'n') (by decide)
  | byte => exact absurd (second rfl (by rw [toList_literal rfl]; rfl) : 'y' = 'n') (by decide)
  | unknown => exact h.elim

section
variable {target current : Sdata2}

theorem explained_of (hfinite : ∀ t c, FirstDiffering target current t c → t.isFinite ∧ c.isFinite) :
    Explained target current := by
  -- a difference found is reported as such
  have found (mismatch : Mismatch) (hfind : findMismatch target current = .ok mismatch)
      (hreal : mismatch.Real target current) : Explained target current :=
    ⟨mismatch, by rw [firstMismatch, hfind]; rfl, fun _ => ⟨hreal.text_ne, hreal⟩⟩
  cases hconst : constantMismatch 0 target.entries current.entries with
  | some result =>
    obtain ⟨i, t, c, ht, hc, hne, hfront, rfl⟩ := constantMismatch_some hconst
    obtain ⟨htfin, hcfin⟩ := hfinite t c ⟨i, ht, hc, hne, hfront⟩
    rw [← describeEntry_isOk (target.sizes t (List.mem_of_getElem? ht))] at htfin
    rw [← describeEntry_isOk (current.sizes c (List.mem_of_getElem? hc))] at hcfin
    cases htext : describeEntry t with
    | error => rw [htext] at htfin; cases htfin
    | ok tText =>
      cases hcext : describeEntry c with
      | error => rw [hcext] at hcfin; cases hcfin
      | ok cText =>
        refine found (.constant (0 + i) tText cText) ?_ ⟨t, c, by rwa [Nat.zero_add], by rwa [Nat.zero_add], hne⟩
        rw [findMismatch, hconst, htext, hcext]
        rfl
  | none =>
    by_cases hlength : target.entries.length = current.entries.length
    · have hsignature := constantMismatch_none hlength hconst
      by_cases hused : usedSize target.entries = usedSize current.entries
      · have htarget := target.usedSize_le
        have hcurrent := current.usedSize_le
        have hfind : findMismatch target current =
            .ok ((byteMismatch 0 (target.data.take (usedSize target.entries))
              (current.data.take (usedSize target.entries))).getD .unknown) := by
          rw [findMismatch, hconst]
          simp only [hlength, hused, ne_eq, not_true_eq_false, ite_false, min_self]
        cases hbyte : byteMismatch 0 (target.data.take (usedSize target.entries))
            (current.data.take (usedSize target.entries)) with
        | some mismatch =>
          obtain ⟨i, t, c, ht, hc, hne, rfl⟩ := byteMismatch_some hbyte
          rw [hbyte] at hfind
          have hi : i < usedSize target.entries :=
            (List.getElem?_eq_some_iff.mp ht).1.trans_le (List.length_take_le _ _)
          rw [List.getElem?_take_of_lt hi] at ht hc
          exact found _ hfind ⟨by rwa [Nat.zero_add], by rwa [Nat.zero_add], hne⟩
        | none =>
          have hdata := byteMismatch_none (by simp only [List.length_take]; omega) hbyte
          have hmatch : sdata2Matches target current = true := by
            simp only [sdata2Matches, hsignature, ← hused, hdata, decide_true, Bool.and_self]
          refine ⟨.unknown, by rw [firstMismatch, hfind, hbyte]; rfl, fun hfalse => ?_⟩
          rw [hmatch] at hfalse
          cases hfalse
      · refine found (.usedSize (usedSize target.entries) (usedSize current.entries)) ?_ ⟨rfl, rfl, hused⟩
        rw [findMismatch, hconst]
        simp only [hlength, ne_eq, not_true_eq_false, ite_false, hused, not_false_eq_true, ite_true]
    · refine found (.count target.entries.length current.entries.length) ?_ ⟨rfl, rfl, hlength⟩
      rw [findMismatch, hconst]
      simp only [ne_eq, hlength, not_false_eq_true, ite_true]

/-- A comparison of two sections is explained just when the first two constants that differ, if
there are such, are finite. -/
theorem firstMismatch_explains_iff : Explained target current ↔
    ∀ t c, FirstDiffering target current t c → t.isFinite ∧ c.isFinite := by
  refine ⟨?_, explained_of⟩
  rintro ⟨mismatch, hfirst, -⟩ t c ⟨i, ht, hc, hne, hfront⟩
  rw [firstMismatch, findMismatch, constantMismatch_eq 0 ht hc hne hfront] at hfirst
  rw [← describeEntry_isOk (target.sizes t (List.mem_of_getElem? ht)),
    ← describeEntry_isOk (current.sizes c (List.mem_of_getElem? hc))]
  cases htext : describeEntry t with
  | error => rw [htext] at hfirst; cases hfirst
  | ok tText =>
    cases hcext : describeEntry c with
    | error => rw [htext, hcext] at hfirst; cases hfirst
    | ok cText => exact ⟨rfl, rfl⟩

/-- A section of one single. -/
def single (data : Bytes) (h : data.length = 4) : Sdata2 where
  data := data
  entries := [⟨0, 4, data, ['a'], h⟩]
  sizes := List.forall_mem_singleton.mpr (.inl rfl)
  within := List.forall_mem_singleton.mpr ⟨h.ge, (List.take_of_length_le h.le).symm⟩
  sorted := List.pairwise_singleton _ _

/-- An infinity against a one: there is no literal for the first. -/
theorem infinity_unexplained :
    ¬ Explained (single [0x7f, 0x80, 0, 0] rfl) (single [0x3f, 0x80, 0, 0] rfl) := by
  rintro ⟨mismatch, hfirst, -⟩
  have hfind : (firstMismatch _ _).isOk = true := congrArg Except.isOk hfirst
  revert hfind
  decide +kernel

end

end MeleeHarness.Sdata2Order
