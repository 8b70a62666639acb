import MeleeHarness.Objdiff.DataDiff
import MeleeHarness.Objdiff.PowerPC
import Mathlib.Data.List.ReduceOption
import Mathlib.Algebra.Order.Field.Rat
import Mathlib.Tactic.FieldSimp
import Mathlib.Tactic.Linarith
import Mathlib.Tactic.Positivity

/-!
# The relocations of a data symbol, and its percentage

`diff_data_relocs_for_range` joins the relocations of two ranges by their offset;
`diff_data_symbol` weighs what the bytes and the relocations match.

* `diffDataRelocsForRange_join`: which relocations are shown, beside which, and as what;
* `diffDataSymbol_hundred`: at 100 percent the bytes are the same, and the relocations match.
-/

namespace MeleeHarness.Objdiff

open Lib

def dataRelocEq (leftObj rightObj : Object) (left right : ResolvedRelocation) : Bool :=
  if left.relocation.flags ≠ right.relocation.flags then false
  else
    let symbolNameAddendMatches := symbolNameMatches left.symbol right.symbol &&
      left.relocation.addend == right.relocation.addend
    match left.symbol.sectionIndex, right.symbol.sectionIndex with
    | some sl, some sr =>
      sectionNameEq leftObj rightObj sl sr && (symbolNameAddendMatches || addressEq left right)
    | _, _ => symbolNameAddendMatches

def resolveRelocation (symbols : List Symbol) (reloc : Relocation) : Option ResolvedRelocation :=
  symbols[reloc.targetSymbol]?.map fun symbol => ⟨reloc, symbol⟩

def inRange (range : Nat × Nat) (reloc : Relocation) : Bool :=
  range.1 ≤ reloc.address ∧ reloc.address < range.2

/-- The first relocation of a range at an offset. -/
def atOffset (range : Nat × Nat) (offset : Nat) (relocs : List Relocation) : Option Relocation :=
  relocs.find? fun reloc => inRange range reloc && reloc.address - range.1 == offset

structure RelocDiff where
  kind : DataDiffKind
  left : Option ResolvedRelocation
  right : Option ResolvedRelocation

section
variable (leftObj rightObj : Object) (leftRelocs rightRelocs : List Relocation)
  (leftRange rightRange : Nat × Nat)

def leftRelocDiff (reloc : Relocation) : Option RelocDiff := do
  let leftReloc ← resolveRelocation leftObj.symbols reloc
  match atOffset rightRange (reloc.address - leftRange.1) rightRelocs with
  | none => return ⟨.delete, some leftReloc, none⟩
  | some found =>
    let rightReloc ← resolveRelocation rightObj.symbols found
    let kind := if dataRelocEq leftObj rightObj leftReloc rightReloc then .none else .replace
    return ⟨kind, some leftReloc, some rightReloc⟩

/-- One that stands beside a left relocation has been dealt with. -/
def rightRelocDiff (reloc : Relocation) : Option (Option RelocDiff) := do
  let rightReloc ← resolveRelocation rightObj.symbols reloc
  match atOffset leftRange (reloc.address - rightRange.1) leftRelocs with
  | none => return some ⟨.insert, none, some rightReloc⟩
  | some _ => return none

/-- A relocation without its symbol panics. -/
def diffDataRelocsForRange : Option (List RelocDiff) := do
  let left ← (leftRelocs.filter (inRange leftRange)).mapM
    (leftRelocDiff leftObj rightObj rightRelocs leftRange rightRange)
  let right ← (rightRelocs.filter (inRange rightRange)).mapM
    (rightRelocDiff rightObj leftRelocs leftRange rightRange)
  return left ++ right.reduceOption

end

/-- The symbol of every relocation of a range is there. -/
def ResolvesIn (obj : Object) (range : Nat × Nat) (relocs : List Relocation) : Prop :=
  ∀ reloc ∈ relocs, inRange range reloc = true → ∃ r, resolveRelocation obj.symbols reloc = some r

/-- What a diff shows: a relocation alone, if the other side has none at its offset, or beside
the first one there. -/
inductive RelocDiff.Right (leftObj rightObj : Object) (leftRelocs rightRelocs : List Relocation)
    (leftRange rightRange : Nat × Nat) : RelocDiff → Prop
  | delete (l : ResolvedRelocation) :
      resolveRelocation leftObj.symbols l.relocation = some l →
      atOffset rightRange (l.relocation.address - leftRange.1) rightRelocs = none →
      RelocDiff.Right _ _ _ _ _ _ ⟨.delete, some l, none⟩
  | insert (r : ResolvedRelocation) :
      resolveRelocation rightObj.symbols r.relocation = some r →
      atOffset leftRange (r.relocation.address - rightRange.1) leftRelocs = none →
      RelocDiff.Right _ _ _ _ _ _ ⟨.insert, none, some r⟩
  | both (l r : ResolvedRelocation) :
      resolveRelocation leftObj.symbols l.relocation = some l →
      resolveRelocation rightObj.symbols r.relocation = some r →
      atOffset rightRange (l.relocation.address - leftRange.1) rightRelocs = some r.relocation →
      RelocDiff.Right _ _ _ _ _ _
        ⟨if dataRelocEq leftObj rightObj l r then .none else .replace, some l, some r⟩

section
variable {leftObj rightObj : Object} {leftRelocs rightRelocs : List Relocation}
  {leftRange rightRange : Nat × Nat} {reloc : Relocation}

theorem relocation_of_resolve {symbols : List Symbol} {r : ResolvedRelocation}
    (h : resolveRelocation symbols reloc = some r) : r.relocation = reloc := by
  obtain ⟨symbol, -, rfl⟩ := Option.map_eq_some_iff.mp h
  rfl

theorem atOffset_some {range : Nat × Nat} {offset : Nat} {relocs : List Relocation}
    (h : atOffset range offset relocs = some reloc) :
    reloc ∈ relocs ∧ inRange range reloc = true ∧ reloc.address - range.1 = offset := by
  have hfound := List.find?_some h
  rw [Bool.and_eq_true, beq_iff_eq] at hfound
  exact ⟨List.mem_of_find?_eq_some h, hfound⟩

theorem leftRelocDiff_spec (leftRelocs : List Relocation) {d : RelocDiff}
    (h : leftRelocDiff leftObj rightObj rightRelocs leftRange rightRange reloc = some d) :
    d.Right leftObj rightObj leftRelocs rightRelocs leftRange rightRange ∧
      (∃ l, d.left = some l ∧ l.relocation = reloc) ∧
      d.right.map (·.relocation) = atOffset rightRange (reloc.address - leftRange.1) rightRelocs := by
  obtain ⟨l, hl, h⟩ := Option.bind_eq_some_iff.mp h
  have hreloc := relocation_of_resolve hl
  subst hreloc
  cases hfound : atOffset rightRange (l.relocation.address - leftRange.1) rightRelocs with
  | none =>
    rw [hfound] at h
    obtain rfl := Option.some.inj h
    exact ⟨.delete l hl hfound, ⟨l, rfl, rfl⟩, rfl⟩
  | some found =>
    rw [hfound] at h
    obtain ⟨r, hr, hboth⟩ := Option.bind_eq_some_iff.mp h
    have hreloc := relocation_of_resolve hr
    subst hreloc
    obtain rfl := Option.some.inj hboth
    exact ⟨.both l r hl hr hfound, ⟨l, rfl, rfl⟩, rfl⟩

theorem rightRelocDiff_spec {d : Option RelocDiff}
    (h : rightRelocDiff rightObj leftRelocs leftRange rightRange reloc = some d) :
    ((∃ found, atOffset leftRange (reloc.address - rightRange.1) leftRelocs = some found) ∧ d = none) ∨
      atOffset leftRange (reloc.address - rightRange.1) leftRelocs = none ∧
      ∃ r, r.relocation = reloc ∧ resolveRelocation rightObj.symbols reloc = some r ∧
        d = some ⟨.insert, none, some r⟩ := by
  obtain ⟨r, hr, h⟩ := Option.bind_eq_some_iff.mp h
  have hreloc := relocation_of_resolve hr
  cases hfound : atOffset leftRange (reloc.address - rightRange.1) leftRelocs with
  | none =>
    rw [hfound] at h
    exact .inr ⟨rfl, r, hreloc, hr, (Option.some.inj h).symm⟩
  | some found =>
    rw [hfound] at h
    exact .inl ⟨⟨found, rfl⟩, (Option.some.inj h).symm⟩

theorem leftRelocDiff_isSome (leftObj : Object) (leftRange : Nat × Nat)
    (hright : ResolvesIn rightObj rightRange rightRelocs) :
    (∃ d, leftRelocDiff leftObj rightObj rightRelocs leftRange rightRange reloc = some d) ↔
      ∃ l, resolveRelocation leftObj.symbols reloc = some l := by
  constructor
  · rintro ⟨d, h⟩
    obtain ⟨l, hl, -⟩ := Option.bind_eq_some_iff.mp h
    exact ⟨l, hl⟩
  · rintro ⟨l, hl⟩
    rw [leftRelocDiff, hl, Option.bind_eq_bind, Option.bind_some]
    cases hfound : atOffset rightRange (reloc.address - leftRange.1) rightRelocs with
    | none => exact ⟨_, rfl⟩
    | some found =>
      obtain ⟨hmem, hin, -⟩ := atOffset_some hfound
      obtain ⟨r, hr⟩ := hright found hmem hin
      dsimp only
      rw [hr]
      exact ⟨_, rfl⟩

theorem rightRelocDiff_isSome (rightObj : Object) (leftRelocs : List Relocation)
    (leftRange rightRange : Nat × Nat) (reloc : Relocation) :
    (∃ d, rightRelocDiff rightObj leftRelocs leftRange rightRange reloc = some d) ↔
      ∃ r, resolveRelocation rightObj.symbols reloc = some r := by
  constructor
  · rintro ⟨d, h⟩
    obtain ⟨r, hr, -⟩ := Option.bind_eq_some_iff.mp h
    exact ⟨r, hr⟩
  · rintro ⟨r, hr⟩
    rw [rightRelocDiff, hr, Option.bind_eq_bind, Option.bind_some]
    cases atOffset leftRange (reloc.address - rightRange.1) leftRelocs with
    | none => exact ⟨_, rfl⟩
    | some found => exact ⟨_, rfl⟩

theorem exists_mapM {α β : Type} {f : α → Option β} {xs : List α} :
    (∃ ys, xs.mapM f = some ys) ↔ ∀ x ∈ xs, ∃ y, f x = some y := by
  constructor
  · rintro ⟨ys, h⟩ x hx
    exact exists_of_mapM_some h hx
  · intro h
    induction xs with
    | nil => exact ⟨[], rfl⟩
    | cons x xs ih =>
      obtain ⟨y, hy⟩ := h x List.mem_cons_self
      obtain ⟨ys, hys⟩ := ih fun x hx => h x (List.mem_cons_of_mem _ hx)
      exact ⟨y :: ys, by rw [List.mapM_cons, hy, hys]; rfl⟩

/-- The left diffs, each with the relocation it stands for. -/
theorem left_of_mapM (leftRelocs : List Relocation) {relocs : List Relocation} {diffs : List RelocDiff}
    (h : relocs.mapM (leftRelocDiff leftObj rightObj rightRelocs leftRange rightRange) = some diffs) :
    (∀ d ∈ diffs, d.Right leftObj rightObj leftRelocs rightRelocs leftRange rightRange) ∧
      (diffs.filterMap (·.left)).map (·.relocation) = relocs ∧
      (diffs.filterMap (·.right)).map (·.relocation) =
        relocs.filterMap fun l => atOffset rightRange (l.address - leftRange.1) rightRelocs := by
  induction mapM_some_iff.mp h with
  | nil => exact ⟨by simp, rfl, rfl⟩
  | @cons reloc d relocs diffs hd htail ih =>
    obtain ⟨hshown, hleft, hright⟩ := ih (mapM_some_iff.mpr htail)
    obtain ⟨hhere, ⟨l, hl, rfl⟩, hr⟩ := leftRelocDiff_spec leftRelocs hd
    refine ⟨?_, ?_, ?_⟩
    · intro d hmem
      rcases List.mem_cons.mp hmem with rfl | hmem
      · exact hhere
      · exact hshown d hmem
    · rw [List.filterMap_cons_some hl, List.map_cons, hleft]
    · rw [List.filterMap_cons, List.filterMap_cons, ← hr]
      cases d.right with
      | none => exact hright
      | some r =>
        rw [← hright]
        rfl

theorem right_of_mapM (leftObj : Object) (rightRelocs : List Relocation) {relocs : List Relocation} {diffs : List (Option RelocDiff)}
    (h : relocs.mapM (rightRelocDiff rightObj leftRelocs leftRange rightRange) = some diffs) :
    (∀ d ∈ diffs.reduceOption, d.Right leftObj rightObj leftRelocs rightRelocs leftRange rightRange) ∧
      diffs.reduceOption.filterMap (·.left) = [] ∧
      (diffs.reduceOption.filterMap (·.right)).map (·.relocation) =
        relocs.filter fun r => (atOffset leftRange (r.address - rightRange.1) leftRelocs).isNone := by
  induction mapM_some_iff.mp h with
  | nil => exact ⟨by simp, rfl, rfl⟩
  | @cons reloc d relocs diffs hd htail ih =>
    obtain ⟨hshown, hleft, hright⟩ := ih (mapM_some_iff.mpr htail)
    rcases rightRelocDiff_spec hd with ⟨⟨found, hfound⟩, rfl⟩ | ⟨hnone, r, rfl, hr, rfl⟩
    · rw [List.filter_cons, hfound]
      exact ⟨hshown, hleft, hright⟩
    · rw [List.filter_cons, hnone, List.reduceOption_cons_of_some]
      refine ⟨?_, hleft, ?_⟩
      · intro d hd
        rcases List.mem_cons.mp hd with rfl | hd
        · exact .insert r hr hnone
        · exact hshown d hd
      · rw [← hright]
        rfl

/-- Every relocation of the left range is shown, in order and once. One of the right range is
shown beside it where it is the first at its offset, alone where the left has none there, and not
at all otherwise. -/
theorem diffDataRelocsForRange_join (leftObj rightObj : Object)
    (leftRelocs rightRelocs : List Relocation) (leftRange rightRange : Nat × Nat) :
    ((∃ diffs, diffDataRelocsForRange leftObj rightObj leftRelocs rightRelocs leftRange rightRange =
        some diffs) ↔
      ResolvesIn leftObj leftRange leftRelocs ∧ ResolvesIn rightObj rightRange rightRelocs) ∧
    ∀ diffs, diffDataRelocsForRange leftObj rightObj leftRelocs rightRelocs leftRange rightRange =
        some diffs →
      (∀ d ∈ diffs, d.Right leftObj rightObj leftRelocs rightRelocs leftRange rightRange) ∧
      (diffs.filterMap (·.left)).map (·.relocation) = leftRelocs.filter (inRange leftRange) ∧
      ∀ reloc, reloc ∈ (diffs.filterMap (·.right)).map (·.relocation) ↔
        reloc ∈ rightRelocs ∧ inRange rightRange reloc = true ∧
        (atOffset leftRange (reloc.address - rightRange.1) leftRelocs = none ∨
          atOffset rightRange (reloc.address - rightRange.1) rightRelocs = some reloc) := by
  have hresolves {obj : Object} {range : Nat × Nat} {relocs : List Relocation} :
      (∀ reloc ∈ relocs.filter (inRange range), ∃ r, resolveRelocation obj.symbols reloc = some r) ↔
        ResolvesIn obj range relocs := by
    simp only [List.mem_filter, ResolvesIn, and_imp]
  constructor
  · constructor
    · rintro ⟨diffs, h⟩
      obtain ⟨left, hleft, h⟩ := Option.bind_eq_some_iff.mp h
      obtain ⟨right, hright, -⟩ := Option.bind_eq_some_iff.mp h
      have hrightIn := hresolves.mp fun reloc hreloc =>
        (rightRelocDiff_isSome _ _ _ _ _).mp (exists_mapM.mp ⟨right, hright⟩ reloc hreloc)
      refine ⟨hresolves.mp fun reloc hreloc => ?_, hrightIn⟩
      exact (leftRelocDiff_isSome leftObj leftRange hrightIn).mp (exists_mapM.mp ⟨left, hleft⟩ reloc hreloc)
    · rintro ⟨hleftIn, hrightIn⟩
      obtain ⟨left, hleft⟩ := exists_mapM.mpr fun reloc hreloc =>
        (leftRelocDiff_isSome leftObj leftRange hrightIn).mpr
          (hresolves.mpr hleftIn reloc hreloc)
      obtain ⟨right, hright⟩ := exists_mapM.mpr fun reloc hreloc =>
        (rightRelocDiff_isSome rightObj leftRelocs leftRange rightRange reloc).mpr
          (hresolves.mpr hrightIn reloc hreloc)
      exact ⟨_, by rw [diffDataRelocsForRange, hleft, hright]; rfl⟩
  · intro diffs h
    obtain ⟨left, hleft, h⟩ := Option.bind_eq_some_iff.mp h
    obtain ⟨right, hright, h⟩ := Option.bind_eq_some_iff.mp h
    obtain rfl := Option.some.inj h
    obtain ⟨hshown, hleftRelocs, hbeside⟩ := left_of_mapM leftRelocs hleft
    obtain ⟨hshown', hnone, halone⟩ :=
      right_of_mapM leftObj rightRelocs hright
    refine ⟨?_, ?_, ?_⟩
    · intro d hd
      exact (List.mem_append.mp hd).elim (hshown d) (hshown' d)
    · rw [List.filterMap_append, hnone, List.append_nil, hleftRelocs]
    · intro reloc
      rw [List.filterMap_append, List.map_append, hbeside, halone, List.mem_append, List.mem_filter,
        List.mem_filter, Option.isNone_iff_eq_none]
      simp only [List.mem_filterMap, List.mem_filter]
      constructor
      · rintro (⟨l, ⟨hl, hlin⟩, hfound⟩ | ⟨⟨hmem, hin⟩, hnone⟩)
        · obtain ⟨hmem, hin, hoffset⟩ := atOffset_some hfound
          exact ⟨hmem, hin, .inr (hoffset ▸ hfound)⟩
        · exact ⟨hmem, hin, .inl hnone⟩
      · rintro ⟨hmem, hin, hcase⟩
        cases hl : atOffset leftRange (reloc.address - rightRange.1) leftRelocs with
        | none => exact .inr ⟨⟨hmem, hin⟩, rfl⟩
        | some l =>
          obtain ⟨hlmem, hlin, hoffset⟩ := atOffset_some hl
          rw [hl] at hcase
          rcases hcase with hcase | hfirst
          · cases hcase
          · exact .inl ⟨l, ⟨hlmem, hlin⟩, hoffset ▸ hfirst⟩

end

/-! ## The percentage -/

/-- `similar::get_diff_ratio`, before it is rounded. -/
def getDiffRatio (ops : List DiffOp) (oldLen newLen : Nat) : Rat :=
  if oldLen + newLen = 0 then 1
  else 2 * ((ops.map DiffOp.matched).sum : Rat) / ((oldLen + newLen : Nat) : Rat)

def relocDiffLen (leftSize rightSize : RelocationFlags → Nat) (d : RelocDiff) : Nat :=
  match d.left, d.right with
  | some leftReloc, _ => leftSize leftReloc.relocation.flags
  | none, some rightReloc => rightSize rightReloc.relocation.flags
  | none, none => 0

/-- The bytes of two data symbols and the diffs of their relocations. -/
structure DataPair where
  left : Bytes
  right : Bytes
  relocDiffs : List RelocDiff

namespace DataPair
variable (p : DataPair) (ops : List DiffOp) (leftSize rightSize : RelocationFlags → Nat)

def totalRelocBytes : Nat := (p.relocDiffs.map (relocDiffLen leftSize rightSize)).sum

def matchingRelocBytes : Nat :=
  ((p.relocDiffs.filter fun d => d.kind = .none).map (relocDiffLen leftSize rightSize)).sum

def matchRatio : Rat :=
  let bytesMatchRatio := getDiffRatio ops p.left.length p.right.length
  let total := p.totalRelocBytes leftSize rightSize
  if 0 < total then
    let relocsMatchRatio : Rat := p.matchingRelocBytes leftSize rightSize / total
    (bytesMatchRatio * p.left.length + relocsMatchRatio * total) / ((p.left.length + total : Nat) : Rat)
  else bytesMatchRatio

/-- Nothing in the rows differs. -/
def Unchanged : Prop := (∃ columns, diffDataRange p.left p.right ops = some columns ∧
  ∀ c ∈ cells columns.1, Cell.same c = true) ∧ ∀ d ∈ p.relocDiffs, d.kind = .none

end DataPair

/-- Twice the cells that are the same are as many as there are bytes, if all are the same. -/
theorem countP_same {left right : List Cell} (h : List.Forall₂ Beside left right) :
    let bytes := (left.filterMap (·.2)).length + (right.filterMap (·.2)).length
    2 * left.countP Cell.same ≤ bytes ∧
      (2 * left.countP Cell.same = bytes ↔ ∀ c ∈ left, Cell.same c = true) := by
  dsimp only
  induction h with
  | nil => simp
  | @cons a b left right hab _ ih =>
    rw [List.forall_mem_cons, ← ih.2]
    cases hab <;> simp [Cell.same] <;> omega

theorem same_eq {left right : List Cell} (h : List.Forall₂ Beside left right)
    (hsame : ∀ c ∈ left, Cell.same c = true) : left = right := by
  induction h with
  | nil => rfl
  | @cons a b left right hab _ ih =>
    rw [List.forall_mem_cons] at hsame
    rw [ih hsame.2]
    cases hab with
    | none => rfl
    | replace | delete | insert => cases hsame.1

theorem getDiffRatio_bounds {ops : List DiffOp} {n m : Nat}
    (h : 2 * (ops.map DiffOp.matched).sum ≤ n + m) :
    0 ≤ getDiffRatio ops n m ∧ getDiffRatio ops n m ≤ 1 ∧
      (getDiffRatio ops n m = 1 ↔ 2 * (ops.map DiffOp.matched).sum = n + m) := by
  rw [getDiffRatio]
  by_cases hzero : n + m = 0
  · rw [if_pos hzero]
    refine ⟨zero_le_one, le_rfl, ?_⟩
    simp only [true_iff]
    omega
  · rw [if_neg hzero]
    have hpos : (0 : Rat) < ((n + m : Nat) : Rat) := by exact_mod_cast Nat.pos_of_ne_zero hzero
    have hle : 2 * ((ops.map DiffOp.matched).sum : Rat) ≤ ((n + m : Nat) : Rat) := by exact_mod_cast h
    refine ⟨by positivity, (div_le_one hpos).mpr hle, ?_⟩
    rw [div_eq_one_iff_eq hpos.ne']
    exact_mod_cast Iff.rfl

/-- Parts of a sum of positive numbers are the whole if nothing is left out. -/
theorem sum_filter_map {α : Type} (f : α → Nat) (keep : α → Bool) (xs : List α)
    (hpos : ∀ x ∈ xs, 0 < f x) : ((xs.filter keep).map f).sum ≤ (xs.map f).sum ∧
      (((xs.filter keep).map f).sum = (xs.map f).sum ↔ ∀ x ∈ xs, keep x = true) := by
  induction xs with
  | nil => simp
  | cons x xs ih =>
    rw [List.forall_mem_cons] at hpos
    obtain ⟨hle, heq⟩ := ih hpos.2
    rw [List.forall_mem_cons, ← heq]
    cases hkeep : keep x with
    | true => simp [hkeep, hle]
    | false =>
      simp only [hkeep, List.filter_cons, Bool.false_eq_true, if_false, List.map_cons, List.sum_cons,
        false_and, iff_false]
      omega

/-- The mean of two ratios, weighted by `n` and `t`. -/
theorem weighted {b : Rat} {m t n : Nat} (hb₀ : 0 ≤ b) (hb₁ : b ≤ 1) (hm : m ≤ t) (ht : 0 < t)
    (hn : m = t → 0 < n) :
    (0 ≤ (b * n + (m : Rat) / t * t) / ((n + t : Nat) : Rat) ∧
      (b * n + (m : Rat) / t * t) / ((n + t : Nat) : Rat) ≤ 1) ∧
      ((b * n + (m : Rat) / t * t) / ((n + t : Nat) : Rat) = 1 ↔ b = 1 ∧ m = t) := by
  have ht' : (0 : Rat) < t := by exact_mod_cast ht
  have hm' : (m : Rat) ≤ t := by exact_mod_cast hm
  have hn' : (0 : Rat) ≤ n := by exact_mod_cast Nat.zero_le n
  have hbn : b * n ≤ n := mul_le_of_le_one_left hn' hb₁
  have hpos : (0 : Rat) < ((n + t : Nat) : Rat) := by exact_mod_cast Nat.add_pos_right n ht
  rw [div_mul_cancel₀ _ ht'.ne', div_le_one hpos, div_eq_one_iff_eq hpos.ne', Nat.cast_add]
  refine ⟨⟨by positivity, by linarith⟩, ?_⟩
  constructor
  · intro heq
    have hmt : m = t := by
      have : (m : Rat) = t := by linarith
      exact_mod_cast this
    have hpos : (0 : Rat) < n := by exact_mod_cast hn hmt
    refine ⟨?_, hmt⟩
    have : (b - 1) * n = 0 := by linarith
    rcases mul_eq_zero.mp this with h | h
    · linarith
    · exact absurd h hpos.ne'
  · rintro ⟨rfl, rfl⟩
    rw [one_mul]

section
variable {p : DataPair} {ops : List DiffOp} {leftSize rightSize : RelocationFlags → Nat}

/-- The ratio is 1 exactly where nothing is shown as a difference. -/
theorem DataPair.matchRatio_one_iff (leftSize rightSize : RelocationFlags → Nat)
    (halign : Aligns p.left p.right 0 0 ops)
    (hsize : ∀ d ∈ p.relocDiffs, 0 < relocDiffLen leftSize rightSize d)
    (hempty : p.left = [] → ∀ d ∈ p.relocDiffs, d.kind ≠ .none) :
    (0 ≤ p.matchRatio ops leftSize rightSize ∧ p.matchRatio ops leftSize rightSize ≤ 1) ∧
      (p.matchRatio ops leftSize rightSize = 1 ↔ p.Unchanged ops) := by
  obtain ⟨columns, hcolumns, hold, hcount⟩ := diffDataRange_spec halign
  have hsame := countP_same hold.beside
  rw [hold.leftBytes, hold.rightBytes, hcount, List.drop_zero, List.drop_zero] at hsame
  obtain ⟨hbytes₀, hbytes₁, hbytes⟩ := getDiffRatio_bounds hsame.1
  obtain ⟨hle, hall⟩ := sum_filter_map (relocDiffLen leftSize rightSize) (fun d => d.kind = .none)
    p.relocDiffs hsize
  have hunchanged : p.Unchanged ops ↔ getDiffRatio ops p.left.length p.right.length = 1 ∧
      p.matchingRelocBytes leftSize rightSize = p.totalRelocBytes leftSize rightSize := by
    rw [hbytes, hsame.2, DataPair.matchingRelocBytes, DataPair.totalRelocBytes, hall]
    simp [DataPair.Unchanged, hcolumns]
  rw [hunchanged, DataPair.matchRatio]
  dsimp only
  change p.matchingRelocBytes leftSize rightSize ≤ p.totalRelocBytes leftSize rightSize at hle
  by_cases htotal : 0 < p.totalRelocBytes leftSize rightSize
  · rw [if_pos htotal]
    have hleft : p.matchingRelocBytes leftSize rightSize = p.totalRelocBytes leftSize rightSize →
        0 < p.left.length := by
      intro heq
      apply List.length_pos_iff.mpr
      intro hnil
      have hnone : p.relocDiffs.filter (fun d => d.kind = .none) = [] := by
        rw [List.filter_eq_nil_iff]
        simpa using hempty hnil
      rw [DataPair.matchingRelocBytes, hnone] at heq
      exact htotal.ne heq
    exact weighted hbytes₀ hbytes₁ hle htotal hleft
  · rw [if_neg htotal]
    refine ⟨⟨hbytes₀, hbytes₁⟩, ?_⟩
    have : p.matchingRelocBytes leftSize rightSize = p.totalRelocBytes leftSize rightSize := by omega
    simp [this]

/-- What is shown without a difference is the same. -/
theorem DataPair.Unchanged.eq (h : p.Unchanged ops) (halign : Aligns p.left p.right 0 0 ops) :
    p.left = p.right := by
  obtain ⟨⟨columns, hcolumns, hsame⟩, -⟩ := h
  obtain ⟨columns', hcolumns', hold, -⟩ := diffDataRange_spec halign
  obtain rfl : columns = columns' := Option.some.inj (hcolumns.symm.trans hcolumns')
  have hbytes := hold.rightBytes
  rw [← same_eq hold.beside hsame, hold.leftBytes] at hbytes
  exact hbytes

end

/-- The bytes and the relocations that `diff_data_symbol` compares. -/
def dataPair (leftObj rightObj : Object) (leftSymbolIdx rightSymbolIdx : Nat) : Option DataPair := do
  let left ← (dataSymbol leftObj leftSymbolIdx).toOption
  let right ← (dataSymbol rightObj rightSymbolIdx).toOption
  let leftStart ← (dataStart left).toOption
  let rightStart ← (dataStart right).toOption
  let leftData ← slice left.2.data leftStart left.1.size
  let rightData ← slice right.2.data rightStart right.1.size
  let relocDiffs ← diffDataRelocsForRange leftObj rightObj left.2.relocations right.2.relocations
    (leftStart, leftStart + left.1.size) (rightStart, rightStart + right.1.size)
  return ⟨leftData, rightData, relocDiffs⟩

def dataMatchPercent (captureDiffSlices : Bytes → Bytes → List DiffOp) : DataMatchPercent :=
  fun leftObj rightObj leftSymbolIdx rightSymbolIdx =>
    match dataPair leftObj rightObj leftSymbolIdx rightSymbolIdx with
    | none => 0
    | some p => 100 * p.matchRatio (captureDiffSlices p.left p.right) leftObj.arch.dataRelocSize
        rightObj.arch.dataRelocSize

theorem RelocDiff.Right.none {leftRelocs rightRelocs : List Relocation} {leftRange rightRange : Nat × Nat}
    {leftObj rightObj : Object} {d : RelocDiff}
    (h : d.Right leftObj rightObj leftRelocs rightRelocs leftRange rightRange) (hkind : d.kind = .none) :
    ∃ x y, d = ⟨.none, some x, some y⟩ ∧ dataRelocEq leftObj rightObj x y = true := by
  cases h with
  | delete | insert => cases hkind
  | both l r _ _ _ =>
    by_cases heq : dataRelocEq leftObj rightObj l r = true
    · rw [if_pos heq]
      exact ⟨l, r, rfl, heq⟩
    · simp [heq] at hkind

theorem RelocDiff.Right.len_pos {leftRelocs rightRelocs : List Relocation}
    {leftRange rightRange : Nat × Nat} {leftObj rightObj : Object} {d : RelocDiff}
    {leftSize rightSize : RelocationFlags → Nat}
    (h : d.Right leftObj rightObj leftRelocs rightRelocs leftRange rightRange)
    (hleft : ∀ flags, 0 < leftSize flags) (hright : ∀ flags, 0 < rightSize flags) :
    0 < relocDiffLen leftSize rightSize d := by
  cases h with
  | delete l => exact hleft _
  | insert r => exact hright _
  | both l r => exact hleft _

/-- Of a symbol without bytes no relocation is compared. -/
theorem dataPair_spec {leftObj rightObj : Object} {leftSymbolIdx rightSymbolIdx : Nat} {p : DataPair}
    (h : dataPair leftObj rightObj leftSymbolIdx rightSymbolIdx = some p) :
    (∃ leftRelocs rightRelocs leftRange rightRange, ∀ d ∈ p.relocDiffs,
      d.Right leftObj rightObj leftRelocs rightRelocs leftRange rightRange) ∧
      (p.left = [] → ∀ d ∈ p.relocDiffs, d.kind ≠ .none) := by
  obtain ⟨left, -, h⟩ := Option.bind_eq_some_iff.mp h
  obtain ⟨right, -, h⟩ := Option.bind_eq_some_iff.mp h
  obtain ⟨leftStart, -, h⟩ := Option.bind_eq_some_iff.mp h
  obtain ⟨rightStart, -, h⟩ := Option.bind_eq_some_iff.mp h
  obtain ⟨leftData, hdata, h⟩ := Option.bind_eq_some_iff.mp h
  obtain ⟨rightData, -, h⟩ := Option.bind_eq_some_iff.mp h
  obtain ⟨relocDiffs, hdiffs, h⟩ := Option.bind_eq_some_iff.mp h
  obtain rfl := Option.some.inj h
  obtain ⟨hshown, hleft, -⟩ := (diffDataRelocsForRange_join ..).2 _ hdiffs
  refine ⟨⟨_, _, _, _, hshown⟩, ?_⟩
  intro hnil d hd hkind
  have hsize : left.1.size = 0 := by
    rw [slice] at hdata
    split_ifs at hdata with hle
    have hlen := length_take_drop hle
    rw [Option.some.inj hdata] at hlen
    rw [← hlen]
    exact List.length_eq_zero_iff.mpr hnil
  have hnone : left.2.relocations.filter (inRange (leftStart, leftStart + left.1.size)) = [] := by
    rw [List.filter_eq_nil_iff]
    intro reloc _
    simp [inRange, hsize]
  rw [hnone, List.map_eq_nil_iff, List.filterMap_eq_nil_iff] at hleft
  obtain ⟨x, y, rfl, -⟩ := (hshown d hd).none hkind
  cases hleft _ hd

/-- A pair of data symbols of PowerPC objects is at 100 percent exactly if its rows show no difference; then the
bytes are the same, and every relocation stands beside one that it matches. -/
theorem diffDataSymbol_hundred (captureDiffSlices : Bytes → Bytes → List DiffOp)
    (halign : ∀ left right, Aligns left right 0 0 (captureDiffSlices left right))
    {leftObj rightObj : Object} {leftDecoder rightDecoder : PpcDecoder}
    (hleft : leftObj.arch = archPpc leftDecoder) (hright : rightObj.arch = archPpc rightDecoder)
    (leftSymbolIdx rightSymbolIdx : Nat) {p : DataPair} {a b : SymbolDiff}
    (hp : dataPair leftObj rightObj leftSymbolIdx rightSymbolIdx = some p)
    (h : diffDataSymbol (dataMatchPercent captureDiffSlices) leftObj rightObj leftSymbolIdx
      rightSymbolIdx = .ok (a, b)) :
    ∃ percent, a.matchPercent = some percent ∧ b.matchPercent = some percent ∧
      0 ≤ percent ∧ percent ≤ 100 ∧
      (percent = 100 ↔ p.Unchanged (captureDiffSlices p.left p.right)) ∧
      (percent = 100 → p.left = p.right ∧ ∀ d ∈ p.relocDiffs,
        ∃ x y, d = ⟨.none, some x, some y⟩ ∧ dataRelocEq leftObj rightObj x y = true) := by
  obtain ⟨left, -, h⟩ := bind_ok_iff.mp h
  obtain ⟨right, -, h⟩ := bind_ok_iff.mp h
  obtain ⟨leftStart, -, h⟩ := bind_ok_iff.mp h
  obtain ⟨rightStart, -, h⟩ := bind_ok_iff.mp h
  obtain ⟨-, -, h⟩ := bind_ok_iff.mp h
  obtain ⟨-, -, h⟩ := bind_ok_iff.mp h
  obtain ⟨rfl, rfl⟩ := Prod.mk.inj (pure_ok_iff.mp h)
  obtain ⟨⟨leftRelocs, rightRelocs, leftRange, rightRange, hshown⟩, hempty⟩ := dataPair_spec hp
  have hpos (d : RelocDiff) (hd : d ∈ p.relocDiffs) :
      0 < relocDiffLen leftObj.arch.dataRelocSize rightObj.arch.dataRelocSize d := by
    apply (hshown d hd).len_pos
    · rw [hleft]
      exact ppcDataRelocSize_pos
    · rw [hright]
      exact ppcDataRelocSize_pos
  obtain ⟨⟨hzero, hone⟩, hiff⟩ := p.matchRatio_one_iff _ _ (halign p.left p.right) hpos hempty
  have hpercent : dataMatchPercent captureDiffSlices leftObj rightObj leftSymbolIdx rightSymbolIdx =
      100 * p.matchRatio (captureDiffSlices p.left p.right) leftObj.arch.dataRelocSize
        rightObj.arch.dataRelocSize := by
    rw [dataMatchPercent, hp]
  have hhundred : dataMatchPercent captureDiffSlices leftObj rightObj leftSymbolIdx
      rightSymbolIdx = 100 ↔ p.Unchanged (captureDiffSlices p.left p.right) := by
    rw [hpercent, ← hiff]
    constructor <;> intro h <;> linarith
  refine ⟨_, rfl, rfl, ?_, ?_, hhundred, ?_⟩
  · rw [hpercent]
    linarith
  · rw [hpercent]
    linarith
  · intro h
    have hunchanged := hhundred.mp h
    exact ⟨hunchanged.eq (halign _ _), fun d hd => (hshown d hd).none (hunchanged.2 d hd)⟩

/-- Two lists as one operation. -/
def wholeDiff (left right : Bytes) : List DiffOp :=
  if left = right then [.equal 0 0 left.length] else [.replace 0 left.length 0 right.length]

theorem wholeDiff_aligns (left right : Bytes) : Aligns left right 0 0 (wholeDiff left right) := by
  rw [wholeDiff]
  by_cases h : left = right
  · subst h
    rw [if_pos rfl]
    refine .equal (by omega) (by omega) rfl ?_
    rw [Nat.zero_add]
    exact .done
  · rw [if_neg h]
    refine .replace (by omega) (by omega) ?_
    rw [Nat.zero_add, Nat.zero_add]
    exact .done

/-- One symbol of data that points to itself. -/
def tableObject : Object where
  arch := archPpc dFormDecoder
  symbols := [{ name := "table", size := 4, kind := .object, sectionIndex := some 0 }]
  sections := [{ name := ".data", size := 4, kind := .data, data := [0, 0, 0, 0],
                 relocations := [⟨.elf 1, 0, 0, 0⟩] }]

theorem tableObject_join :
    ((∃ diffs, diffDataRelocsForRange tableObject tableObject [⟨.elf 1, 0, 0, 0⟩]
        [⟨.elf 1, 0, 0, 0⟩] (0, 4) (0, 4) = some diffs) ↔
      ResolvesIn tableObject (0, 4) [⟨.elf 1, 0, 0, 0⟩] ∧
        ResolvesIn tableObject (0, 4) [⟨.elf 1, 0, 0, 0⟩]) ∧
    ∃ diffs, diffDataRelocsForRange tableObject tableObject [⟨.elf 1, 0, 0, 0⟩]
        [⟨.elf 1, 0, 0, 0⟩] (0, 4) (0, 4) = some diffs ∧
      (diffs.filterMap (·.left)).map (·.relocation) =
        [(⟨.elf 1, 0, 0, 0⟩ : Relocation)].filter (inRange (0, 4)) :=
  ⟨(diffDataRelocsForRange_join tableObject tableObject [⟨.elf 1, 0, 0, 0⟩] [⟨.elf 1, 0, 0, 0⟩] (0, 4)
      (0, 4)).1,
    _, rfl, ((diffDataRelocsForRange_join tableObject tableObject [⟨.elf 1, 0, 0, 0⟩]
      [⟨.elf 1, 0, 0, 0⟩] (0, 4) (0, 4)).2 _ rfl).2.1⟩

theorem tableObject_hundred : ∃ p a b, dataPair tableObject tableObject 0 0 = some p ∧
    diffDataSymbol (dataMatchPercent wholeDiff) tableObject tableObject 0 0 = .ok (a, b) ∧
    ∃ percent, a.matchPercent = some percent ∧ b.matchPercent = some percent ∧
      0 ≤ percent ∧ percent ≤ 100 ∧
      (percent = 100 ↔ p.Unchanged (wholeDiff p.left p.right)) ∧
      (percent = 100 → p.left = p.right ∧ ∀ d ∈ p.relocDiffs,
        ∃ x y, d = ⟨.none, some x, some y⟩ ∧ dataRelocEq tableObject tableObject x y = true) :=
  ⟨_, _, _, rfl, rfl, diffDataSymbol_hundred wholeDiff wholeDiff_aligns rfl rfl 0 0 rfl rfl⟩

end MeleeHarness.Objdiff
