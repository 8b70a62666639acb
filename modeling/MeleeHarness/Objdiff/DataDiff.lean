import MeleeHarness.Lib.Run
import MeleeHarness.Objdiff.SymbolMatch
import Mathlib.Data.List.Forall2

/-!
# The rows of a data symbol

`diff_data_symbol` of `objdiff-core/src/diff/data.rs`: the bytes of two symbols are laid out in
two columns, in rows of 16.

* `diffDataRange_spec`: the two columns stand opposite each other, and each holds its bytes;
* `buildDataDiffRows_spec`: the rows take up a column in order, without a panic.
-/

namespace MeleeHarness.Objdiff

open Lib

inductive DataDiffKind where
  | none | replace | delete | insert
  deriving DecidableEq, Repr

structure DataDiff where
  data : Bytes
  kind : DataDiffKind
  size : Nat
  deriving DecidableEq, Repr

structure DataRelocationDiff where
  reloc : Relocation
  kind : DataDiffKind
  range : Nat × Nat

structure DataDiffRow where
  address : Nat
  segments : List DataDiff
  relocations : List DataRelocationDiff

/-! ## Columns -/

/-- `kind` and `len` of an operation. -/
def DiffOp.kindAndLen (op : DiffOp) : DataDiffKind × Nat :=
  let (l, r) := op.ranges
  match op with
  | .equal .. => (.none, max l.2 r.2)
  | .delete .. => (.delete, max l.2 r.2)
  | .insert .. => (.insert, max l.2 r.2)
  | .replace .. => (.replace, min l.2 r.2)

/-- What stands after a replacement of unequal length. -/
def overhang (left right : Bytes) : List DataDiff × List DataDiff :=
  if left.length < right.length then
    ([⟨[], .insert, right.length - left.length⟩],
      [⟨right.drop left.length, .insert, right.length - left.length⟩])
  else if right.length < left.length then
    ([⟨left.drop right.length, .delete, left.length - right.length⟩],
      [⟨[], .delete, left.length - right.length⟩])
  else ([], [])

/-- What an operation adds to the columns for the bytes in its ranges. -/
def DiffOp.columns (op : DiffOp) (left right : Bytes) : List DataDiff × List DataDiff :=
  let (kind, len) := op.kindAndLen
  let rest := if kind = .replace then overhang left right else ([], [])
  (⟨left.take len, kind, len⟩ :: rest.1, ⟨right.take len, kind, len⟩ :: rest.2)

/-- `diff_data_range`, given the operations. A slice that is out of bounds panics. -/
def diffDataRange (left right : Bytes) : List DiffOp → Option (List DataDiff × List DataDiff)
  | [] => some ([], [])
  | op :: ops => do
    let leftData ← slice left op.ranges.1.1 op.ranges.1.2
    let rightData ← slice right op.ranges.2.1 op.ranges.2.2
    let rest ← diffDataRange left right ops
    let here := op.columns leftData rightData
    return (here.1 ++ rest.1, here.2 ++ rest.2)

/-- The operations take up both sides in order, and what they call equal is equal. -/
inductive Aligns (left right : Bytes) : Nat → Nat → List DiffOp → Prop
  | done : Aligns left right left.length right.length []
  | equal {i j n : Nat} {ops : List DiffOp} : i + n ≤ left.length → j + n ≤ right.length →
      (left.drop i).take n = (right.drop j).take n → Aligns left right (i + n) (j + n) ops →
      Aligns left right i j (.equal i j n :: ops)
  | delete {i j n : Nat} {ops : List DiffOp} : i + n ≤ left.length →
      Aligns left right (i + n) j ops → Aligns left right i j (.delete i n j :: ops)
  | insert {i j n : Nat} {ops : List DiffOp} : j + n ≤ right.length →
      Aligns left right i (j + n) ops → Aligns left right i j (.insert i j n :: ops)
  | replace {i j n m : Nat} {ops : List DiffOp} : i + n ≤ left.length → j + m ≤ right.length →
      Aligns left right (i + n) (j + m) ops → Aligns left right i j (.replace i n j m :: ops)

abbrev Cell := DataDiffKind × Option UInt8

/-- A cell for each byte, and empty ones up to the size. -/
def DataDiff.cells (d : DataDiff) : List Cell :=
  d.data.map (fun b => (d.kind, some b)) ++ List.replicate (d.size - d.data.length) (d.kind, none)

/-- The cells of a column. -/
def cells (diffs : List DataDiff) : List Cell := diffs.flatMap DataDiff.cells

def Cell.same (c : Cell) : Bool := c.1 = .none

/-- How many bytes an operation calls equal. -/
def DiffOp.matched : DiffOp → Nat
  | .equal _ _ n => n
  | .delete .. => 0
  | .insert .. => 0
  | .replace .. => 0

/-- A cell of the left column and the cell beside it. -/
inductive Beside : Cell → Cell → Prop
  | none (b : UInt8) : Beside (.none, some b) (.none, some b)
  | replace (a b : UInt8) : Beside (.replace, some a) (.replace, some b)
  | delete (a : UInt8) : Beside (.delete, some a) (.delete, none)
  | insert (b : UInt8) : Beside (.insert, none) (.insert, some b)

/-- Without bytes, or with as many as its size. -/
def DataDiff.Full (d : DataDiff) : Prop := d.data = [] ∨ d.data.length = d.size

section
variable {left right : Bytes} {kind : DataDiffKind} {d : DataDiff} {n : Nat}

theorem DataDiff.Full.length_cells (h : d.Full) : d.cells.length = d.size := by
  rw [DataDiff.cells, List.length_append, List.length_map, List.length_replicate]
  rcases h with h | h
  · rw [h, List.length_nil]
    omega
  · omega

theorem cells_bytes (bytes : Bytes) (kind : DataDiffKind) :
    DataDiff.cells ⟨bytes, kind, bytes.length⟩ = bytes.map fun b => (kind, some b) := by
  simp [DataDiff.cells]

theorem cells_bare (n : Nat) (kind : DataDiffKind) :
    DataDiff.cells ⟨[], kind, n⟩ = List.replicate n (kind, none) := by
  simp [DataDiff.cells]

theorem bytes_of_cells (bytes : Bytes) (kind : DataDiffKind) :
    (bytes.map fun b => (kind, some b) : List Cell).filterMap (·.2) = bytes := by
  rw [List.filterMap_map]
  exact List.filterMap_some

/-- Two columns: cells beside each other, and the bytes of each. -/
structure Hold (left right : Bytes) (columns : List DataDiff × List DataDiff) : Prop where
  leftFull : ∀ d ∈ columns.1, d.Full
  rightFull : ∀ d ∈ columns.2, d.Full
  beside : List.Forall₂ Beside (cells columns.1) (cells columns.2)
  leftBytes : (cells columns.1).filterMap (·.2) = left
  rightBytes : (cells columns.2).filterMap (·.2) = right

theorem Hold.nil : Hold [] [] ([], []) := ⟨by simp, by simp, .nil, rfl, rfl⟩

theorem cells_append (a b : List DataDiff) : cells (a ++ b) = cells a ++ cells b :=
  List.flatMap_append

theorem Hold.append {left' right' : Bytes} {here rest : List DataDiff × List DataDiff}
    (h : Hold left right here) (h' : Hold left' right' rest) :
    Hold (left ++ left') (right ++ right') (here.1 ++ rest.1, here.2 ++ rest.2) where
  leftFull d hd := (List.mem_append.mp hd).elim (h.leftFull d) (h'.leftFull d)
  rightFull d hd := (List.mem_append.mp hd).elim (h.rightFull d) (h'.rightFull d)
  beside := by
    rw [cells_append, cells_append]
    exact List.rel_append h.beside h'.beside
  leftBytes := by rw [cells_append, List.filterMap_append, h.leftBytes, h'.leftBytes]
  rightBytes := by rw [cells_append, List.filterMap_append, h.rightBytes, h'.rightBytes]

theorem cells_single (d : DataDiff) : cells [d] = d.cells := List.flatMap_singleton ..

/-- Bytes beside bytes. -/
theorem Hold.both (hlen : left.length = n ∧ right.length = n)
    (h : List.Forall₂ (fun a b => Beside (kind, some a) (kind, some b)) left right) :
    Hold left right ([⟨left, kind, n⟩], [⟨right, kind, n⟩]) := by
  obtain ⟨rfl, hright⟩ := hlen
  refine ⟨by simp [DataDiff.Full], by simp [DataDiff.Full, hright], ?_, ?_, ?_⟩
  · rw [cells_single, cells_single, cells_bytes, ← hright, cells_bytes, List.forall₂_map_left_iff,
      List.forall₂_map_right_iff]
    exact h
  · rw [cells_single, cells_bytes, bytes_of_cells]
  · rw [cells_single, ← hright, cells_bytes, bytes_of_cells]

theorem bytes_of_bare (n : Nat) (kind : DataDiffKind) :
    (List.replicate n (kind, none) : List Cell).filterMap (·.2) = [] := by
  simp

/-- Bytes beside nothing. -/
theorem Hold.deleted (bytes : Bytes) :
    Hold bytes [] ([⟨bytes, .delete, bytes.length⟩], [⟨[], .delete, bytes.length⟩]) := by
  refine ⟨by simp [DataDiff.Full], by simp [DataDiff.Full], ?_, ?_, ?_⟩
  · rw [cells_single, cells_single, cells_bytes, cells_bare]
    induction bytes with
    | nil => exact .nil
    | cons b bytes ih => exact .cons (.delete b) ih
  · rw [cells_single, cells_bytes, bytes_of_cells]
  · rw [cells_single, cells_bare, bytes_of_bare]

theorem Hold.inserted (bytes : Bytes) :
    Hold [] bytes ([⟨[], .insert, bytes.length⟩], [⟨bytes, .insert, bytes.length⟩]) := by
  refine ⟨by simp [DataDiff.Full], by simp [DataDiff.Full], ?_, ?_, ?_⟩
  · rw [cells_single, cells_single, cells_bytes, cells_bare]
    induction bytes with
    | nil => exact .nil
    | cons b bytes ih => exact .cons (.insert b) ih
  · rw [cells_single, cells_bare, bytes_of_bare]
  · rw [cells_single, cells_bytes, bytes_of_cells]

theorem Hold.replaced (hlen : left.length = n ∧ right.length = n) :
    Hold left right ([⟨left, .replace, n⟩], [⟨right, .replace, n⟩]) := by
  refine .both hlen ?_
  rw [List.forall₂_iff_get]
  exact ⟨hlen.1.trans hlen.2.symm, fun _ _ _ => .replace _ _⟩

theorem Hold.equal (bytes : Bytes) :
    Hold bytes bytes ([⟨bytes, .none, bytes.length⟩], [⟨bytes, .none, bytes.length⟩]) := by
  refine .both ⟨rfl, rfl⟩ ?_
  rw [List.forall₂_same]
  exact fun b _ => .none b

/-- What a replacement of unequal length leaves over. -/
theorem hold_overhang (left right : Bytes) :
    Hold (left.drop right.length) (right.drop left.length) (overhang left right) := by
  rw [overhang]
  by_cases hlt : left.length < right.length
  · rw [if_pos hlt, List.drop_eq_nil_of_le hlt.le, ← List.length_drop]
    exact .inserted _
  · rw [if_neg hlt]
    by_cases hgt : right.length < left.length
    · rw [if_pos hgt, List.drop_eq_nil_of_le hgt.le, ← List.length_drop]
      exact .deleted _
    · rw [if_neg hgt, List.drop_eq_nil_of_le (by omega), List.drop_eq_nil_of_le (by omega)]
      exact .nil

theorem Aligns.le {i j : Nat} {ops : List DiffOp} (h : Aligns left right i j ops) :
    i ≤ left.length ∧ j ≤ right.length := by
  induction h with
  | done => exact ⟨le_rfl, le_rfl⟩
  | equal hi hj => omega
  | delete hi _ ih => omega
  | insert hj _ ih => omega
  | replace hi hj => omega

theorem slice_of_le {data : Bytes} {i n : Nat} (h : i + n ≤ data.length) :
    slice data i n = some ((data.drop i).take n) := if_pos h

theorem length_take_drop {data : Bytes} {i n : Nat} (h : i + n ≤ data.length) :
    ((data.drop i).take n).length = n := by
  rw [List.length_take, List.length_drop]
  omega

theorem countP_cells (diff : DataDiff) (hkind : diff.kind ≠ .none) :
    diff.cells.countP Cell.same = 0 := by
  simp [DataDiff.cells, List.countP_eq_zero, Cell.same, hkind]

theorem countP_overhang (left right : Bytes) :
    (cells (overhang left right).1).countP Cell.same = 0 := by
  rw [overhang]
  split_ifs
  · rw [cells_single, countP_cells _ (by simp)]
  · rw [cells_single, countP_cells _ (by simp)]
  · rfl

/-- One operation after another: what it takes up of both sides, and the rest. -/
theorem diffDataRange_cons {op : DiffOp} {ops : List DiffOp} {i j n m : Nat}
    (hranges : op.ranges = ((i, n), (j, m))) (hi : i + n ≤ left.length) (hj : j + m ≤ right.length)
    (hhere : ∀ x y : Bytes, x.length = n → y.length = m → x = (left.drop i).take n →
      y = (right.drop j).take m → Hold x y (op.columns x y) ∧
        (cells (op.columns x y).1).countP Cell.same = op.matched)
    (hrest : ∃ rest, diffDataRange left right ops = some rest ∧
      Hold (left.drop (i + n)) (right.drop (j + m)) rest ∧
      (cells rest.1).countP Cell.same = (ops.map DiffOp.matched).sum) :
    ∃ all, diffDataRange left right (op :: ops) = some all ∧
      Hold (left.drop i) (right.drop j) all ∧
      (cells all.1).countP Cell.same = ((op :: ops).map DiffOp.matched).sum := by
  obtain ⟨rest, hrest, hold', hcount'⟩ := hrest
  obtain ⟨hold, hcount⟩ := hhere _ _ (length_take_drop hi) (length_take_drop hj) rfl rfl
  have hall := hold.append hold'
  rw [← List.drop_drop, ← List.drop_drop, List.take_append_drop, List.take_append_drop] at hall
  refine ⟨_, ?_, hall, ?_⟩
  · simp only [diffDataRange, hranges, slice_of_le hi, slice_of_le hj, hrest]
    rfl
  · rw [cells_append, List.countP_append, hcount, hcount', List.map_cons, List.sum_cons]

/-- What the operations find is set out in two columns, opposite each other, and nothing is
lost. -/
theorem diffDataRange_spec {i j : Nat} {ops : List DiffOp} (h : Aligns left right i j ops) :
    ∃ columns, diffDataRange left right ops = some columns ∧
      Hold (left.drop i) (right.drop j) columns ∧
      (cells columns.1).countP Cell.same = (ops.map DiffOp.matched).sum := by
  induction h with
  | done =>
    refine ⟨_, rfl, ?_, rfl⟩
    rw [List.drop_length, List.drop_length]
    exact .nil
  | @equal i j n ops hi hj hsame hrest ih =>
    refine diffDataRange_cons rfl hi hj ?_ ih
    intro x y hx hy heqx heqy
    obtain rfl : x = y := by rw [heqx, heqy, hsame]
    have hcolumns : (DiffOp.equal i j n).columns x x = ([⟨x, .none, n⟩], [⟨x, .none, n⟩]) := by
      simp [DiffOp.columns, DiffOp.kindAndLen, DiffOp.ranges, ← hx]
    rw [hcolumns, ← hx]
    refine ⟨.equal x, ?_⟩
    rw [cells_single, cells_bytes]
    simp [Cell.same, List.countP_map, DiffOp.matched]
  | @delete i j n ops hi hrest ih =>
    refine diffDataRange_cons rfl hi (Nat.add_zero j ▸ hrest.le.2) ?_ ih
    intro x y hx hy _ _
    obtain rfl := List.eq_nil_of_length_eq_zero hy
    have hcolumns : (DiffOp.delete i n j).columns x [] = ([⟨x, .delete, n⟩], [⟨[], .delete, n⟩]) := by
      simp [DiffOp.columns, DiffOp.kindAndLen, DiffOp.ranges, ← hx]
    rw [hcolumns, ← hx]
    refine ⟨.deleted x, ?_⟩
    rw [cells_single, countP_cells _ (by simp), DiffOp.matched]
  | @insert i j n ops hj hrest ih =>
    refine diffDataRange_cons rfl (Nat.add_zero i ▸ hrest.le.1) hj ?_ ih
    intro x y hx hy _ _
    obtain rfl := List.eq_nil_of_length_eq_zero hx
    have hcolumns : (DiffOp.insert i j n).columns [] y = ([⟨[], .insert, n⟩], [⟨y, .insert, n⟩]) := by
      simp [DiffOp.columns, DiffOp.kindAndLen, DiffOp.ranges, ← hy]
    rw [hcolumns, ← hy]
    refine ⟨.inserted y, ?_⟩
    rw [cells_single, countP_cells _ (by simp), DiffOp.matched]
  | @replace i j n m ops hi hj hrest ih =>
    refine diffDataRange_cons rfl hi hj ?_ ih
    intro x y hx hy _ _
    have hleft : x.take (min n m) = x.take m := by
      rw [List.take_eq_take_iff]
      omega
    have hright : y.take (min n m) = y.take n := by
      rw [List.take_eq_take_iff]
      omega
    have hcolumns : (DiffOp.replace i n j m).columns x y =
        ([⟨x.take m, .replace, min n m⟩] ++ (overhang x y).1,
          [⟨y.take n, .replace, min n m⟩] ++ (overhang x y).2) := by
      simp [DiffOp.columns, DiffOp.kindAndLen, DiffOp.ranges, hleft, hright]
    have hboth : Hold (x.take m) (y.take n)
        ([⟨x.take m, .replace, min n m⟩], [⟨y.take n, .replace, min n m⟩]) := by
      refine .replaced ⟨?_, ?_⟩ <;> rw [List.length_take] <;> omega
    have hover := hold_overhang x y
    rw [hx, hy] at hover
    have hold := hboth.append hover
    rw [List.take_append_drop, List.take_append_drop] at hold
    rw [hcolumns]
    refine ⟨hold, ?_⟩
    rw [cells_append, List.countP_append, countP_overhang, cells_single, countP_cells _ (by simp),
      DiffOp.matched]

end

/-! ## Rows -/

def bytesPerRow : Nat := 16

/-- `data[start..stop]`, which panics out of bounds. -/
def subslice (data : Bytes) (start stop : Nat) : Option Bytes :=
  if start ≤ stop then slice data start (stop - start) else none

/-- `data_slice` -/
def dataSlice (data : Bytes) (start stop : Nat) : Option Bytes :=
  if data.isEmpty then some [] else subslice data start (min stop data.length)

/-- The part of a segment that overlaps with a row. -/
def overlap (rowStart rowEnd currentOffset : Nat) (diff : DataDiff) : Option (List DataDiff) := do
  let diffEnd := currentOffset + diff.size
  let startInDiff := rowStart - currentOffset
  let endInDiff := min rowEnd diffEnd - currentOffset
  if (currentOffset < rowEnd ∧ rowStart < diffEnd) ∧ startInDiff < endInDiff then
    let data ← dataSlice diff.data startInDiff endInDiff
    return [⟨data, diff.kind, endInDiff - startInDiff⟩]
  else return []

/-- The segments of a row, from an offset on. -/
def rowSegments (rowStart rowEnd : Nat) : Nat → List DataDiff → Option (List DataDiff)
  | _, [] => some []
  | currentOffset, diff :: rest => do
    let here ← overlap rowStart rowEnd currentOffset diff
    let currentOffset := currentOffset + diff.size
    if rowStart + bytesPerRow ≤ currentOffset then return here
    return here ++ (← rowSegments rowStart rowEnd currentOffset rest)

def buildDataDiffRow (dataDiffs : List DataDiff) (relocDiffs : List DataRelocationDiff)
    (symbolAddress rowIndex : Nat) : Option DataDiffRow := do
  let rowStart := rowIndex * bytesPerRow
  let rowEnd := rowStart + bytesPerRow
  let address := symbolAddress + rowStart
  let segments ← rowSegments rowStart rowEnd 0 dataDiffs
  let rowEndAbsolute := address + bytesPerRow
  let relocations := relocDiffs.filter fun rd => rd.range.1 < rowEndAbsolute ∧ address < rd.range.2
  return { address, segments, relocations }

def buildDataDiffRows (segments : List DataDiff) (relocations : List DataRelocationDiff)
    (symbolAddress : Nat) : Option (List DataDiffRow) :=
  let totalLen := (segments.map (·.size)).sum
  let numRows := (totalLen + (bytesPerRow - 1)) / bytesPerRow
  (List.range numRows).mapM fun rowIndex =>
    buildDataDiffRow segments relocations symbolAddress rowIndex

section
variable {d : DataDiff} {diffs : List DataDiff} {start stop offset : Nat}

/-- The cells of a part of a segment. -/
theorem cells_part (h : d.Full) (hstart : start < stop) (hstop : stop ≤ d.size) :
    ∃ data, dataSlice d.data start stop = some data ∧
      (⟨data, d.kind, stop - start⟩ : DataDiff).Full ∧
      DataDiff.cells ⟨data, d.kind, stop - start⟩ = (d.cells.take stop).drop start := by
  obtain ⟨data, kind, size⟩ := d
  rcases h with h | h
  · simp only at h hstop
    subst h
    refine ⟨[], rfl, .inl rfl, ?_⟩
    rw [cells_bare, cells_bare, List.take_replicate, List.drop_replicate, Nat.min_eq_left hstop]
  · simp only at h hstop
    subst h
    have hne : data.isEmpty = false := by
      cases data with
      | nil => exact absurd hstop (by simp; omega)
      | cons => rfl
    have hslice : subslice data start (min stop data.length) =
        some ((data.drop start).take (stop - start)) := by
      rw [Nat.min_eq_left hstop, subslice, if_pos hstart.le, slice_of_le (by omega)]
    have hlen : ((data.drop start).take (stop - start)).length = stop - start :=
      length_take_drop (by omega)
    have hcells := cells_bytes ((data.drop start).take (stop - start)) kind
    rw [hlen] at hcells
    refine ⟨_, by simp [dataSlice, hne, hslice], .inr hlen, ?_⟩
    rw [hcells, cells_bytes, ← List.map_take, ← List.map_drop, List.drop_take]

/-- What one segment gives to a row. -/
theorem overlap_spec (h : d.Full) (hoffset : offset < stop) :
    ∃ here, overlap start stop offset d = some here ∧ (∀ d ∈ here, d.Full) ∧
      cells here = (d.cells.take (stop - offset)).drop (start - offset) := by
  rw [overlap]
  have hlen := h.length_cells
  by_cases hcond : (offset < stop ∧ start < offset + d.size) ∧
      start - offset < min stop (offset + d.size) - offset
  · rw [if_pos hcond]
    obtain ⟨data, hdata, hfull, hcells⟩ := cells_part h hcond.2 (by omega)
    rw [hdata]
    refine ⟨[_], rfl, by simpa using hfull, ?_⟩
    rw [cells_single, hcells]
    congr 1
    rw [List.take_eq_take_iff]
    omega
  · rw [if_neg hcond]
    refine ⟨[], rfl, by simp, ?_⟩
    rw [List.drop_eq_nil_of_le]
    · rfl
    · rw [List.length_take]
      omega

/-- A row has the cells in its range. -/
theorem rowSegments_spec (start : Nat) (h : ∀ d ∈ diffs, d.Full) (hoffset : offset < start + bytesPerRow) :
    ∃ segments, rowSegments start (start + bytesPerRow) offset diffs = some segments ∧
      (∀ d ∈ segments, d.Full) ∧
      cells segments = ((cells diffs).take (start + bytesPerRow - offset)).drop (start - offset) := by
  induction diffs generalizing offset with
  | nil => exact ⟨[], rfl, by simp, by simp [cells]⟩
  | cons d rest ih =>
    have hd := h d List.mem_cons_self
    have hlen := hd.length_cells
    obtain ⟨here, hhere, hfull, hcells⟩ : ∃ here, overlap start _ offset d = some here ∧ _ :=
      overlap_spec hd hoffset
    rw [rowSegments, hhere, Option.bind_eq_bind, Option.bind_some]
    dsimp only
    have hsplit : ((cells (d :: rest)).take (start + bytesPerRow - offset)).drop (start - offset) =
        cells here ++ ((cells rest).take (start + bytesPerRow - (offset + d.size))).drop
          (start - (offset + d.size)) := by
      rw [hcells]
      change ((d.cells ++ cells rest).take _).drop _ = _
      rw [List.take_append, List.drop_append, hlen, List.length_take, hlen, Nat.sub_sub, Nat.sub_sub]
      congr 1
      by_cases hbreak : start + bytesPerRow ≤ offset + d.size
      · have hnone : start + bytesPerRow - (offset + d.size) = 0 := by omega
        rw [hnone, List.take_zero, List.drop_nil, List.drop_nil]
      · congr 1
        omega
    by_cases hbreak : start + bytesPerRow ≤ offset + d.size
    · rw [if_pos hbreak]
      refine ⟨here, rfl, hfull, ?_⟩
      have hnone : start + bytesPerRow - (offset + d.size) = 0 := by omega
      rw [hsplit, hnone, List.take_zero, List.drop_nil, List.append_nil]
    · rw [if_neg hbreak]
      obtain ⟨segments, hrest, hfull', hcells'⟩ :=
        ih (fun d hd => h d (List.mem_cons_of_mem _ hd)) (Nat.lt_of_not_le hbreak)
      rw [hrest]
      refine ⟨here ++ segments, rfl, ?_, ?_⟩
      · intro d hd
        exact (List.mem_append.mp hd).elim (hfull d) (hfull' d)
      · rw [hsplit, cells_append, hcells']

theorem flatMap_chunks {α : Type} (xs : List α) (m : Nat) :
    ((List.range m).flatMap fun k => (xs.drop (k * 16)).take 16) = xs.take (m * 16) := by
  induction m with
  | zero => rfl
  | succ m ih =>
    rw [List.range_succ, List.flatMap_append, ih, List.flatMap_singleton, Nat.succ_mul, List.take_add]

/-- The rows take up a column in order: each has the next 16 cells, the last one what is left. -/
theorem buildDataDiffRows_spec (h : ∀ d ∈ diffs, d.Full) (relocations : List DataRelocationDiff)
    (symbolAddress : Nat) : ∃ rows, buildDataDiffRows diffs relocations symbolAddress = some rows ∧
      rows.length = ((cells diffs).length + 15) / 16 ∧
      (rows.flatMap fun row => cells row.segments) = cells diffs ∧
      ∀ k row, rows[k]? = some row → row.address = symbolAddress + k * 16 ∧
        (∀ d ∈ row.segments, d.Full) ∧
        cells row.segments = ((cells diffs).drop (k * 16)).take 16 ∧
        row.relocations = relocations.filter fun rd =>
          rd.range.1 < row.address + 16 ∧ row.address < rd.range.2 := by
  have hsum : (cells diffs).length = (diffs.map (·.size)).sum := by
    rw [cells, List.length_flatMap]
    congr 1
    exact List.map_congr_left fun d hd => (h d hd).length_cells
  have hrow : ∀ k, ∃ row, buildDataDiffRow diffs relocations symbolAddress k = some row ∧
      row.address = symbolAddress + k * 16 ∧ (∀ d ∈ row.segments, d.Full) ∧
      cells row.segments = ((cells diffs).drop (k * 16)).take 16 ∧
      row.relocations = relocations.filter fun rd =>
        rd.range.1 < row.address + 16 ∧ row.address < rd.range.2 := by
    intro k
    obtain ⟨segments, hsegments, hfull, hcells⟩ :=
      rowSegments_spec (k * bytesPerRow) h (Nat.add_pos_right _ (by decide))
    rw [buildDataDiffRow]
    dsimp only
    rw [hsegments]
    refine ⟨_, rfl, rfl, hfull, ?_, rfl⟩
    rw [hcells, Nat.sub_zero, Nat.sub_zero, List.drop_take, Nat.add_sub_cancel_left]
    rfl
  choose row hbuild hspec using hrow
  refine ⟨_, mapM_some_iff.mpr (List.forall₂_map_right_iff.mpr
    (List.forall₂_same.mpr fun k _ => hbuild k)), ?_, ?_, ?_⟩
  · rw [List.length_map, List.length_range, hsum]
    rfl
  · rw [List.flatMap_map, funext fun k => (hspec k).2.2.1, flatMap_chunks, ← hsum]
    apply List.take_of_length_le
    rw [bytesPerRow]
    omega
  · intro k r hr
    rw [List.getElem?_map, Option.map_eq_some_iff] at hr
    obtain ⟨k', hk, rfl⟩ := hr
    obtain ⟨-, rfl⟩ := List.getElem?_eq_some_iff.mp hk
    rw [List.getElem_range]
    exact hspec k

end

/-- The rows of the two columns. -/
def diffDataRows (ops : List DiffOp) (left right : Bytes)
    (leftRelocs rightRelocs : List DataRelocationDiff) (leftAddress rightAddress : Nat) :
    Option (List DataDiffRow × List DataDiffRow) := do
  let (leftDataDiff, rightDataDiff) ← diffDataRange left right ops
  let leftRows ← buildDataDiffRows leftDataDiff leftRelocs leftAddress
  let rightRows ← buildDataDiffRows rightDataDiff rightRelocs rightAddress
  return (leftRows, rightRows)

/-- Nothing panics, both columns have as many rows, a row stands opposite a row cell by cell, all
but the last are full, and read from above to below a column is its symbol's bytes. -/
theorem diffDataRows_spec (ops : List DiffOp) (left right : Bytes)
    (leftRelocs rightRelocs : List DataRelocationDiff) (leftAddress rightAddress : Nat)
    (h : Aligns left right 0 0 ops) :
    ∃ leftRows rightRows, diffDataRows ops left right leftRelocs rightRelocs leftAddress
        rightAddress = some (leftRows, rightRows) ∧
      leftRows.length = rightRows.length ∧
      (leftRows.flatMap fun row => cells row.segments).filterMap (·.2) = left ∧
      (rightRows.flatMap fun row => cells row.segments).filterMap (·.2) = right ∧
      ∀ k l r, leftRows[k]? = some l → rightRows[k]? = some r →
        l.address = leftAddress + k * 16 ∧ r.address = rightAddress + k * 16 ∧
        List.Forall₂ Beside (cells l.segments) (cells r.segments) ∧
        (k + 1 < leftRows.length → (cells l.segments).length = 16) ∧
        0 < (cells l.segments).length ∧ (cells l.segments).length ≤ 16 := by
  obtain ⟨⟨leftDiffs, rightDiffs⟩, hrange, hold, -⟩ := diffDataRange_spec h
  obtain ⟨leftRows, hleft, hleftLength, hleftAll, hleftRow⟩ :=
    buildDataDiffRows_spec hold.leftFull leftRelocs leftAddress
  obtain ⟨rightRows, hright, hrightLength, hrightAll, hrightRow⟩ :=
    buildDataDiffRows_spec hold.rightFull rightRelocs rightAddress
  have hlength := hold.beside.length_eq
  refine ⟨leftRows, rightRows, ?_, ?_, ?_, ?_, ?_⟩
  · simp [diffDataRows, hrange, hleft, hright]
  · rw [hleftLength, hrightLength, hlength]
  · rw [hleftAll, hold.leftBytes, List.drop_zero]
  · rw [hrightAll, hold.rightBytes, List.drop_zero]
  · intro k l r hl hr
    obtain ⟨hladdress, -, hlcells, -⟩ := hleftRow k l hl
    obtain ⟨hraddress, -, hrcells, -⟩ := hrightRow k r hr
    have hk := (List.getElem?_eq_some_iff.mp hl).1
    refine ⟨hladdress, hraddress, ?_, ?_⟩
    · rw [hlcells, hrcells]
      exact List.forall₂_take 16 (List.forall₂_drop (k * 16) hold.beside)
    · rw [hlcells, List.length_take, List.length_drop]
      omega

theorem aligns_replaced : Aligns [1, 2, 3] [1, 9, 9, 3] 0 0
    [.equal 0 0 1, .replace 1 1 1 2, .equal 2 3 1] :=
  .equal (by decide) (by decide) rfl
    (.replace (by decide) (by decide) (.equal (by decide) (by decide) rfl .done))

theorem diffDataRows_replaced :
    Aligns [1, 2, 3] [1, 9, 9, 3] 0 0 [.equal 0 0 1, .replace 1 1 1 2, .equal 2 3 1] ∧
    ∃ leftRows rightRows, diffDataRows [.equal 0 0 1, .replace 1 1 1 2, .equal 2 3 1] [1, 2, 3]
        [1, 9, 9, 3] [] [] 32 48 = some (leftRows, rightRows) ∧
      leftRows.length = rightRows.length ∧
      (leftRows.flatMap fun row => cells row.segments).filterMap (·.2) = [1, 2, 3] ∧
      (rightRows.flatMap fun row => cells row.segments).filterMap (·.2) = [1, 9, 9, 3] ∧
      ∀ k l r, leftRows[k]? = some l → rightRows[k]? = some r →
        l.address = 32 + k * 16 ∧ r.address = 48 + k * 16 ∧
        List.Forall₂ Beside (cells l.segments) (cells r.segments) ∧
        (k + 1 < leftRows.length → (cells l.segments).length = 16) ∧
        0 < (cells l.segments).length ∧ (cells l.segments).length ≤ 16 :=
  ⟨aligns_replaced, diffDataRows_spec _ _ _ [] [] 32 48 aligns_replaced⟩

end MeleeHarness.Objdiff
