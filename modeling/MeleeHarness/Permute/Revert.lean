import MeleeHarness.Permute.Narrow

/-!
# Reverting changed lines

The edits of one pass are computed once, against the source it starts from, and
tried from the last one to the first. Whatever is accepted, the text stays an
interleaving of lines of the base and of that source.

* `opcodeSpans_chained`: the edits of an opcode cover its lines in order;
* `revertSpans_eq`: reverting from the last edit to the first leaves the lines
  before each edit alone, so its offsets are still right when its turn comes;
* `revertAccepted_interleaving`: the text at the end of a pass.
-/

namespace MeleeHarness.Permute

open MeleeHarness.Lib

/-- `_revert_edit` -/
def revertEdit (base cand : Bytes) (edit : NarrowEdit) : Bytes :=
  cand.take edit.candStart ++ (base.take edit.baseEnd).drop edit.baseStart ++
    cand.drop edit.candEnd

/-- The revert of one edit, if it is accepted. -/
def revertIf (base : Bytes) (edit : NarrowEdit × Bool) (current : Bytes) : Bytes :=
  if edit.2 then revertEdit base current edit.1 else current

/-- What a pass makes of `cand`; `accept` says which edits it accepts. -/
def revertAccepted (base cand : Bytes) (edits : List NarrowEdit) (accept : List Bool) : Bytes :=
  (edits.zip accept).reverse.foldl (fun current edit => revertIf base edit current) cand

/-! ## What the matcher gives -/

/-- Every opcode starts where the one before it ends. -/
def LinedUp {m n : Nat} : Nat → Nat → List (Opcode m n) → Prop
  | i, j, [] => i = m ∧ j = n
  | i, j, op :: ops => op.i1 = i ∧ op.j1 = j ∧ LinedUp op.i2 op.j2 ops

/-- The opcodes of a matcher are an ordered partition of both lists of lines. -/
structure IsPartition (a b : List Bytes) (ops : List (Opcode a.length b.length)) : Prop where
  linedUp : LinedUp 0 0 ops
  equal : ∀ op ∈ ops, op.tag = .equal → (a.take op.i2).drop op.i1 = (b.take op.j2).drop op.j1
  insert : ∀ op ∈ ops, op.tag = .insert → op.i1 = op.i2
  delete : ∀ op ∈ ops, op.tag = .delete → op.j1 = op.j2

/-! ## Interleavings -/

/-- Lines that are equal on both sides, or the two texts of an edit. -/
inductive Piece where
  | kept (text : Bytes)
  | changed (base cand : Bytes)
  deriving DecidableEq, Repr

/-- The text of the lines `i1` to `i2`. -/
def linesText (lines : List Bytes) (i1 i2 : Nat) : Bytes := ((lines.take i2).drop i1).flatten

def spanPiece (baseLines candLines : List Bytes) : OpTag × Nat × Nat × Nat × Nat → Piece
  | (_, i1, i2, j1, j2) => .changed (linesText baseLines i1 i2) (linesText candLines j1 j2)

def opcodePieces {m n : Nat} (baseLines candLines : List Bytes) (granularity : Granularity)
    (op : Opcode m n) : List Piece :=
  if op.tag = .equal then [.kept (linesText candLines op.j1 op.j2)]
  else (opcodeSpans granularity op).map (spanPiece baseLines candLines)

/-- The equal lines, and for each edit the base's text if it is accepted and the
candidate's if it is not. -/
def interleaving : List Piece → List Bool → Bytes
  | [], _ => []
  | .kept text :: pieces, accept => text ++ interleaving pieces accept
  | .changed base _ :: pieces, true :: accept => base ++ interleaving pieces accept
  | .changed _ cand :: pieces, false :: accept => cand ++ interleaving pieces accept
  | .changed _ cand :: pieces, [] => cand ++ interleaving pieces []

/-! ## Lines and offsets -/

theorem linesText_split (lines : List Bytes) {a b c : Nat} (hab : a ≤ b) (hbc : b ≤ c) :
    linesText lines a c = linesText lines a b ++ linesText lines b c := by
  have hsplit : (lines.take c).drop a = (lines.take b).drop a ++ (lines.take c).drop b := by
    have htake : lines.take c = lines.take b ++ (lines.take c).drop b := by
      conv_lhs => rw [← List.take_append_drop b (lines.take c)]
      rw [List.take_take, Nat.min_eq_left hbc]
    conv_lhs => rw [htake]
    by_cases hlen : b ≤ lines.length
    · rw [List.drop_append_of_le_length (by simp; omega)]
    · rw [List.drop_eq_nil_of_le (by simp; omega : (lines.take c).length ≤ b)]
      simp
  rw [linesText, hsplit, List.flatten_append]
  rfl

theorem linesText_self (lines : List Bytes) (i : Nat) : linesText lines i i = [] := by
  simp [linesText]

theorem linesText_all (t : Bytes) : linesText (linesKeepends t) 0 (linesKeepends t).length = t := by
  simp [linesText, linesKeepends_flatten]

theorem scanl_offset (lines : List Bytes) (pos i : Nat) (h : i ≤ lines.length) :
    (lines.scanl (fun pos line => pos + line.length) pos).getD i 0 =
      pos + (lines.take i).flatten.length := by
  induction lines generalizing pos i with
  | nil =>
    obtain rfl : i = 0 := by simpa using h
    rfl
  | cons line lines ih =>
    cases i with
    | zero => simp
    | succ i =>
      rw [List.scanl_cons, List.getD_cons_succ, ih _ _ (by simpa using h)]
      simp [Nat.add_assoc]

theorem lineOffsets_getD (lines : List Bytes) {i : Nat} (h : i ≤ lines.length) :
    (lineOffsets lines).getD i 0 = (linesText lines 0 i).length := by
  rw [lineOffsets, scanl_offset lines 0 i h, linesText]
  simp

/-- The bytes between two offsets are the lines between them. -/
theorem slice_offsets {t : Bytes} {i1 i2 : Nat} (h : i1 ≤ i2)
    (hi : i2 ≤ (linesKeepends t).length) :
    (t.take (linesText (linesKeepends t) 0 i2).length).drop
      (linesText (linesKeepends t) 0 i1).length = linesText (linesKeepends t) i1 i2 := by
  have hall := linesText_split (linesKeepends t) (Nat.zero_le i2) hi
  rw [linesText_all] at hall
  have htake : t.take (linesText (linesKeepends t) 0 i2).length =
      linesText (linesKeepends t) 0 i2 := by
    conv_lhs =>
      rhs
      rw [hall]
    exact List.take_left
  rw [htake, linesText_split _ (Nat.zero_le i1) h, List.drop_left]

/-! ## Spans in order -/

/-- Spans each of which starts where the one before it ends, on both sides. -/
def Chained (i j i' j' : Nat) : List (OpTag × Nat × Nat × Nat × Nat) → Prop
  | [] => i = i' ∧ j = j'
  | (_, i1, i2, j1, j2) :: spans =>
    i1 = i ∧ j1 = j ∧ i ≤ i2 ∧ j ≤ j2 ∧ Chained i2 j2 i' j' spans

theorem Chained.le {i j i' j' : Nat} {spans : List (OpTag × Nat × Nat × Nat × Nat)}
    (h : Chained i j i' j' spans) : i ≤ i' ∧ j ≤ j' := by
  induction spans generalizing i j with
  | nil => exact ⟨h.1.le, h.2.le⟩
  | cons span spans ih =>
    obtain ⟨-, -, hi, hj, hrest⟩ := h
    obtain ⟨hi', hj'⟩ := ih hrest
    exact ⟨hi.trans hi', hj.trans hj'⟩

theorem Chained.append {i j i' j' i'' j'' : Nat}
    {spans spans' : List (OpTag × Nat × Nat × Nat × Nat)} (h : Chained i j i' j' spans)
    (h' : Chained i' j' i'' j'' spans') : Chained i j i'' j'' (spans ++ spans') := by
  induction spans generalizing i j with
  | nil =>
    obtain ⟨rfl, rfl⟩ := h
    exact h'
  | cons span spans ih =>
    obtain ⟨hi1, hj1, hi, hj, hrest⟩ := h
    exact ⟨hi1, hj1, hi, hj, ih hrest⟩

theorem chained_inserts (i j count : Nat) :
    Chained i j i (j + count)
      ((List.range' j count).map fun j => (OpTag.insert, i, i, j, j + 1)) := by
  induction count generalizing j with
  | zero => exact ⟨rfl, rfl⟩
  | succ count ih =>
    have h := ih (j + 1)
    rw [Nat.add_right_comm] at h
    exact ⟨rfl, rfl, le_refl i, Nat.le_succ j, h⟩

theorem chained_deletes (i j count : Nat) :
    Chained i j (i + count) j
      ((List.range' i count).map fun i => (OpTag.delete, i, i + 1, j, j)) := by
  induction count generalizing i with
  | zero => exact ⟨rfl, rfl⟩
  | succ count ih =>
    have h := ih (i + 1)
    rw [Nat.add_right_comm] at h
    exact ⟨rfl, rfl, Nat.le_succ i, le_refl j, h⟩

theorem chained_replaces (i j count : Nat) :
    Chained i j (i + count) (j + count) ((List.range count).map fun k =>
      (OpTag.replace, i + k, i + k + 1, j + k, j + k + 1)) := by
  induction count with
  | zero => exact ⟨rfl, rfl⟩
  | succ count ih =>
    rw [List.range_succ, List.map_append]
    apply ih.append
    exact ⟨rfl, rfl, Nat.le_succ _, Nat.le_succ _, rfl, rfl⟩

theorem opcodeSpans_chained {m n : Nat} {op : Opcode m n} (granularity : Granularity)
    (hequal : op.tag ≠ .equal) (hinsert : op.tag = .insert → op.i1 = op.i2)
    (hdelete : op.tag = .delete → op.j1 = op.j2) :
    Chained op.i1 op.j1 op.i2 op.j2 (opcodeSpans granularity op) := by
  obtain ⟨tag, i1, i2, j1, j2, hi, hm, hj, hn⟩ := op
  simp only at hequal hinsert hdelete
  have whole (tag : OpTag) : Chained i1 j1 i2 j2 [(tag, i1, i2, j1, j2)] :=
    ⟨rfl, rfl, hi, hj, rfl, rfl⟩
  cases tag with
  | equal => exact absurd rfl hequal
  | insert =>
    cases granularity with
    | chunk => exact whole .insert
    | line =>
      obtain rfl : i1 = i2 := hinsert rfl
      have h := chained_inserts i1 j1 (j2 - j1)
      rwa [Nat.add_sub_cancel' hj] at h
  | delete =>
    cases granularity with
    | chunk => exact whole .delete
    | line =>
      obtain rfl : j1 = j2 := hdelete rfl
      have h := chained_deletes i1 j1 (i2 - i1)
      rwa [Nat.add_sub_cancel' hi] at h
  | replace =>
    cases granularity with
    | chunk => exact whole .replace
    | line =>
      simp only [opcodeSpans]
      by_cases hle : i2 - i1 ≤ j2 - j1
      · have hi2 : i1 + (i2 - i1) = i2 := by omega
        have hreplace := chained_replaces i1 j1 (i2 - i1)
        have hrest := chained_inserts i2 (j1 + (i2 - i1)) (j2 - (j1 + (i2 - i1)))
        rw [Nat.add_sub_cancel' (by omega)] at hrest
        rw [hi2] at hreplace
        rw [Nat.min_eq_left hle, hi2, Nat.sub_self, List.range'_zero, List.map_nil, List.append_nil]
        exact hreplace.append hrest
      · have hj2 : j1 + (j2 - j1) = j2 := by omega
        have hreplace := chained_replaces i1 j1 (j2 - j1)
        have hrest := chained_deletes (i1 + (j2 - j1)) j2 (i2 - (i1 + (j2 - j1)))
        rw [Nat.add_sub_cancel' (by omega)] at hrest
        rw [hj2] at hreplace
        rw [Nat.min_eq_right (by omega), hj2, Nat.sub_self, List.range'_zero, List.map_nil,
          List.append_nil]
        exact hreplace.append hrest

/-! ## One pass -/

section
variable (base cand : Bytes)

/-- The edit for a span, in bytes. -/
def spanEdit : OpTag × Nat × Nat × Nat × Nat → NarrowEdit
  | (tag, i1, i2, j1, j2) =>
    ⟨tag, (lineOffsets (linesKeepends base)).getD i1 0, (lineOffsets (linesKeepends base)).getD i2 0,
      (lineOffsets (linesKeepends cand)).getD j1 0, (lineOffsets (linesKeepends cand)).getD j2 0,
      i1 + 1, i2, j1 + 1, j2⟩

theorem changedLineEdits_eq (env : Narrower) (granularity : Granularity) :
    changedLineEdits env base cand granularity =
      ((env.getOpcodes (linesKeepends base) (linesKeepends cand)).flatMap
        (opcodeSpans granularity)).map (spanEdit base cand) := rfl

/-- The span of the candidate that an edit covers is replaced by its base lines. -/
theorem revertEdit_spanEdit {tag : OpTag} {i1 i2 j1 j2 : Nat} (hi : i1 ≤ i2)
    (hbase : i2 ≤ (linesKeepends base).length) (hj : j1 ≤ j2)
    (hcand : j2 ≤ (linesKeepends cand).length) (rest : Bytes) :
    revertEdit base (linesText (linesKeepends cand) 0 j2 ++ rest)
        (spanEdit base cand (tag, i1, i2, j1, j2)) =
      linesText (linesKeepends cand) 0 j1 ++ (linesText (linesKeepends base) i1 i2 ++ rest) := by
  simp only [revertEdit, spanEdit]
  rw [lineOffsets_getD _ (hi.trans hbase), lineOffsets_getD _ hbase,
    lineOffsets_getD _ (hj.trans hcand), lineOffsets_getD _ hcand, slice_offsets hi hbase,
    List.drop_left, linesText_split _ (Nat.zero_le j1) hj]
  simp

variable {base cand}

/-- The offsets of an edit are right when its turn comes: what has been reverted by
then stands behind it. -/
theorem revertSpans_eq {spans : List (OpTag × Nat × Nat × Nat × Nat)} {i j i' j' : Nat}
    (h : Chained i j i' j' spans) (hbase : i' ≤ (linesKeepends base).length)
    (hcand : j' ≤ (linesKeepends cand).length) {accept : List Bool}
    (hlen : accept.length = spans.length) (rest : Bytes) :
    ((spans.map (spanEdit base cand)).zip accept).foldr (revertIf base)
        (linesText (linesKeepends cand) 0 j' ++ rest) =
      linesText (linesKeepends cand) 0 j ++
        (interleaving (spans.map (spanPiece (linesKeepends base) (linesKeepends cand))) accept ++
          rest) := by
  induction spans generalizing i j accept with
  | nil =>
    obtain ⟨rfl, rfl⟩ := h
    simp [interleaving]
  | cons span spans ih =>
    obtain ⟨tag, i1, i2, j1, j2⟩ := span
    obtain ⟨rfl, rfl, hi, hj, hrest⟩ := h
    obtain ⟨accepted, accept, rfl⟩ := List.exists_cons_of_length_eq_add_one hlen
    obtain ⟨hi2, hj2⟩ := hrest.le
    simp only [List.map_cons, List.zip_cons_cons, List.foldr_cons, spanPiece]
    rw [ih hrest (by simpa using hlen)]
    cases accepted with
    | true =>
      rw [revertIf, if_pos rfl, revertEdit_spanEdit base cand hi (hi2.trans hbase) hj
        (hj2.trans hcand), interleaving, List.append_assoc]
    | false =>
      simp only [revertIf, Bool.false_eq_true, ↓reduceIte, interleaving]
      rw [linesText_split _ (Nat.zero_le j1) hj]
      simp

theorem interleaving_append (baseLines candLines : List Bytes)
    (spans : List (OpTag × Nat × Nat × Nat × Nat)) (pieces : List Piece) {first : List Bool}
    (hlen : first.length = spans.length) (later : List Bool) :
    interleaving (spans.map (spanPiece baseLines candLines) ++ pieces) (first ++ later) =
      interleaving (spans.map (spanPiece baseLines candLines)) first ++
        interleaving pieces later := by
  induction spans generalizing first with
  | nil =>
    obtain rfl := List.eq_nil_of_length_eq_zero hlen
    rfl
  | cons span spans ih =>
    obtain ⟨accepted, first, rfl⟩ := List.exists_cons_of_length_eq_add_one hlen
    have ih := @ih first (by simpa using hlen)
    cases accepted <;> simp [spanPiece, interleaving, ih]

/-- The pieces that opcodes stand for. -/
def pieces {m n : Nat} (base cand : Bytes) (granularity : Granularity) (ops : List (Opcode m n)) :
    List Piece :=
  ops.flatMap (opcodePieces (linesKeepends base) (linesKeepends cand) granularity)

theorem pieces_cons {m n : Nat} (base cand : Bytes) (granularity : Granularity) (op : Opcode m n)
    (ops : List (Opcode m n)) :
    pieces base cand granularity (op :: ops) =
      opcodePieces (linesKeepends base) (linesKeepends cand) granularity op ++
        pieces base cand granularity ops := rfl

variable {granularity : Granularity}
  {ops : List (Opcode (linesKeepends base).length (linesKeepends cand).length)} {i j : Nat}

/-- The opcodes of a partition from lines `i` and `j` on. -/
structure PartitionFrom (base cand : Bytes) (i j : Nat)
    (ops : List (Opcode (linesKeepends base).length (linesKeepends cand).length)) : Prop where
  linedUp : LinedUp i j ops
  equal : ∀ op ∈ ops, op.tag = .equal → linesText (linesKeepends base) op.i1 op.i2 =
    linesText (linesKeepends cand) op.j1 op.j2
  insert : ∀ op ∈ ops, op.tag = .insert → op.i1 = op.i2
  delete : ∀ op ∈ ops, op.tag = .delete → op.j1 = op.j2

theorem PartitionFrom.tail
    {op : Opcode (linesKeepends base).length (linesKeepends cand).length}
    (h : PartitionFrom base cand i j (op :: ops)) :
    PartitionFrom base cand op.i2 op.j2 ops where
  linedUp := h.linedUp.2.2
  equal op' hop := h.equal op' (List.mem_cons_of_mem _ hop)
  insert op' hop := h.insert op' (List.mem_cons_of_mem _ hop)
  delete op' hop := h.delete op' (List.mem_cons_of_mem _ hop)

theorem revertOps_eq (h : PartitionFrom base cand i j ops)
    {accept : List Bool} (hlen : accept.length = (ops.flatMap (opcodeSpans granularity)).length) :
    (((ops.flatMap (opcodeSpans granularity)).map (spanEdit base cand)).zip accept).foldr
        (revertIf base) cand =
      linesText (linesKeepends cand) 0 j ++ interleaving (pieces base cand granularity ops) accept := by
  induction ops generalizing i j accept with
  | nil =>
    obtain ⟨-, rfl⟩ := h.linedUp
    simp [pieces, interleaving, linesText_all]
  | cons op ops ih =>
    obtain ⟨rfl, rfl, -⟩ := h.linedUp
    rw [List.flatMap_cons] at hlen ⊢
    by_cases hequal : op.tag = .equal
    · have hspans : opcodeSpans granularity op = [] := by simp [opcodeSpans, hequal]
      rw [hspans, List.nil_append] at hlen ⊢
      rw [ih h.tail hlen, linesText_split _ (Nat.zero_le _) op.j_le, pieces_cons, opcodePieces,
        if_pos hequal]
      simp [interleaving]
    · have hchain := opcodeSpans_chained granularity hequal (h.insert op List.mem_cons_self)
        (h.delete op List.mem_cons_self)
      rw [List.length_append] at hlen
      obtain ⟨first, later, rfl, hfirst⟩ :
          ∃ first later, accept = first ++ later ∧
            first.length = (opcodeSpans granularity op).length := by
        refine ⟨accept.take (opcodeSpans granularity op).length, accept.drop _,
          (List.take_append_drop _ accept).symm, ?_⟩
        rw [List.length_take]
        omega
      rw [List.length_append] at hlen
      rw [List.map_append, List.zip_append (by simpa using hfirst.symm), List.foldr_append,
        ih h.tail (by omega), revertSpans_eq hchain op.i2_le op.j2_le hfirst, pieces_cons,
        opcodePieces, if_neg hequal, interleaving_append _ _ _ _ hfirst]

/-! ## All or nothing -/

/-- The lines of one side. -/
def sideText (base cand : Bytes) (ofBase : Bool) (i i' j j' : Nat) : Bytes :=
  if ofBase then linesText (linesKeepends base) i i' else linesText (linesKeepends cand) j j'

theorem sideText_split (ofBase : Bool) {i₀ i₁ i₂ j₀ j₁ j₂ : Nat} (hi : i₀ ≤ i₁) (hi' : i₁ ≤ i₂)
    (hj : j₀ ≤ j₁) (hj' : j₁ ≤ j₂) :
    sideText base cand ofBase i₀ i₂ j₀ j₂ =
      sideText base cand ofBase i₀ i₁ j₀ j₁ ++ sideText base cand ofBase i₁ i₂ j₁ j₂ := by
  cases ofBase with
  | true => exact linesText_split _ hi hi'
  | false => exact linesText_split _ hj hj'

theorem interleaving_spans {spans : List (OpTag × Nat × Nat × Nat × Nat)} {i' j' : Nat}
    (h : Chained i j i' j' spans) (ofBase : Bool) :
    interleaving (spans.map (spanPiece (linesKeepends base) (linesKeepends cand)))
        (List.replicate spans.length ofBase) = sideText base cand ofBase i i' j j' := by
  induction spans generalizing i j with
  | nil =>
    obtain ⟨rfl, rfl⟩ := h
    cases ofBase <;> simp [interleaving, sideText, linesText_self]
  | cons span spans ih =>
    obtain ⟨tag, i1, i2, j1, j2⟩ := span
    obtain ⟨rfl, rfl, hi, hj, hrest⟩ := h
    obtain ⟨hi2, hj2⟩ := hrest.le
    rw [sideText_split ofBase hi hi2 hj hj2, ← ih hrest]
    cases ofBase <;> rfl

theorem LinedUp.le {m n : Nat} {ops : List (Opcode m n)} (h : LinedUp i j ops) :
    i ≤ m ∧ j ≤ n := by
  cases ops with
  | nil => exact ⟨h.1.le, h.2.le⟩
  | cons op ops =>
    obtain ⟨rfl, rfl, -⟩ := h
    exact ⟨op.i_le.trans op.i2_le, op.j_le.trans op.j2_le⟩

/-- Deciding every edit alike gives one side's text. -/
theorem interleaving_ops (h : PartitionFrom base cand i j ops)
    (ofBase : Bool) :
    interleaving (pieces base cand granularity ops)
        (List.replicate (ops.flatMap (opcodeSpans granularity)).length ofBase) =
      sideText base cand ofBase i (linesKeepends base).length j (linesKeepends cand).length := by
  induction ops generalizing i j with
  | nil =>
    obtain ⟨rfl, rfl⟩ := h.linedUp
    cases ofBase <;> simp [pieces, interleaving, sideText, linesText_self]
  | cons op ops ih =>
    obtain ⟨rfl, rfl, -⟩ := h.linedUp
    obtain ⟨hi2, hj2⟩ := h.tail.linedUp.le
    rw [sideText_split ofBase op.i_le hi2 op.j_le hj2, ← ih h.tail, pieces_cons,
      List.flatMap_cons, opcodePieces]
    by_cases hequal : op.tag = .equal
    · have hspans : opcodeSpans granularity op = [] := by simp [opcodeSpans, hequal]
      have hside : sideText base cand ofBase op.i1 op.i2 op.j1 op.j2 =
          linesText (linesKeepends cand) op.j1 op.j2 := by
        cases ofBase with
        | true => exact h.equal op List.mem_cons_self hequal
        | false => rfl
      rw [hspans, if_pos hequal, hside]
      simp [interleaving]
    · have hchain := opcodeSpans_chained granularity hequal (h.insert op List.mem_cons_self)
        (h.delete op List.mem_cons_self)
      rw [if_neg hequal, List.length_append, ← List.replicate_append_replicate,
        interleaving_append _ _ _ _ (by simp), interleaving_spans hchain]

theorem IsPartition.from_start
    (h : IsPartition (linesKeepends base) (linesKeepends cand) ops) :
    PartitionFrom base cand 0 0 ops where
  linedUp := h.linedUp
  equal op hop htag := congrArg List.flatten (h.equal op hop htag)
  insert := h.insert
  delete := h.delete

/-! ## The loop of a pass -/

variable (env : Narrower) (base : Bytes) (granularity : Granularity)

/-- A trial leaves the text as it is, or reverts its edit. -/
theorem revert_current (st : NarrowState) (edit : NarrowEdit) :
    (∃ st', revert env base granularity st edit = .error st' ∧ st'.current = st.current) ∨
      ∃ st' accepted, revert env base granularity st edit = .ok st' ∧
        st'.current = revertIf base (edit, accepted) st.current := by
  simp only [revert, attempt]
  split
  · exact .inr ⟨st, false, rfl, rfl⟩
  · split
    · exact .inl ⟨_, rfl, rfl⟩
    · exact .inr ⟨_, false, rfl, rfl⟩
    · exact .inr ⟨_, false, rfl, rfl⟩
    · split
      · exact .inr ⟨_, true, rfl, rfl⟩
      · exact .inr ⟨_, false, rfl, rfl⟩

/-- Whatever comes of the trials, and wherever the loop ends, the text is what
some decisions make of it. -/
theorem revertLoop_current (edits : List NarrowEdit) (st : NarrowState) :
    ∃ accept : List Bool, accept.length = edits.length ∧
      (exitState (edits.foldlM (revert env base granularity) st)).current =
        (edits.zip accept).foldl (fun current edit => revertIf base edit current) st.current := by
  induction edits generalizing st with
  | nil => exact ⟨[], rfl, rfl⟩
  | cons edit edits ih =>
    rw [List.foldlM_cons]
    rcases revert_current env base granularity st edit with
      ⟨st', hrun, hcurrent⟩ | ⟨st', accepted, hrun, hcurrent⟩
    · refine ⟨List.replicate (edits.length + 1) false, by simp, ?_⟩
      have hstay : ∀ es : List NarrowEdit, (es.zip (List.replicate es.length false)).foldl
          (fun current edit => revertIf base edit current) st.current = st.current := by
        intro es
        induction es with
        | nil => rfl
        | cons e es ih => simpa [List.replicate_succ, revertIf] using ih
      rw [hrun]
      exact hcurrent.trans (hstay (edit :: edits)).symm
    · obtain ⟨accept, hlen, hrest⟩ := ih st'
      refine ⟨accepted :: accept, by simp [hlen], ?_⟩
      rw [hrun, ok_bind, hrest, hcurrent]
      rfl

/-- **Reverts.** Where the matcher partitions the lines of both sides, the edits
of a pass can be accepted and rejected in any way: the text at the end keeps the
equal lines and has the base's text for each edit that was accepted and the
candidate's for each that was not. Accepting all of them gives the base, and none
of them the candidate; and a pass of narrowing ends, early or not, with such a
text. -/
theorem revertAccepted_interleaving (env : Narrower) (base cand : Bytes)
    (granularity : Granularity)
    (partition : IsPartition (linesKeepends base) (linesKeepends cand)
      (env.getOpcodes (linesKeepends base) (linesKeepends cand))) :
    let edits := changedLineEdits env base cand granularity
    let parts := pieces base cand granularity
      (env.getOpcodes (linesKeepends base) (linesKeepends cand))
    (∀ accept : List Bool, accept.length = edits.length →
      revertAccepted base cand edits accept = interleaving parts accept) ∧
    revertAccepted base cand edits (List.replicate edits.length true) = base ∧
    revertAccepted base cand edits (List.replicate edits.length false) = cand ∧
    ∀ st : NarrowState, st.current = cand → ∃ accept : List Bool, accept.length = edits.length ∧
      (exitState (edits.reverse.foldlM (revert env base granularity) st)).current =
        interleaving parts accept := by
  intro edits parts
  have hops := partition.from_start
  have hlength : edits.length = ((env.getOpcodes (linesKeepends base)
      (linesKeepends cand)).flatMap (opcodeSpans granularity)).length := by
    rw [← List.length_map (f := spanEdit base cand), ← changedLineEdits_eq]
  have hmix (accept : List Bool) (hlen : accept.length = edits.length) :
      revertAccepted base cand edits accept = interleaving parts accept := by
    rw [revertAccepted, List.foldl_reverse]
    exact revertOps_eq hops (hlen.trans hlength)
  have hside (ofBase : Bool) : revertAccepted base cand edits
      (List.replicate edits.length ofBase) = if ofBase then base else cand := by
    rw [hmix _ (by simp), hlength, interleaving_ops hops]
    cases ofBase with
    | true => exact linesText_all base
    | false => exact linesText_all cand
  refine ⟨hmix, hside true, hside false, ?_⟩
  intro st hst
  obtain ⟨accept, hlen, hrun⟩ :=
    revertLoop_current env base granularity edits.reverse st
  rw [List.length_reverse] at hlen
  refine ⟨accept.reverse, by simpa using hlen, ?_⟩
  have hzip : edits.reverse.zip accept = (edits.zip accept.reverse).reverse := by
    simp only [List.zip]
    rw [List.reverse_zipWith (by simpa using hlen.symm), List.reverse_reverse]
  rw [hrun, hst, hzip, ← hmix _ (by simpa using hlen)]
  rfl

end

/-- No line of the base is left, and it has one line more. -/
def unevenNarrower : Narrower where
  sha256 _ := []
  getOpcodes := replaceAll
  parse source := .mk .other 0 source.length 0 none []
  outcome _ _ := .compileFailed

/-- Accepting the second of two line edits, the revert of a line the candidate does
not have. -/
theorem revertAccepted_uneven :
    revertAccepted (ascii "x = 1;\ny = 2;\n") (ascii "x = 3;\n")
      (changedLineEdits unevenNarrower (ascii "x = 1;\ny = 2;\n") (ascii "x = 3;\n") .line)
      [false, true] = ascii "x = 3;\ny = 2;\n" := by
  have partition : IsPartition (linesKeepends (ascii "x = 1;\ny = 2;\n"))
      (linesKeepends (ascii "x = 3;\n")) (unevenNarrower.getOpcodes _ _) := by
    refine ⟨⟨rfl, rfl, rfl, rfl⟩, ?_, ?_, ?_⟩ <;> simp [unevenNarrower, replaceAll]
  rw [(revertAccepted_interleaving unevenNarrower _ _ .line partition).1 [false, true] (by decide)]
  decide

end MeleeHarness.Permute
