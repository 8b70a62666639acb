import MeleeHarness.Objdiff.Score
import Mathlib.Data.Finset.Card
import Mathlib.Data.Finset.Dedup
import Mathlib.Data.Sym.Sym2

/-!
# The breakdown in closed form

`classify_row` threads the register pairs and the frame it has already counted through the
rows. What comes out is a count over the rows as a multiset:

* `classifyRow_tallied`: one row adds what it has of its own, and the pairs that are new;
* `summarizeRows_closed`: the three counts, without the accumulators;
* `summarizeMismatches_order`: they are the same for every order of the row pairs.
-/

namespace MeleeHarness.Objdiff

open Lib

/-! ## Rows and what they show -/

namespace ParsedPair

variable (p : ParsedPair)

/-- An argument that counts as a mismatch of the row, in the stack or elsewhere. -/
def mismatched (onStack : Bool) (i : Nat) : Bool :=
  (swapOf (p.args i)).isNone && !p.isSilentConstant i && p.isStackArg i == onStack

def isHard : Bool :=
  (p.differing p.argDiffCount).isEmpty || (p.differing p.argDiffCount).any (p.mismatched false)

def isStack : Bool := (p.differing p.argDiffCount).any (p.mismatched true)

def swaps : List (String × String) :=
  (p.differing p.argDiffCount).filterMap fun i => swapOf (p.args i)

end ParsedPair

/-- Two opaque arguments, in no order. -/
def exchange : Option InstructionArg × Option InstructionArg → Option (Sym2 String)
  | (some (.value (.opaqueText t)), some (.value (.opaqueText b))) => some s(t, b)
  | _ => none

/-- The unordered register pairs of a parsed row. -/
def ParsedPair.exchanged (p : ParsedPair) : List (Sym2 String) :=
  (p.differing p.argDiffCount).filterMap fun i => exchange (p.args i)

section
variable (c : Columns) (frameDiff : Int64) (row : RowPair)

/-- An `ArgMismatch` row that parses, with whether the cascade takes it. -/
def mismatchedPair (cascade : Bool) : Option ParsedPair :=
  match rowKind row with
  | some .argMismatch => (parsePair c row).filter fun p => p.isFrameCascade frameDiff == cascade
  | _ => none

def isCascadeRow : Bool := (mismatchedPair c frameDiff row true).isSome

def isStackRow : Bool := (mismatchedPair c frameDiff row false).any ParsedPair.isStack

def isHardRow : Bool :=
  match rowKind row with
  | none => false
  | some .none => false
  | some .argMismatch =>
    (parsePair c row).isNone || (mismatchedPair c frameDiff row false).any ParsedPair.isHard
  | some _ => true

def rowSwaps : List (String × String) :=
  (mismatchedPair c frameDiff row false).elim [] ParsedPair.swaps

/-- The unordered register pairs of a row that is not part of the cascade. -/
def rowExchanged : List (Sym2 String) :=
  (mismatchedPair c frameDiff row false).elim [] ParsedPair.exchanged

end

/-- The loop of `summarize_mismatches`, for a frame difference that is fixed. -/
def summarizeRows (c : Columns) (frameDiff : Int64) (rows : List RowPair) : ScoreBreakdown :=
  (outputs (classifyRow c frameDiff) {} rows).foldl ScoreBreakdown.add {}

/-! ## One row -/

theorem insertSwap_length (s : Seen) (pair : String × String) :
    (s.insertSwap pair).2.swaps.length = s.swaps.length + countIf (s.insertSwap pair).1 := by
  unfold Seen.insertSwap
  split <;> rfl

theorem insertSwap_nodup {s : Seen} (h : s.swaps.Nodup) (pair : String × String) :
    (s.insertSwap pair).2.swaps.Nodup := by
  unfold Seen.insertSwap
  split
  · exact h
  · rename_i hnew
    exact List.nodup_cons.mpr ⟨by simpa using hnew, h⟩

theorem insertSwap_frame (s : Seen) (pair : String × String) :
    (s.insertSwap pair).2.frame = s.frame := by
  unfold Seen.insertSwap
  split <;> rfl

/-- What the argument loop has counted once it has read the positions `read`. -/
structure Counted (p : ParsedPair) (start : Seen) (read : List Nat) (s : ArgTally) : Prop where
  rowHard : s.rowHard = read.any fun i => p.argDiffers i && p.mismatched false i
  rowStack : s.rowStack = read.any fun i => p.argDiffers i && p.mismatched true i
  sawDiff : s.sawDiff = read.any p.argDiffers
  length : s.seen.swaps.length = start.swaps.length + s.regswap
  nodup : s.seen.swaps.Nodup
  frame : s.seen.frame = start.frame
  swaps : ∀ q, q ∈ s.seen.swaps ↔
    q ∈ start.swaps ∨ ∃ i ∈ read, p.argDiffers i = true ∧ swapOf (p.args i) = some q

theorem counted_step {p : ParsedPair} {start : Seen} {read : List Nat} {s : ArgTally}
    (h : Counted p start read s) (i : Nat) : Counted p start (read ++ [i]) (classifyArg p s i) := by
  unfold classifyArg
  cases hd : p.argDiffers i with
  | false =>
    refine ⟨?_, ?_, ?_, h.length, h.nodup, h.frame, fun q => ?_⟩
    · simpa [hd] using h.rowHard
    · simpa [hd] using h.rowStack
    · simpa [hd] using h.sawDiff
    · rw [exists_mem_snoc]
      simpa [hd] using h.swaps q
  | true =>
    cases hs : swapOf (p.args i) with
    | some pair =>
      refine ⟨?_, ?_, ?_, ?_, insertSwap_nodup h.nodup pair, ?_, fun q => ?_⟩
      · simp [ArgTally.addSwap, h.rowHard, ParsedPair.mismatched, hs]
      · simp [ArgTally.addSwap, h.rowStack, ParsedPair.mismatched, hs]
      · simp [ArgTally.addSwap, hd]
      · simp only [ArgTally.addSwap, Bool.not_true, Bool.false_eq_true, ↓reduceIte]
        rw [insertSwap_length, h.length, Nat.add_assoc]
      · exact (insertSwap_frame s.seen pair).trans h.frame
      · have hmem := s.seen.insertSwap_has pair (.swap q)
        simp only [Seen.Has, h.swaps, Cause.swap.injEq, or_assoc] at hmem
        rw [exists_mem_snoc]
        simp only [hd, hs, Option.some.injEq, true_and, eq_comm (a := pair)]
        exact hmem
    | none =>
      have hswaps (q : String × String) : q ∈ s.seen.swaps ↔ q ∈ start.swaps ∨
          ∃ j ∈ read ++ [i], p.argDiffers j = true ∧ swapOf (p.args j) = some q := by
        rw [exists_mem_snoc]
        simpa [hs] using h.swaps q
      have hhard := h.rowHard
      have hstack := h.rowStack
      cases hq : p.isSilentConstant i <;> cases hr1 : p.isStackArg i <;>
        exact ⟨by simp [hhard, ParsedPair.mismatched, hd, hs, hq, hr1],
          by simp [hstack, ParsedPair.mismatched, hd, hs, hq, hr1],
          by simp [hd], h.length, h.nodup, h.frame, hswaps⟩

theorem classifyArgs_counted (p : ParsedPair) {seen : Seen} (h : seen.swaps.Nodup) :
    Counted p seen (List.range p.argDiffCount)
      ((List.range p.argDiffCount).foldl (classifyArg p) { seen }) := by
  apply foldl_invariant (Counted p seen)
  · exact ⟨rfl, rfl, rfl, rfl, h, rfl, by simp⟩
  · intro read s i h
    exact counted_step h i

/-- What a run has counted once it has read some rows. -/
structure Summed (c : Columns) (frameDiff : Int64) (read : List RowPair) (b : ScoreBreakdown)
    (seen : Seen) : Prop where
  hard : b.hard = read.countP (isHardRow c frameDiff)
  regswap : b.regswap = seen.swaps.length
  stack : b.stack = read.countP (isStackRow c frameDiff) + countIf seen.frame
  frame : seen.frame = read.any (isCascadeRow c frameDiff)
  nodup : seen.swaps.Nodup
  swaps : ∀ q, q ∈ seen.swaps ↔ ∃ row ∈ read, q ∈ rowSwaps c frameDiff row

theorem classifyArgs_summed {p : ParsedPair} {seen : Seen} (h : seen.swaps.Nodup) :
    (classifyArgs p seen).1.hard = countIf p.isHard ∧
      (classifyArgs p seen).1.stack = countIf p.isStack ∧
      (classifyArgs p seen).2.swaps.length =
        seen.swaps.length + (classifyArgs p seen).1.regswap ∧
      (classifyArgs p seen).2.swaps.Nodup ∧ (classifyArgs p seen).2.frame = seen.frame ∧
      ∀ q, q ∈ (classifyArgs p seen).2.swaps ↔ q ∈ seen.swaps ∨ q ∈ p.swaps := by
  have hc := classifyArgs_counted p h
  refine ⟨?_, ?_, hc.length, hc.nodup, hc.frame, fun q => ?_⟩
  · have hempty : (p.differing p.argDiffCount).isEmpty =
        !(List.range p.argDiffCount).any p.argDiffers := by
      rw [Bool.eq_iff_iff]
      simp [ParsedPair.differing, List.isEmpty_iff, List.filter_eq_nil_iff]
    have hsaw (onStack : Bool) : ((List.range p.argDiffCount).any fun i =>
        p.argDiffers i && p.mismatched onStack i) = true →
        (List.range p.argDiffCount).any p.argDiffers = true := by
      simp only [List.any_eq_true, Bool.and_eq_true]
      rintro ⟨i, hi, hd, -⟩
      exact ⟨i, hi, hd⟩
    rw [ParsedPair.isHard, hempty, ParsedPair.differing, List.any_filter]
    simp only [classifyArgs, hc.rowHard, hc.rowStack, hc.sawDiff]
    have hhard := hsaw false
    have hstack := hsaw true
    revert hhard hstack
    generalize (List.range p.argDiffCount).any p.argDiffers = saw
    generalize ((List.range p.argDiffCount).any fun i => p.argDiffers i && p.mismatched false i) = hard
    generalize ((List.range p.argDiffCount).any fun i => p.argDiffers i && p.mismatched true i) = stack
    cases saw <;> cases hard <;> cases stack <;> simp
  · simp only [classifyArgs, hc.rowStack, ParsedPair.isStack, ParsedPair.differing, List.any_filter]
  · rw [classifyArgs, hc.swaps]
    simp [ParsedPair.swaps, ParsedPair.differing, and_assoc]

section
variable {c : Columns} {frameDiff : Int64} {row : RowPair}

theorem mismatchedPair_of_kind (h : rowKind row ≠ some .argMismatch) (cascade : Bool) :
    mismatchedPair c frameDiff row cascade = none := by
  unfold mismatchedPair
  split
  · exact absurd ‹_› h
  · rfl

theorem mismatchedPair_parsed (h : rowKind row = some .argMismatch) {p : ParsedPair}
    (hp : parsePair c row = some p) (cascade : Bool) :
    mismatchedPair c frameDiff row cascade =
      if p.isFrameCascade frameDiff = cascade then some p else none := by
  simp [mismatchedPair, h, hp, Option.filter]

theorem countP_concat (f : RowPair → Bool) (rows : List RowPair) (row : RowPair) :
    (rows ++ [row]).countP f = rows.countP f + countIf (f row) := by
  rw [List.countP_append, List.countP_singleton]
  rfl

/-- What one row has to add for the counts to go on. -/
theorem Summed.next {read : List RowPair} {b b' : ScoreBreakdown} {seen seen' : Seen}
    (h : Summed c frameDiff read b seen) (hhard : b'.hard = countIf (isHardRow c frameDiff row))
    (hlength : seen'.swaps.length = seen.swaps.length + b'.regswap)
    (hstack : b'.stack + countIf seen.frame = countIf (isStackRow c frameDiff row) + countIf seen'.frame)
    (hframe : seen'.frame = (seen.frame || isCascadeRow c frameDiff row)) (hnodup : seen'.swaps.Nodup)
    (hswaps : ∀ q, q ∈ seen'.swaps ↔ q ∈ seen.swaps ∨ q ∈ rowSwaps c frameDiff row) :
    Summed c frameDiff (read ++ [row]) (b.add b') seen' := by
  refine ⟨?_, ?_, ?_, ?_, hnodup, fun q => ?_⟩
  · rw [countP_concat, ← h.hard, ← hhard]
    rfl
  · rw [hlength, ← h.regswap]
    rfl
  · rw [countP_concat]
    have hsum := h.stack
    simp only [ScoreBreakdown.add]
    omega
  · simp [hframe, h.frame]
  · rw [hswaps, h.swaps, exists_mem_snoc]

/-- A row adds what it has of its own, the frame if it is the first to show it, and the pairs
that are new. -/
theorem classifyRow_summed {seen : Seen} {read : List RowPair} {b : ScoreBreakdown}
    (h : Summed c frameDiff read b seen) (row : RowPair) :
    Summed c frameDiff (read ++ [row]) (b.add (classifyRow c frameDiff seen row).1)
      (classifyRow c frameDiff seen row).2 := by
  by_cases hkind : rowKind row = some .argMismatch
  · cases hp : parsePair c row with
    | none =>
      have hnone (cascade : Bool) : mismatchedPair c frameDiff row cascade = none := by
        simp [mismatchedPair, hkind, hp]
      simp only [classifyRow, hkind, hp]
      apply h.next <;> simp [isHardRow, isStackRow, isCascadeRow, rowSwaps, hnone, hkind, hp, h.nodup]
    | some p =>
      have hpair := @mismatchedPair_parsed c frameDiff _ hkind _ hp
      simp only [classifyRow, hkind, hp]
      cases hcascade : p.isFrameCascade frameDiff with
      | true =>
        simp only [hcascade] at hpair ⊢
        apply h.next <;>
          simp [isHardRow, isStackRow, isCascadeRow, rowSwaps, hpair, hkind, hp, h.nodup]
        cases seen.frame <;> rfl
      | false =>
        obtain ⟨hhard, hstack, hlength, hnodup, hframe, hswaps⟩ := classifyArgs_summed (p := p) h.nodup
        simp only [hcascade] at hpair ⊢
        apply h.next
        · simp [isHardRow, hkind, hp, hpair, hhard]
        · exact hlength
        · simp [isStackRow, hpair, hstack, hframe]
        · simp [isCascadeRow, hpair, hframe]
        · exact hnodup
        · simpa [rowSwaps, hpair] using hswaps
  · have hnone := @mismatchedPair_of_kind c frameDiff _ hkind
    have hanswer : classifyRow c frameDiff seen row =
        ({ hard := countIf (isHardRow c frameDiff row) }, seen) := by
      unfold classifyRow isHardRow
      split <;> simp_all
    rw [hanswer]
    apply h.next <;> simp [isStackRow, isCascadeRow, rowSwaps, hnone, h.nodup]

theorem summarizeRows_summed (c : Columns) (frameDiff : Int64) (rows : List RowPair) :
    Summed c frameDiff rows (summarizeRows c frameDiff rows)
      (stateAfter (classifyRow c frameDiff) {} rows) := by
  induction rows using List.reverseRecOn with
  | nil => exact ⟨rfl, rfl, rfl, rfl, List.nodup_nil, by simp [stateAfter]⟩
  | append_singleton rows row ih =>
    rw [summarizeRows, outputs_append, List.foldl_append]
    have hstate : stateAfter (classifyRow c frameDiff) {} (rows ++ [row]) =
        (classifyRow c frameDiff (stateAfter (classifyRow c frameDiff) {} rows) row).2 := by
      rw [stateAfter, List.foldl_append]
      rfl
    rw [hstate]
    exact classifyRow_summed ih row

end

/-! ## Pairs in no order -/

theorem sortedPair_le (a b : String) : (sortedPair a b).1 ≤ (sortedPair a b).2 := by
  unfold sortedPair
  split
  · exact Std.le_of_lt ‹_›
  · exact Std.not_lt.mp ‹_›

/-- A sorted pair is found again from the pair without an order. -/
theorem sorted_eq_of_sym2 {q r : String × String} (hq : q.1 ≤ q.2) (hr : r.1 ≤ r.2)
    (h : s(q.1, q.2) = s(r.1, r.2)) : q = r := by
  rcases Sym2.eq_iff.mp h with ⟨h₁, h₂⟩ | ⟨h₁, h₂⟩
  · exact Prod.ext h₁ h₂
  · have heq : r.1 = r.2 := Std.le_antisymm hr (h₁ ▸ h₂ ▸ hq)
    exact Prod.ext (h₁.trans heq.symm) (h₂.trans heq)

theorem swapOf_le {args : Option InstructionArg × Option InstructionArg} {q : String × String}
    (h : swapOf args = some q) : q.1 ≤ q.2 := by
  unfold swapOf at h
  split at h
  · obtain rfl := Option.some.inj h
    exact sortedPair_le _ _
  · cases h

theorem exchange_eq (args : Option InstructionArg × Option InstructionArg) :
    exchange args = (swapOf args).map fun q => s(q.1, q.2) := by
  by_cases htexts : ∃ t b, args = (some (.value (.opaqueText t)), some (.value (.opaqueText b)))
  · obtain ⟨t, b, rfl⟩ := htexts
    simp only [swapOf, exchange, Option.map_some, sortedPair, Option.some.injEq]
    split
    · exact Sym2.eq_swap
    · rfl
  · have hswap : swapOf args = none := by
      unfold swapOf
      split
      · exact absurd ⟨_, _, rfl⟩ htexts
      · rfl
    have hexchange : exchange args = none := by
      unfold exchange
      split
      · exact absurd ⟨_, _, rfl⟩ htexts
      · rfl
    rw [hswap, hexchange]
    rfl

theorem rowExchanged_eq (c : Columns) (frameDiff : Int64) (row : RowPair) :
    rowExchanged c frameDiff row = (rowSwaps c frameDiff row).map fun q => s(q.1, q.2) := by
  unfold rowExchanged rowSwaps
  cases mismatchedPair c frameDiff row false with
  | none => rfl
  | some p =>
    simp only [Option.elim_some, ParsedPair.exchanged, ParsedPair.swaps, exchange_eq]
    rw [List.map_filterMap]

theorem rowSwaps_le {c : Columns} {frameDiff : Int64} {row : RowPair} {q : String × String}
    (h : q ∈ rowSwaps c frameDiff row) : q.1 ≤ q.2 := by
  unfold rowSwaps at h
  cases hp : mismatchedPair c frameDiff row false with
  | none =>
    rw [hp] at h
    cases h
  | some p =>
    rw [hp] at h
    obtain ⟨i, -, hi⟩ := List.mem_filterMap.mp h
    exact swapOf_le hi

/-- The breakdown, without the accumulators. -/
theorem summarizeRows_closed (c : Columns) (frameDiff : Int64) (rows : List RowPair) :
    summarizeRows c frameDiff rows =
      ⟨rows.countP (isHardRow c frameDiff), (rows.flatMap (rowExchanged c frameDiff)).toFinset.card,
        rows.countP (isStackRow c frameDiff) + countIf (rows.any (isCascadeRow c frameDiff))⟩ := by
  have h := summarizeRows_summed c frameDiff rows
  generalize summarizeRows c frameDiff rows = b at h
  generalize stateAfter (classifyRow c frameDiff) {} rows = seen at h
  have hle : ∀ q ∈ seen.swaps, q.1 ≤ q.2 := fun q hq =>
    let ⟨_, _, hrow⟩ := (h.swaps q).mp hq
    rowSwaps_le hrow
  have hset : (rows.flatMap (rowExchanged c frameDiff)).toFinset =
      (seen.swaps.map fun q => s(q.1, q.2)).toFinset := by
    ext pair
    simp only [List.mem_toFinset, List.mem_flatMap, rowExchanged_eq, List.mem_map, h.swaps]
    constructor
    · rintro ⟨row, hrow, q, hq, rfl⟩
      exact ⟨q, ⟨row, hrow, hq⟩, rfl⟩
    · rintro ⟨q, ⟨row, hrow, hq⟩, rfl⟩
      exact ⟨row, hrow, q, hq, rfl⟩
  have hdistinct : (seen.swaps.map fun q => s(q.1, q.2)).Nodup :=
    (List.nodup_map_iff_inj_on h.nodup).mpr fun q hq r hr => sorted_eq_of_sym2 (hle q hq) (hle r hr)
  have hswaps : b.regswap = (rows.flatMap (rowExchanged c frameDiff)).toFinset.card := by
    rw [hset, List.toFinset_card_of_nodup hdistinct, List.length_map, h.regswap]
  have hstack := h.stack
  rw [h.frame] at hstack
  rw [← h.hard, ← hswaps, ← hstack]

/-- **The order of the rows does not matter.** With the frame sizes fixed, the loop counts the
same for every order of the row pairs: the register pairs that rows outside the cascade
exchange, each once and in no order, and the stack rows outside the cascade, with one more for
the cascade if it has a row. -/
theorem summarizeMismatches_order (d : DiffedPair) :
    (∀ rows, rows.Perm d.rows →
      summarizeRows d.columns d.scoreFrameDiff rows = d.summarizeMismatches) ∧
    d.summarizeMismatches.regswap =
      (d.rows.flatMap (rowExchanged d.columns d.scoreFrameDiff)).toFinset.card ∧
    d.summarizeMismatches.stack = d.rows.countP (isStackRow d.columns d.scoreFrameDiff) +
      if ∃ row ∈ d.rows, isCascadeRow d.columns d.scoreFrameDiff row = true then 1 else 0 := by
  have hclosed := summarizeRows_closed d.columns d.scoreFrameDiff
  have hwhole : d.summarizeMismatches = summarizeRows d.columns d.scoreFrameDiff d.rows := rfl
  rw [hwhole]
  refine ⟨fun rows h => ?_, ?_, ?_⟩
  · have hpairs : (rows.flatMap (rowExchanged d.columns d.scoreFrameDiff)).toFinset =
        (d.rows.flatMap (rowExchanged d.columns d.scoreFrameDiff)).toFinset :=
      List.toFinset_eq_of_perm _ _ (h.flatMap_right _)
    rw [hclosed, hclosed, hpairs, h.countP_eq, h.countP_eq, h.any_eq]
  · rw [hclosed]
  · rw [hclosed]
    simp only [countIf, List.any_eq_true]

end MeleeHarness.Objdiff
