import MeleeHarness.Objdiff.MarkerCauses
import MeleeHarness.Objdiff.PowerPC
import MeleeHarness.Objdiff.Score

/-!
# The frame cascade in both tools

The score server folds the rows that move with the frame into one stack
mismatch, the two-column display into one `f`.

* `cascade_agrees_iff`: both fold the same argument mismatches exactly if both
  functions have a frame, or neither, or none of these rows moves by the one
  frame there is. The server takes a missing frame for an empty one.
* Each tool counts the rows it folds once.
-/

namespace MeleeHarness.Objdiff

open Lib

namespace DiffedPair

variable (d : DiffedPair)

/-- The frame difference the display uses: only where both frames are known. -/
def displayFrameDiff : Option Int64 :=
  match d.targetFrame, d.baseFrame with
  | some t, some b => some (frameDelta t b)
  | _, _ => none

/-- `classify_row` takes the row for part of the cascade. -/
def scoreFolds (row : RowPair) : Bool :=
  (classifyRow d.columns d.scoreFrameDiff {} row).2.frame

/-- `compute_marker` takes the row for part of the cascade. -/
def displayFolds (row : RowPair) : Bool :=
  (computeMarker {} d.columns d.displayFrameDiff {} row).2.frame

def markers : List Text := outputs (computeMarker {} d.columns d.displayFrameDiff) {} d.rows

/-- The stack mismatches of rows outside the cascade. -/
def plainStack (rows : List RowPair) : Nat :=
  ((rows.filter fun row => !d.scoreFolds row).map fun row =>
    (classifyRow d.columns d.scoreFrameDiff {} row).1.stack).sum

end DiffedPair

theorem causes_frame (p : ParsedPair) (cascade : Bool) :
    p.causes cascade .frame ↔ cascade = true := by
  cases cascade <;> simp [ParsedPair.causes]

variable {d : DiffedPair}

theorem classifyRow_frame (seen : Seen) (row : RowPair) :
    (classifyRow d.columns d.scoreFrameDiff seen row).2.frame =
      (seen.frame || d.scoreFolds row) := by
  have remember := (classifyRow_firstSeen d.columns d.scoreFrameDiff).remember
  have hs := remember seen row .frame
  have he := remember {} row .frame
  simp only [Seen.Has, Bool.false_eq_true, false_or] at hs he
  rw [Bool.eq_iff_iff, hs, ← he, Bool.or_eq_true, DiffedPair.scoreFolds]

theorem computeMarker_frame (seen : Seen) (row : RowPair) :
    (computeMarker {} d.columns d.displayFrameDiff seen row).2.frame =
      (seen.frame || d.displayFolds row) := by
  have remember := (computeMarker_firstSeen d.columns d.displayFrameDiff).remember
  have hs := remember seen row .frame
  have he := remember {} row .frame
  simp only [Seen.Has, Bool.false_eq_true, false_or] at hs he
  rw [Bool.eq_iff_iff, hs, ← he, Bool.or_eq_true, DiffedPair.displayFolds]

theorem scoreFolds_iff {row : RowPair} (hk : rowKind row = some .argMismatch) :
    d.scoreFolds row = true ↔
      ∃ p, parsePair d.columns row = some p ∧ p.isFrameCascade d.scoreFrameDiff = true := by
  have h := (classifyRow_firstSeen d.columns d.scoreFrameDiff).remember {} row .frame
  simp only [Seen.Has, Bool.false_eq_true, false_or, scoreCauses, hk, true_and,
    causes_frame] at h
  exact h

theorem displayFolds_iff {row : RowPair} (hk : rowKind row = some .argMismatch) :
    d.displayFolds row = true ↔
      ∃ p, parsePair d.columns row = some p ∧ p.isKnownCascade d.displayFrameDiff = true := by
  have h := (computeMarker_firstSeen d.columns d.displayFrameDiff).remember {} row .frame
  simp only [Seen.Has, Bool.false_eq_true, false_or, displayCauses, hk, Option.any_some, isCompared,
    true_and, causes_frame] at h
  exact h

/-! ## Agreement -/

/-- Without any frame the server's difference is zero, which no row moves by. -/
theorem isFrameCascade_zero (p : ParsedPair) : p.isFrameCascade 0 = false := by
  simp [ParsedPair.isFrameCascade]

theorem folds_agree_of_frames (h : d.targetFrame.isSome = d.baseFrame.isSome) {row : RowPair}
    (hk : rowKind row = some .argMismatch) : d.scoreFolds row = d.displayFolds row := by
  rw [Bool.eq_iff_iff, scoreFolds_iff hk, displayFolds_iff hk]
  refine exists_congr fun p => and_congr_right fun _ => ?_
  unfold ParsedPair.isKnownCascade DiffedPair.displayFrameDiff DiffedPair.scoreFrameDiff
  cases ht : d.targetFrame with
  | none =>
    cases hb : d.baseFrame with
    | none => simp [frameDelta, isFrameCascade_zero]
    | some b => simp [ht, hb] at h
  | some t =>
    cases hb : d.baseFrame with
    | none => simp [ht, hb] at h
    | some b => simp

theorem displayFolds_of_frames (h : d.targetFrame.isSome ≠ d.baseFrame.isSome) {row : RowPair}
    (hk : rowKind row = some .argMismatch) : d.displayFolds row = false := by
  have hnone : d.displayFrameDiff = none := by
    unfold DiffedPair.displayFrameDiff
    cases ht : d.targetFrame <;> cases hb : d.baseFrame <;> simp_all
  rw [← Bool.not_eq_true, displayFolds_iff hk]
  simp [ParsedPair.isKnownCascade, hnone]

/-! ## Counting -/

/-- Whether a row outside the cascade is a stack mismatch does not depend on
what was seen before it. -/
theorem classifyArgs_stack (p : ParsedPair) (seen : Seen) :
    (classifyArgs p seen).1.stack = (classifyArgs p {}).1.stack := by
  have rowStack (seen : Seen) :
      ((List.range p.argDiffCount).foldl (classifyArg p) { seen }).rowStack = true ↔
        ∃ i ∈ List.range p.argDiffCount, p.argDiffers i = true ∧ p.countsArg i ∧
          p.isStackArg i = true := by
    refine foldl_invariant (fun read (s : ArgTally) => s.rowStack = true ↔
      ∃ i ∈ read, p.argDiffers i = true ∧ p.countsArg i ∧ p.isStackArg i = true) ?_ ?_ _
    · simp
    · intro read s i ih
      have hlast : (classifyArg p s i).rowStack = true ↔ s.rowStack = true ∨
          (p.argDiffers i = true ∧ p.countsArg i ∧ p.isStackArg i = true) := by
        unfold classifyArg ParsedPair.countsArg
        cases hd : p.argDiffers i with
        | false => simp
        | true =>
          cases hs : swapOf (p.args i) with
          | some pair => simp [ArgTally.addSwap]
          | none =>
            cases hq : p.isSilentConstant i with
            | true => simp
            | false => cases hst : p.isStackArg i <;> simp
      rw [hlast, ih, exists_mem_snoc]
  have heq := (rowStack seen).trans (rowStack {}).symm
  simp only [classifyArgs, countIf, heq]

theorem classifyRow_stack (seen : Seen) (row : RowPair) :
    (classifyRow d.columns d.scoreFrameDiff seen row).1.stack =
      if d.scoreFolds row then countIf (!seen.frame)
      else (classifyRow d.columns d.scoreFrameDiff {} row).1.stack := by
  by_cases hk : rowKind row = some .argMismatch
  · cases hp : parsePair d.columns row with
    | none =>
      have hf : d.scoreFolds row = false := by
        rw [← Bool.not_eq_true, scoreFolds_iff hk]
        simp [hp]
      simp [classifyRow, hk, hp, hf]
    | some p =>
      have hf : d.scoreFolds row = p.isFrameCascade d.scoreFrameDiff := by
        rw [Bool.eq_iff_iff, scoreFolds_iff hk]
        simp [hp]
      rw [hf]
      cases hc : p.isFrameCascade d.scoreFrameDiff with
      | true => simp [classifyRow, hk, hp, hc]
      | false => simp [classifyRow, hk, hp, hc, classifyArgs_stack p seen]
  · have hf : d.scoreFolds row = false := by
      rw [← Bool.not_eq_true]
      intro h
      have hrem := (classifyRow_firstSeen d.columns d.scoreFrameDiff).remember {} row .frame
      simp only [Seen.Has, Bool.false_eq_true, false_or] at hrem
      exact hk (hrem.mp h).1
    rw [hf]
    unfold classifyRow
    cases hr : rowKind row with
    | none => rfl
    | some kind =>
      cases kind with
      | argMismatch => exact absurd hr hk
      | _ => rfl

theorem foldl_add_stack (bs : List ScoreBreakdown) (a : ScoreBreakdown) :
    (bs.foldl ScoreBreakdown.add a).stack = a.stack + (bs.map (·.stack)).sum := by
  induction bs generalizing a with
  | nil => simp
  | cons b bs ih => simp [ih, ScoreBreakdown.add, Nat.add_assoc]

theorem outputs_stack (rows : List RowPair) (seen : Seen) :
    ((outputs (classifyRow d.columns d.scoreFrameDiff) seen rows).map (·.stack)).sum =
      d.plainStack rows + countIf (!seen.frame && rows.any d.scoreFolds) := by
  induction rows generalizing seen with
  | nil => simp [outputs, DiffedPair.plainStack, countIf]
  | cons row rows ih =>
    have plain : d.plainStack (row :: rows) = (if d.scoreFolds row then 0 else
        (classifyRow d.columns d.scoreFrameDiff {} row).1.stack) + d.plainStack rows := by
      cases hf : d.scoreFolds row <;> simp [DiffedPair.plainStack, hf]
    have first := classifyRow_stack (d := d) seen row
    rw [outputs, List.map_cons, List.sum_cons, ih, first, plain, classifyRow_frame, List.any_cons]
    cases hf : d.scoreFolds row <;> cases hs : seen.frame <;>
      simp only [Bool.not_true, Bool.not_false, Bool.false_or, Bool.true_or, Bool.false_and,
        Bool.true_and, countIf_true, countIf_false, Bool.false_eq_true, ↓reduceIte] <;> omega

/-- The server counts the cascade as one stack mismatch. -/
theorem summarize_stack : d.summarizeMismatches.stack =
    d.plainStack d.rows + countIf (d.rows.any d.scoreFolds) := by
  rw [DiffedPair.summarizeMismatches, foldl_add_stack, outputs_stack]
  simp

theorem toMarker_f (k : MarkerKinds) : 'f' ∉ k.toMarker := by
  obtain ⟨r, c, s, a, d, i⟩ := k
  revert r c s a d i
  decide

theorem computeMarker_f (seen : Seen) (row : RowPair) :
    'f' ∈ (computeMarker {} d.columns d.displayFrameDiff seen row).1 ↔
      d.displayFolds row = true ∧ seen.frame = false := by
  cases hc : (rowKind row).any isCompared with
  | false =>
    have hf : d.displayFolds row = false := by
      rw [DiffedPair.displayFolds, (computeMarker_plain {} hc).1]
    rw [hf]
    cases hr : rowKind row with
    | none => simp [computeMarker, hr]
    | some kind => cases kind <;> simp [hr, isCompared] at hc <;> simp [computeMarker, hr]
  | true =>
    obtain ⟨kind, hr, hk⟩ := (Option.any_eq_true _ _).mp hc
    have hfolds := (computeMarker_firstSeen d.columns d.displayFrameDiff).remember {} row .frame
    simp only [Seen.Has, Bool.false_eq_true, false_or, displayCauses, hc, true_and,
      causes_frame] at hfolds
    rw [computeMarker_compared {} hr hk, DiffedPair.displayFolds, hfolds]
    cases hp : parsePair d.columns row with
    | none =>
      simp only [unparsedMarker]
      split <;> simp
    | some p =>
      simp only [Option.some.injEq, exists_eq_left', markParsed]
      cases hcas : p.isKnownCascade d.displayFrameDiff with
      | true => cases hs : seen.frame <;> simp
      | false => simp [markArgs, toMarker_f]

theorem outputs_f (rows : List RowPair) (seen : Seen) :
    ((outputs (computeMarker {} d.columns d.displayFrameDiff) seen rows).filter
        (·.contains 'f')).length = countIf (!seen.frame && rows.any d.displayFolds) := by
  induction rows generalizing seen with
  | nil => simp [outputs, countIf]
  | cons row rows ih =>
    have first : (computeMarker {} d.columns d.displayFrameDiff seen row).1.contains 'f' =
        (d.displayFolds row && !seen.frame) := by
      rw [Bool.eq_iff_iff, List.contains_iff_mem, computeMarker_f]
      simp
    have rest := ih (computeMarker {} d.columns d.displayFrameDiff seen row).2
    rw [computeMarker_frame] at rest
    rw [outputs, List.filter_cons, List.any_cons, first]
    cases hf : d.displayFolds row <;> cases hs : seen.frame <;>
      simp only [hf, hs, Bool.not_true, Bool.not_false, Bool.false_or, Bool.true_or,
        Bool.false_and, Bool.true_and, Bool.or_false, Bool.or_true, countIf_true, countIf_false,
        Bool.false_eq_true, ↓reduceIte, List.length_cons] at rest ⊢ <;> omega

/-- Both tools fold the same argument mismatches. -/
def CascadesAgree (d : DiffedPair) : Prop :=
  ∀ row ∈ d.rows, rowKind row = some .argMismatch → d.scoreFolds row = d.displayFolds row

/-- Each tool counts the rows it folds once, if there are any. -/
def CascadesCounted (d : DiffedPair) : Prop :=
  d.summarizeMismatches.stack = d.plainStack d.rows + countIf (d.rows.any d.scoreFolds) ∧
    (d.markers.filter (·.contains 'f')).length = countIf (d.rows.any d.displayFolds)

/-- **The frame cascade.** The server and the display agree on it, and count it
once, exactly if both functions have a frame, or neither, or no argument
mismatch moves by the one frame there is. -/
theorem cascade_agrees_iff (d : DiffedPair) :
    CascadesAgree d ∧ CascadesCounted d ↔
      d.targetFrame.isSome = d.baseFrame.isSome ∨
      ∀ row ∈ d.rows, rowKind row = some .argMismatch → ∀ p, parsePair d.columns row = some p →
        p.isFrameCascade d.scoreFrameDiff = false := by
  have counted : CascadesCounted d := by
    refine ⟨summarize_stack, ?_⟩
    rw [DiffedPair.markers, outputs_f]
    simp
  constructor
  · rintro ⟨agree, -⟩
    by_cases hframes : d.targetFrame.isSome = d.baseFrame.isSome
    · exact .inl hframes
    · refine .inr ?_
      intro row hrow hk p hp
      have hfold := (agree row hrow hk).trans (displayFolds_of_frames hframes hk)
      rw [← Bool.not_eq_true, scoreFolds_iff hk] at hfold
      simpa using fun h => hfold ⟨p, hp, h⟩
  · intro h
    refine ⟨?_, counted⟩
    intro row hrow hk
    by_cases hframes : d.targetFrame.isSome = d.baseFrame.isSome
    · exact folds_agree_of_frames hframes hk
    · have hnone := h.resolve_left hframes
      rw [displayFolds_of_frames hframes hk, ← Bool.not_eq_true, scoreFolds_iff hk]
      rintro ⟨p, hp, hc⟩
      rw [hnone row hrow hk p hp] at hc
      cases hc

/-- A frame on one side only, and a store that moves by its size. -/
def storePair : DiffPair :=
  ⟨functionObject ".text" storeToCaller, functionObject ".text" storeFromFrame, 0, 0, scoreConfig⟩

def storeDiff (left right : SymbolDiff) : DiffedPair :=
  ⟨functionObject ".text" storeToCaller, 0, left, functionObject ".text" storeFromFrame, 0, right⟩

/-- The server folds the store into the frame, and the display does not. -/
theorem cascade_disagrees : ∃ left right, diffCode oneBlockDiff storePair = .ok (left, right) ∧
    ¬(CascadesAgree (storeDiff left right) ∧ CascadesCounted (storeDiff left right)) := by
  let fold (d : SymbolDiff × SymbolDiff) : List (Option InstructionDiffKind × Bool × Bool) :=
    (storeDiff d.1 d.2).rows.map fun row => (rowKind row, (storeDiff d.1 d.2).scoreFolds row,
      (storeDiff d.1 d.2).displayFolds row)
  have hrun : (diffCode oneBlockDiff storePair).map fold =
      .ok [(some .insert, false, false), (some .argMismatch, true, false),
        (some .none, false, false)] := by
    decide +kernel
  cases hd : diffCode oneBlockDiff storePair with
  | error e =>
    rw [hd] at hrun
    cases hrun
  | ok d =>
    rw [hd] at hrun
    refine ⟨d.1, d.2, rfl, ?_⟩
    rintro ⟨agree, -⟩
    have hmem : (some .argMismatch, true, false) ∈ fold d := by
      rw [Except.ok.inj hrun]
      simp
    obtain ⟨row, hrow, heq⟩ := List.mem_map.mp hmem
    simp only [Prod.mk.injEq] at heq
    have hsame := agree row hrow heq.1
    rw [heq.2.1, heq.2.2] at hsame
    cases hsame

end MeleeHarness.Objdiff
