import MeleeHarness.Objdiff.DiffObjs
import MeleeHarness.Objdiff.Frame

/-!
# The score server

`objdiff-cli/src/cmd/score.rs`: `score_one` diffs a candidate against the target
and answers with objdiff's raw penalty, a hash of the function's code and a
breakdown of the mismatches.

`classifyRow_firstSeen`: a row adds to the breakdown exactly if it has a mismatch
of its own, or is the first to show the frame or a register pair.
-/

namespace MeleeHarness.Objdiff

open Lib

structure ScoreBreakdown where
  hard : Nat := 0
  regswap : Nat := 0
  stack : Nat := 0
  deriving DecidableEq, Repr

def ScoreBreakdown.add (a b : ScoreBreakdown) : ScoreBreakdown :=
  ⟨a.hard + b.hard, a.regswap + b.regswap, a.stack + b.stack⟩

def countIf (b : Bool) : Nat := if b then 1 else 0

@[simp] theorem countIf_true : countIf true = 1 := rfl

@[simp] theorem countIf_false : countIf false = 0 := rfl

/-- The accumulators of the argument loop. -/
structure ArgTally where
  rowHard : Bool := false
  rowStack : Bool := false
  sawDiff : Bool := false
  regswap : Nat := 0
  seen : Seen

def ArgTally.addSwap (s : ArgTally) (pair : String × String) : ArgTally :=
  let (new, seen) := s.seen.insertSwap pair
  { s with regswap := s.regswap + countIf new, seen }

/-- An argument that `classify_row` counts as a stack difference. -/
def ParsedPair.isStackArg (p : ParsedPair) (i : Nat) : Bool :=
  p.referencesR1 && (numericArg (p.args i).1 || numericArg (p.args i).2)

def classifyArg (p : ParsedPair) (s : ArgTally) (i : Nat) : ArgTally :=
  if !p.argDiffers i then s
  else
    let s := { s with sawDiff := true }
    match swapOf (p.args i) with
    | some pair => s.addSwap pair
    | none =>
      if p.isSilentConstant i then s
      else if p.isStackArg i then { s with rowStack := true }
      else { s with rowHard := true }

def classifyArgs (p : ParsedPair) (seen : Seen) : ScoreBreakdown × Seen :=
  let t := (List.range p.argDiffCount).foldl (classifyArg p) { seen }
  ({ hard := countIf t.rowHard + countIf (!t.sawDiff && !t.rowHard && !t.rowStack)
     regswap := t.regswap
     stack := countIf t.rowStack }, t.seen)

/-- What a row adds to the breakdown, and the causes seen after it. -/
def classifyRow (c : Columns) (frameDiff : Int64) (seen : Seen) (row : RowPair) :
    ScoreBreakdown × Seen :=
  match rowKind row with
  | none => ({}, seen)
  | some .none => ({}, seen)
  | some .insert => ({ hard := 1 }, seen)
  | some .delete => ({ hard := 1 }, seen)
  | some .replace => ({ hard := 1 }, seen)
  | some .opMismatch => ({ hard := 1 }, seen)
  | some .argMismatch =>
    match parsePair c row with
    | none => ({ hard := 1 }, seen)
    | some p =>
      if p.isFrameCascade frameDiff then
        ({ stack := countIf (!seen.frame) }, { seen with frame := true })
      else classifyArgs p seen

/-- Two functions of two objects, with the diffs of both. -/
structure DiffedPair where
  targetObj : Object
  targetSymbolIdx : Nat
  targetDiff : SymbolDiff
  baseObj : Object
  baseSymbolIdx : Nat
  baseDiff : SymbolDiff

namespace DiffedPair

variable (d : DiffedPair)

def columns : Columns :=
  ⟨d.targetObj, d.baseObj, some d.targetSymbolIdx, some d.baseSymbolIdx⟩

def rows : List RowPair := rowPairs d.targetDiff.instructionRows d.baseDiff.instructionRows

def targetFrame : Option UInt64 := frameSize d.targetObj d.targetSymbolIdx d.targetDiff

def baseFrame : Option UInt64 := frameSize d.baseObj d.baseSymbolIdx d.baseDiff

/-- The frame difference `summarize_mismatches` uses: a missing frame is empty. -/
def scoreFrameDiff : Int64 := frameDelta (d.targetFrame.getD 0) (d.baseFrame.getD 0)

def summarizeMismatches : ScoreBreakdown :=
  (outputs (classifyRow d.columns d.scoreFrameDiff) {} d.rows).foldl ScoreBreakdown.add {}

end DiffedPair

/-- FNV-1a over the function's code bytes. -/
def fnv1a (bytes : Bytes) : UInt64 :=
  bytes.foldl (fun h b => (h ^^^ b.toUInt64) * 0x00000100000001b3) 0xcbf29ce484222325

def fnHash (obj : Object) (idx : Nat) : UInt64 := fnv1a ((obj.symbolData idx).getD [])

/-- The configuration the server runs with when no option is given. -/
def scoreConfig : DiffObjConfig := { functionRelocDiffs := .dataValue }

/-- `score_one`, for the candidate as the object reader returns it. -/
def scoreOne (env : DiffEnv) (config : DiffObjConfig) (target : Object) (function : String)
    (candidate : Except String Object) : Except String (Nat × UInt64 × ScoreBreakdown) := do
  let cand ← candidate
  let some targetIdx := target.symbolByName function
    | throw ("target symbol " ++ function ++ " not found")
  let some idx := cand.symbolByName function
    | throw ("symbol " ++ function ++ " not found")
  let result ← diffObjs env config target cand
  let some targetDiff := result.left[targetIdx]? | throw "index out of bounds"
  let some symDiff := result.right[idx]? | throw "index out of bounds"
  let score := (symDiff.diffScore.map (·.1)).getD 0
  let pair : DiffedPair := ⟨target, targetIdx, targetDiff, cand, idx, symDiff⟩
  return (score, fnHash cand idx, pair.summarizeMismatches)

/-! ## When a row adds to the breakdown -/

/-- An argument that is neither a register pair nor a silent constant. -/
def ParsedPair.countsArg (p : ParsedPair) (i : Nat) : Prop :=
  swapOf (p.args i) = none ∧ p.isSilentConstant i = false

/-- What the argument loop has established once it has read the positions `read`. -/
structure Tallied (p : ParsedPair) (start : Seen) (read : List Nat) (s : ArgTally) : Prop where
  counts : s.rowHard = true ∨ s.rowStack = true ↔
    ∃ i ∈ read, p.argDiffers i = true ∧ p.countsArg i
  sawDiff : s.sawDiff = true ↔ ∃ i ∈ read, p.argDiffers i = true
  regswap : s.regswap ≠ 0 ↔ ∃ i ∈ read, p.argDiffers i = true ∧
    ∃ pair, swapOf (p.args i) = some pair ∧ ¬start.Has (.swap pair)
  seen : ∀ k, s.seen.Has k ↔ start.Has k ∨ ∃ i ∈ read, p.argDiffers i = true ∧
    ∃ pair, swapOf (p.args i) = some pair ∧ k = .swap pair

namespace Tallied

variable {p : ParsedPair} {start : Seen} {read : List Nat} {s t : ArgTally} {i : Nat}

theorem skip (h : Tallied p start read s) (hd : p.argDiffers i = false) :
    Tallied p start (read ++ [i]) s := by
  constructor
  · rw [exists_mem_snoc, h.counts]
    simp [hd]
  · rw [exists_mem_snoc, h.sawDiff]
    simp [hd]
  · rw [exists_mem_snoc, h.regswap]
    simp [hd]
  · intro k
    rw [exists_mem_snoc, h.seen]
    simp [hd]

theorem addSwap (h : Tallied p start read s) (hd : p.argDiffers i = true) {pair : String × String}
    (hs : swapOf (p.args i) = some pair) :
    Tallied p start (read ++ [i]) (ArgTally.addSwap { s with sawDiff := true } pair) := by
  constructor
  · rw [exists_mem_snoc, ← h.counts]
    simp [ArgTally.addSwap, ParsedPair.countsArg, hs]
  · rw [exists_mem_snoc]
    simp [ArgTally.addSwap, hd]
  · have hnew := s.seen.insertSwap_new pair
    rw [h.seen] at hnew
    rw [exists_mem_snoc, ← h.regswap]
    simp only [ArgTally.addSwap, hd, hs, Option.some.injEq, exists_eq_left', true_and]
    by_cases hf : start.Has (.swap pair)
    · have hold : (s.seen.insertSwap pair).1 = false := by simpa [hf] using hnew
      simp [hold, hf, countIf]
    · by_cases hz : s.regswap = 0
      · have hnone := (not_congr h.regswap).mp (by simpa using hz)
        have hfresh : (s.seen.insertSwap pair).1 = true := by
          rw [hnew]
          rintro (hk | ⟨j, hj, hjd, q, hq, hk⟩)
          · exact hf hk
          · cases hk
            exact hnone ⟨j, hj, hjd, pair, hq, hf⟩
        simp [hfresh, hf, countIf]
      · simp [hz]
  · intro k
    rw [exists_mem_snoc]
    simp only [ArgTally.addSwap, Seen.insertSwap_has, h.seen, hd, hs, Option.some.injEq,
      exists_eq_left', true_and, or_assoc]

/-- A position that is no register pair leaves the pairs seen alone. -/
theorem other (h : Tallied p start read s) (hd : p.argDiffers i = true)
    (hs : swapOf (p.args i) = none) (hsaw : t.sawDiff = true) (hswap : t.regswap = s.regswap)
    (hseen : t.seen = s.seen)
    (hc : t.rowHard = true ∨ t.rowStack = true ↔
      (s.rowHard = true ∨ s.rowStack = true) ∨ p.isSilentConstant i = false) :
    Tallied p start (read ++ [i]) t := by
  constructor
  · rw [exists_mem_snoc, ← h.counts, hc]
    simp [hd, ParsedPair.countsArg, hs]
  · rw [exists_mem_snoc]
    simp [hsaw, hd]
  · rw [exists_mem_snoc, ← h.regswap, hswap]
    simp [hs]
  · intro k
    rw [exists_mem_snoc, hseen, h.seen]
    simp [hs]

end Tallied

theorem tallied_step {p : ParsedPair} {start : Seen} {read : List Nat} {s : ArgTally}
    (h : Tallied p start read s) (i : Nat) : Tallied p start (read ++ [i]) (classifyArg p s i) := by
  unfold classifyArg
  cases hd : p.argDiffers i with
  | false => exact h.skip hd
  | true =>
    cases hs : swapOf (p.args i) with
    | some pair => exact h.addSwap hd hs
    | none =>
      apply h.other hd hs
      all_goals
        cases hq : p.isSilentConstant i <;> cases hstack : p.isStackArg i <;> simp

theorem classifyArgs_tallied (p : ParsedPair) (seen : Seen) :
    Tallied p seen (List.range p.argDiffCount)
      ((List.range p.argDiffCount).foldl (classifyArg p) { seen }) := by
  apply foldl_invariant (Tallied p seen)
  · constructor <;> simp
  · intro read s i h
    exact tallied_step h i

/-- A row with a mismatch of its own: one that `classify_row` counts every time. -/
def scoreLoud (c : Columns) (frameDiff : Int64) (row : RowPair) : Prop :=
  match rowKind row with
  | none => False
  | some .none => False
  | some .argMismatch =>
    match parsePair c row with
    | none => True
    | some p => p.isFrameCascade frameDiff = false ∧
      (p.differing p.argDiffCount = [] ∨ ∃ i ∈ p.differing p.argDiffCount, p.countsArg i)
  | some _ => True

def scoreCauses (c : Columns) (frameDiff : Int64) (row : RowPair) (k : Cause) : Prop :=
  rowKind row = some .argMismatch ∧ ∃ p, parsePair c row = some p ∧ p.causes (p.isFrameCascade frameDiff) k

theorem classifyArgs_zero (p : ParsedPair) (seen : Seen) :
    (classifyArgs p seen).1 ≠ {} ↔
      (p.differing p.argDiffCount = [] ∨ ∃ i ∈ p.differing p.argDiffCount, p.countsArg i) ∨
      ∃ i ∈ p.differing p.argDiffCount, ∃ pair,
        swapOf (p.args i) = some pair ∧ ¬seen.Has (.swap pair) := by
  have h := classifyArgs_tallied p seen
  have nonzero (t : ArgTally) :
      ({ hard := countIf t.rowHard + countIf (!t.sawDiff && !t.rowHard && !t.rowStack)
         regswap := t.regswap, stack := countIf t.rowStack } : ScoreBreakdown) ≠ {} ↔
      ((t.rowHard = true ∨ t.rowStack = true) ∨ ¬t.sawDiff = true) ∨ t.regswap ≠ 0 := by
    cases hh : t.rowHard <;> cases hs : t.rowStack <;> cases hd : t.sawDiff <;> simp [countIf]
  rw [classifyArgs, nonzero, h.counts, h.sawDiff, h.regswap, p.differing_eq_nil, p.exists_differing,
    p.exists_differing]
  exact or_congr_left or_comm

theorem classifyArgs_seen (p : ParsedPair) (seen : Seen) (k : Cause) :
    (classifyArgs p seen).2.Has k ↔ seen.Has k ∨ ∃ i ∈ p.differing p.argDiffCount,
      ∃ pair, swapOf (p.args i) = some pair ∧ k = .swap pair := by
  rw [classifyArgs, (classifyArgs_tallied p seen).seen]
  simp only [ParsedPair.differing, List.mem_filter, and_assoc]

theorem scoreCauses_parsed {c : Columns} {frameDiff : Int64} {row : RowPair} {p : ParsedPair}
    (hk : rowKind row = some .argMismatch) (hp : parsePair c row = some p) (k : Cause) :
    scoreCauses c frameDiff row k ↔ p.causes (p.isFrameCascade frameDiff) k := by
  simp [scoreCauses, hk, hp]

/-- The score server reports each cause once. -/
theorem classifyRow_firstSeen (c : Columns) (frameDiff : Int64) :
    FirstSeen (classifyRow c frameDiff) Seen.Has (· ≠ {}) (scoreLoud c frameDiff)
      (scoreCauses c frameDiff) := by
  have plain (row : RowPair) (hk : rowKind row ≠ some .argMismatch) (k : Cause) :
      ¬scoreCauses c frameDiff row k := fun h => hk h.1
  constructor
  · intro seen row k
    by_cases hk : rowKind row = some .argMismatch
    · cases hp : parsePair c row with
      | none => simp [classifyRow, hk, hp, scoreCauses]
      | some p =>
        rw [scoreCauses_parsed hk hp, ParsedPair.causes]
        simp only [classifyRow, hk, hp]
        split
        · cases k <;> simp [Seen.Has]
        · exact classifyArgs_seen p seen k
    · have hseen : (classifyRow c frameDiff seen row).2 = seen := by
        unfold classifyRow
        split <;> simp_all
      simp [hseen, plain row hk]
  · intro seen row
    by_cases hk : rowKind row = some .argMismatch
    · cases hp : parsePair c row with
      | none => simp [classifyRow, scoreLoud, hk, hp]
      | some p =>
        simp only [scoreCauses_parsed hk hp, ParsedPair.causes]
        simp only [classifyRow, scoreLoud, hk, hp]
        split
        · rename_i hf
          cases hs : seen.frame <;> simp [hf, hs, countIf, Seen.Has]
        · rename_i hf
          rw [classifyArgs_zero]
          simp only [hf, true_and]
          refine or_congr_right ?_
          constructor
          · rintro ⟨i, hi, pair, hpair, hnew⟩
            exact ⟨_, ⟨i, hi, pair, hpair, rfl⟩, hnew⟩
          · rintro ⟨k, ⟨i, hi, pair, hpair, rfl⟩, hnew⟩
            exact ⟨i, hi, pair, hpair, hnew⟩
    · simp only [plain row hk, false_and, exists_false, or_false]
      unfold classifyRow scoreLoud
      cases hr : rowKind row with
      | none => simp
      | some kind =>
        cases kind with
        | argMismatch => exact absurd hr hk
        | _ => simp

end MeleeHarness.Objdiff
