import MeleeHarness.Lib.Run
import MeleeHarness.Objdiff.CodeDiff

/-!
# What a code diff's penalty says

`diffCode_spec` collects what `diff_code` promises of the two symbol diffs it
returns. `CodeDiffed.score_zero_iff`: with at least one target instruction the
penalty is zero exactly when every row is of kind `None`.
-/

namespace MeleeHarness.Objdiff

open Lib

/-! ## Alignment gives both sides equally many rows -/

theorem rangeRows_length {insts : List InstructionRef} {range : Nat × Nat} {len : Nat}
    {rows : List InstructionDiffRow} (hlen : range.2 ≤ len)
    (h : rangeRows insts range len = .ok rows) : rows.length = len := by
  obtain ⟨front, hfront, h⟩ := bind_ok_iff.mp h
  have hl := mapM_ok_length hfront
  rw [pure_ok_iff] at h
  simp only [← h, List.length_append, List.length_replicate, hl, List.length_range]
  omega

theorem opRows_length {left right : List InstructionRef} {ops : List DiffOp}
    {ls rs : List InstructionDiffRow} (h : opRows left right ops = .ok (ls, rs)) :
    ls.length = rs.length := by
  induction ops generalizing ls rs with
  | nil =>
    simp only [opRows, pure_ok_iff, Prod.mk.injEq] at h
    simp [← h.1, ← h.2]
  | cons op ops ih =>
    obtain ⟨l, hl, h⟩ := bind_ok_iff.mp h
    obtain ⟨r, hr, h⟩ := bind_ok_iff.mp h
    obtain ⟨⟨ls', rs'⟩, hrest, h⟩ := bind_ok_iff.mp h
    have hl := rangeRows_length (Nat.le_max_left _ _) hl
    have hr := rangeRows_length (Nat.le_max_right _ _) hr
    have hrest := ih hrest
    simp only [pure_ok_iff, Prod.mk.injEq] at h
    simp only [← h.1, ← h.2, List.length_append, hl, hr, hrest]

theorem diffInstructions_length {cap : CaptureDiffSlices} {left right : List InstructionRef}
    {ls rs : List InstructionDiffRow} (h : diffInstructions cap left right = .ok (ls, rs)) :
    ls.length = rs.length := by
  unfold diffInstructions at h
  simp only at h
  split at h
  · split at h
    · rename_i hlen
      cases h
      simpa using hlen
    · cases h
  · exact opRows_length h

theorem BranchState.next_length (map : List (Nat × Nat)) (s : BranchState) (i : Nat)
    (ins : InstructionRef) : (s.next map i ins).rows.length = s.rows.length := by
  unfold BranchState.next
  split
  · rfl
  · unfold BranchState.add
    split <;> simp

/-- A fold of steps that keep the number of rows keeps it. -/
theorem foldl_length {α β γ : Type} (rows : β → List γ) (step : β → α → β)
    (hstep : ∀ s x, (rows (step s x)).length = (rows s).length) (xs : List α) (s : β) :
    (rows (xs.foldl step s)).length = (rows s).length := by
  induction xs generalizing s with
  | nil => rfl
  | cons x xs ih => rw [List.foldl_cons, ih, hstep]

theorem resolveBranches_length (ops : List InstructionRef) (rows : List InstructionDiffRow) :
    (resolveBranches ops rows).length = rows.length := by
  unfold resolveBranches
  exact (foldl_length (fun rows : List InstructionDiffRow => rows) _
    (fun _ _ => List.length_modify ..) _ _).trans
    (foldl_length BranchState.rows _ (fun _ _ => BranchState.next_length ..) _ _)

/-! ## The penalty is zero exactly for rows of kind `None` -/

/-- A comparison that has reached `s` from score `n` has added a penalty exactly
if it has found a difference. -/
def Scored (n : Nat) (s : RowState) : Prop :=
  n ≤ s.2.diffScore ∧ (s.1.kind = .none ↔ s.2.diffScore = n)

theorem diffArg_scored {eq : InstructionArg → InstructionArg → Bool}
    {left right : ResolvedInstructionRef} {n : Nat} {s : RowState} (h : Scored n s)
    (args : InstructionArg × InstructionArg) : Scored n (diffArg eq left right s args) := by
  obtain ⟨hle, hiff⟩ := h
  unfold diffArg
  simp only
  split
  · exact ⟨hle, hiff⟩
  · have hpen : 0 < if args.1.isNumeric then penaltyImmDiff else penaltyRegDiff := by
      split <;> decide
    refine ⟨by simp only; omega, ?_⟩
    simp only
    constructor
    · intro hk
      split at hk
      · cases hk
      · contradiction
    · intro hs
      omega

theorem diffArgs_scored (eq : InstructionArg → InstructionArg → Bool)
    (left right : ResolvedInstructionRef) {n : Nat}
    (args : List (InstructionArg × InstructionArg)) {s : RowState} (h : Scored n s) :
    Scored n (args.foldl (diffArg eq left right) s) := by
  induction args generalizing s with
  | nil => exact h
  | cons a args ih => exact ih (diffArg_scored h a)

theorem addPenalty_scored {s : InstructionDiffState} {r : InstructionDiffResult} {n m : Nat}
    (hle : n ≤ s.diffScore) (hm : 0 < m) (hk : r.kind ≠ .none) :
    Scored n (r, addPenalty s m) := by
  refine ⟨?_, ?_⟩
  · simp only [addPenalty]
    omega
  · simp only [addPenalty, hk, false_iff]
    omega

theorem diffParsed_scored (eq : InstructionArg → InstructionArg → Bool)
    (left right : ResolvedInstructionRef) (leftIns rightIns : ParsedInstruction)
    (state : InstructionDiffState) :
    Scored state.diffScore (diffParsed eq left right leftIns rightIns state) := by
  have start : Scored state.diffScore (diffMnemonic leftIns rightIns state) := by
    unfold diffMnemonic
    split
    · exact ⟨Nat.le_refl _, by simp⟩
    · exact addPenalty_scored (Nat.le_refl _) (by decide) (by simp)
  have args := diffArgs_scored eq left right (leftIns.args.zip rightIns.args) start
  unfold diffParsed
  simp only
  split
  · exact addPenalty_scored args.1 (by decide) (by simp)
  · exact args

theorem diffInstruction_scored {p : DiffPair} {l r : InstructionDiffRow}
    {state : InstructionDiffState} {out : RowState}
    (h : diffInstruction p l r state = .ok out) : Scored state.diffScore out := by
  unfold diffInstruction at h
  split at h
  · cases h
    exact ⟨Nat.le_refl _, by simp⟩
  · cases h
    exact addPenalty_scored (Nat.le_refl _) (by decide) (by simp)
  · cases h
    exact addPenalty_scored (Nat.le_refl _) (by decide) (by simp)
  · split at h
    · cases h
      exact addPenalty_scored (Nat.le_refl _) (by decide) (by simp)
    · split at h
      · split at h
        · split at h
          · cases h
            exact ⟨Nat.le_refl _, by simp⟩
          · obtain ⟨leftIns, -, h⟩ := bind_ok_iff.mp h
            obtain ⟨rightIns, -, h⟩ := bind_ok_iff.mp h
            split at h
            · cases h
              exact addPenalty_scored (Nat.le_refl _) (by decide) (by simp)
            · cases h
              exact diffParsed_scored _ _ _ _ _ _
        · cases h
      · cases h

/-- Both rows of a pair end with one kind, and the penalty grows exactly if one
of these kinds is a difference. -/
theorem diffRows_spec {p : DiffPair} {ls rs ls' rs' : List InstructionDiffRow}
    {s s' : InstructionDiffState} (hlen : ls.length = rs.length)
    (h : diffRows p ls rs s = .ok (ls', rs', s')) :
    ls'.map (·.kind) = rs'.map (·.kind) ∧ s.diffScore ≤ s'.diffScore ∧
      (s'.diffScore = s.diffScore ↔ ∀ row ∈ ls', row.kind = .none) := by
  induction ls generalizing rs ls' rs' s s' with
  | nil =>
    obtain rfl : rs = [] := by simpa using hlen.symm
    cases h
    simp
  | cons l ls ih =>
    cases rs with
    | nil => cases hlen
    | cons r rs =>
      obtain ⟨⟨result, mid⟩, hrow, h⟩ := bind_ok_iff.mp h
      obtain ⟨⟨ls₁, rs₁, s₁⟩, hrest, h⟩ := bind_ok_iff.mp h
      cases h
      obtain ⟨hkinds, hle, hzero⟩ := ih (by simpa using hlen) hrest
      obtain ⟨hle', hnone⟩ := diffInstruction_scored hrow
      simp only at hle' hnone
      refine ⟨by simp [hkinds], by omega, ?_⟩
      simp only [List.mem_cons, forall_eq_or_imp, hnone, ← hzero]
      omega

/-- What `diff_code` promises of the two symbol diffs it returns. -/
structure CodeDiffed (p : DiffPair) (left right : SymbolDiff) (ops : List InstructionRef)
    (score : Nat) : Prop where
  scanned : functionOps p.leftObj p.leftSymbolIdx = .ok ops
  leftTarget : left.targetSymbol = some p.rightSymbolIdx
  rightTarget : right.targetSymbol = some p.leftSymbolIdx
  leftScore : left.diffScore =
    some (min score (ops.length * penaltyInsertDelete), ops.length * penaltyInsertDelete)
  rightScore : right.diffScore =
    some (min score (ops.length * penaltyInsertDelete), ops.length * penaltyInsertDelete)
  kinds : left.instructionRows.map (·.kind) = right.instructionRows.map (·.kind)
  zero : score = 0 ↔ ∀ row ∈ left.instructionRows, row.kind = .none

theorem diffCode_spec {cap : CaptureDiffSlices} {p : DiffPair} {left right : SymbolDiff}
    (h : diffCode cap p = .ok (left, right)) : ∃ ops score, CodeDiffed p left right ops score := by
  obtain ⟨l, hl, h⟩ := bind_ok_iff.mp h
  obtain ⟨r, hr, h⟩ := bind_ok_iff.mp h
  obtain ⟨ld, hld, h⟩ := bind_ok_iff.mp h
  obtain ⟨rd, hrd, h⟩ := bind_ok_iff.mp h
  obtain ⟨leftOps, hlo, h⟩ := bind_ok_iff.mp h
  obtain ⟨rightOps, hro, h⟩ := bind_ok_iff.mp h
  obtain ⟨⟨ls, rs⟩, hrows, h⟩ := bind_ok_iff.mp h
  obtain ⟨⟨ls', rs', state⟩, hdiff, h⟩ := bind_ok_iff.mp h
  cases h
  have hlen : (resolveBranches leftOps ls).length = (resolveBranches rightOps rs).length := by
    rw [resolveBranches_length, resolveBranches_length, diffInstructions_length hrows]
  obtain ⟨hkinds, -, hzero⟩ := diffRows_spec hlen hdiff
  refine ⟨leftOps, state.diffScore, ?_, rfl, rfl, rfl, rfl, hkinds, hzero⟩
  rw [functionOps, bind_ok_iff]
  exact ⟨l, hl, bind_ok_iff.mpr ⟨ld, hld, hlo⟩⟩

theorem CodeDiffed.right_rows {p : DiffPair} {left right : SymbolDiff} {ops : List InstructionRef}
    {score : Nat} (h : CodeDiffed p left right ops score) :
    (∀ row ∈ left.instructionRows, row.kind = .none) ↔
      ∀ row ∈ right.instructionRows, row.kind = .none := by
  have all (rows : List InstructionDiffRow) :
      (∀ row ∈ rows, row.kind = .none) ↔ ∀ k ∈ rows.map (·.kind), k = InstructionDiffKind.none := by
    simp
  rw [all, all, h.kinds]

/-- **Zero penalty.** A function with at least one instruction scores zero
against another exactly when every row of the diff is of kind `None`. -/
theorem CodeDiffed.score_zero_iff {p : DiffPair} {left right : SymbolDiff}
    {ops : List InstructionRef} {score : Nat} (h : CodeDiffed p left right ops score)
    (hne : ops ≠ []) :
    min score (ops.length * penaltyInsertDelete) = 0 ↔
      ∀ row ∈ left.instructionRows, row.kind = .none := by
  have hpos : 0 < ops.length := List.length_pos_iff.mpr hne
  rw [← h.zero]
  simp only [penaltyInsertDelete]
  omega

/-- `no_diff_code` marks nothing and pairs with nothing. -/
theorem noDiffCode_spec {obj : Object} {symbolIndex : Nat} {diff : SymbolDiff}
    (h : noDiffCode obj symbolIndex = .ok diff) :
    diff.targetSymbol = none ∧ diff.diffScore = none := by
  obtain ⟨ops, -, h⟩ := bind_ok_iff.mp h
  cases h
  exact ⟨rfl, rfl⟩

end MeleeHarness.Objdiff
