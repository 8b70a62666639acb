import MeleeHarness.Objdiff.PowerPC
import MeleeHarness.Objdiff.Score

/-!
# What a score of zero says

* `score_zero_matched_iff`: a raw score of zero is a match exactly if the
  candidate's symbol was paired with the target's, or the score was of a pair
  that does differ. A symbol that is paired with nothing scores zero.
* `summarize_zero_iff`: the breakdown is zero exactly if every row is of kind
  `None` or differs only in constants under relocations to one address, while
  the raw score is zero exactly if every row is of kind `None`.
-/

namespace MeleeHarness.Objdiff

open Lib

/-! ## The raw score -/

/-- Both results of a paired diff name the other symbol, and only code has rows. -/
theorem diffMatched_spec {env : DiffEnv} {p : DiffPair} {kind : SectionKind}
    {d : SymbolDiff × SymbolDiff} (h : diffMatched env p kind = .ok d) :
    d.1.targetSymbol = some p.rightSymbolIdx ∧ d.2.targetSymbol = some p.leftSymbolIdx ∧
      (kind = .code ∨ d.2.diffScore = none ∧ d.1.instructionRows = [] ∧
        d.2.instructionRows = []) := by
  have bss {d : SymbolDiff × SymbolDiff}
      (h : diffBssSymbol p.leftObj p.rightObj p.leftSymbolIdx p.rightSymbolIdx = .ok d) :
      d.1.targetSymbol = some p.rightSymbolIdx ∧ d.2.targetSymbol = some p.leftSymbolIdx ∧
        d.2.diffScore = none ∧ d.1.instructionRows = [] ∧ d.2.instructionRows = [] := by
    unfold diffBssSymbol at h
    split at h
    · split at h
      · cases h
        exact ⟨rfl, rfl, rfl, rfl, rfl⟩
      · cases h
    · cases h
  cases kind with
  | unknown => cases h
  | code =>
    obtain ⟨ops, score, hd⟩ := diffCode_spec h
    exact ⟨hd.leftTarget, hd.rightTarget, .inl rfl⟩
  | data =>
    obtain ⟨l, -, h⟩ := bind_ok_iff.mp h
    obtain ⟨r, -, h⟩ := bind_ok_iff.mp h
    obtain ⟨ls, -, h⟩ := bind_ok_iff.mp h
    obtain ⟨rs, -, h⟩ := bind_ok_iff.mp h
    obtain ⟨-, -, h⟩ := bind_ok_iff.mp h
    obtain ⟨-, -, h⟩ := bind_ok_iff.mp h
    cases h
    exact ⟨rfl, rfl, .inr ⟨rfl, rfl, rfl⟩⟩
  | bss =>
    obtain ⟨hl, hr, hrest⟩ := bss h
    exact ⟨hl, hr, .inr hrest⟩
  | common =>
    obtain ⟨hl, hr, hrest⟩ := bss h
    exact ⟨hl, hr, .inr hrest⟩

section
variable {env : DiffEnv} {config : DiffObjConfig} {target cand : Object} {function : String}
  {t c : Nat}

theorem symbolByName_lt {obj : Object} {name : String} {i : Nat}
    (h : obj.symbolByName name = some i) : i < obj.symbols.length :=
  (List.findIdx?_eq_some_iff_findIdx_eq.mp h).1

def rawScore (d : SymbolDiff) : Nat := (d.diffScore.map (·.1)).getD 0

theorem scoreOne_ok_iff (ht : target.symbolByName function = some t)
    (hc : cand.symbolByName function = some c) {score : Nat} :
    (∃ hash breakdown, scoreOne env config target function (.ok cand) =
        .ok (score, hash, breakdown)) ↔
      ∃ out d, diffObjs env config target cand = .ok out ∧ out.right[c]? = some d ∧
        score = rawScore d := by
  cases hd : diffObjs env config target cand with
  | error e =>
    simp [scoreOne, ht, hc, hd, Bind.bind, Except.bind]
  | ok out =>
    have hs := diffObjs_stored hd
    obtain ⟨td, htd⟩ := hs.left_some (symbolByName_lt ht)
    obtain ⟨cd, hcd⟩ := hs.right_some (symbolByName_lt hc)
    have hrun : ∃ h b, scoreOne env config target function (.ok cand) = .ok (rawScore cd, h, b) :=
      ⟨_, _, by simp only [scoreOne, ht, hc, hd, htd, hcd, Bind.bind, Except.bind]; rfl⟩
    obtain ⟨hash, breakdown, hrun⟩ := hrun
    rw [hrun]
    simp [hcd, eq_comm]

/-- The two symbols were compared with each other and no row differs. -/
def Matched (env : DiffEnv) (config : DiffObjConfig) (target cand : Object) (t c : Nat) : Prop :=
  ∃ out td cd, diffObjs env config target cand = .ok out ∧
    out.left[t]? = some td ∧ out.right[c]? = some cd ∧
    td.targetSymbol = some c ∧ cd.targetSymbol = some t ∧
    (∀ row ∈ td.instructionRows, row.kind = .none) ∧
    ∀ row ∈ cd.instructionRows, row.kind = .none

/-- The candidate's symbol was compared with target symbol `l`, and they differ. -/
def DiffersFrom (env : DiffEnv) (config : DiffObjConfig) (target cand : Object) (l c : Nat) : Prop :=
  PairedAs env target cand l c .code ∧ functionOps target l ≠ .ok [] ∧
    ∃ d, diffCode env.captureDiffSlices ⟨target, cand, l, c, config⟩ = .ok d ∧
      ∃ row ∈ d.1.instructionRows, row.kind ≠ .none

/-- Matching symbols are those paired with each other whose rows do not differ. -/
theorem matched_iff {out : SymbolDiffs} (hd : diffObjs env config target cand = .ok out)
    (ht : t < target.symbols.length) (hc : c < cand.symbols.length) {td cd : SymbolDiff}
    (htd : out.left[t]? = some td) (hcd : out.right[c]? = some cd) :
    Matched env config target cand t c ↔ (∃ kind, PairedAs env target cand t c kind) ∧
      (∀ row ∈ td.instructionRows, row.kind = .none) ∧
      ∀ row ∈ cd.instructionRows, row.kind = .none := by
  have hs := diffObjs_stored hd
  constructor
  · rintro ⟨out', td', cd', hd', htd', hcd', -, hbase, hrows⟩
    obtain rfl : out = out' := Except.ok.inj (hd.symm.trans hd')
    obtain rfl : td = td' := Option.some.inj (htd.symm.trans htd')
    obtain rfl : cd = cd' := Option.some.inj (hcd.symm.trans hcd')
    refine ⟨?_, hrows⟩
    by_contra hno
    by_cases hpair : ∃ l kind, PairedAs env target cand l c kind
    · obtain ⟨l, kind, hp⟩ := hpair
      obtain ⟨d, hm, -, hr⟩ := hs.paired l c kind hp
      obtain rfl : d.2 = cd := Option.some.inj ((hr hc).symm.trans hcd)
      have hl := (diffMatched_spec hm).2.1
      obtain rfl : t = l := Option.some.inj (hbase.symm.trans hl)
      exact hno ⟨kind, hp⟩
    · have halone := diffObjs_unpaired hd hcd fun l kind hp => hpair ⟨l, kind, hp⟩
      rw [halone.1] at hbase
      cases hbase
  · rintro ⟨⟨kind, hp⟩, hrows⟩
    obtain ⟨d, hm, hl, hr⟩ := diffObjs_paired hd hp ht hc
    obtain rfl : d.1 = td := Option.some.inj (hl.symm.trans htd)
    obtain rfl : d.2 = cd := Option.some.inj (hr.symm.trans hcd)
    obtain ⟨htarget, hbase, -⟩ := diffMatched_spec hm
    exact ⟨out, d.1, d.2, hd, hl, hr, htarget, hbase, hrows⟩

theorem paired_matched {out : SymbolDiffs} (hd : diffObjs env config target cand = .ok out)
    (ht : t < target.symbols.length) (hc : c < cand.symbols.length) {kind : SectionKind}
    (hp : PairedAs env target cand t c kind) {ops : List InstructionRef}
    (hops : functionOps target t = .ok ops) (hne : ops ≠ []) {cd : SymbolDiff}
    (hcd : out.right[c]? = some cd) (hzero : rawScore cd = 0) :
    Matched env config target cand t c := by
  obtain ⟨d, hm, hl, hr⟩ := diffObjs_paired hd hp ht hc
  obtain rfl : d.2 = cd := Option.some.inj (hr.symm.trans hcd)
  refine (matched_iff hd ht hc hl hr).mpr ⟨⟨kind, hp⟩, ?_⟩
  rcases (diffMatched_spec hm).2.2 with rfl | ⟨-, hleft, hright⟩
  · obtain ⟨ops', score, hcode⟩ := diffCode_spec hm
    obtain rfl : ops' = ops := Except.ok.inj (hcode.scanned.symm.trans hops)
    have hmin : min score (ops'.length * penaltyInsertDelete) = 0 := by
      simpa [rawScore, hcode.rightScore] using hzero
    have hrows := (hcode.score_zero_iff hne).mp hmin
    exact ⟨hrows, hcode.right_rows.mp hrows⟩
  · simp [hleft, hright]

/-- Against another symbol the raw score is zero exactly if nothing differs there. -/
theorem other_score_pos {l : Nat} {d : SymbolDiff × SymbolDiff}
    (hm : diffCode env.captureDiffSlices ⟨target, cand, l, c, config⟩ = .ok d) :
    rawScore d.2 ≠ 0 ↔
      functionOps target l ≠ .ok [] ∧ ∃ row ∈ d.1.instructionRows, row.kind ≠ .none := by
  obtain ⟨ops, score, hcode⟩ := diffCode_spec hm
  have hraw : rawScore d.2 = min score (ops.length * penaltyInsertDelete) := by
    simp [rawScore, hcode.rightScore]
  have hscan : functionOps target l = .ok ops := hcode.scanned
  rw [hraw, hscan]
  by_cases hne : ops = []
  · simp [hne]
  · have hiff := not_congr (hcode.score_zero_iff hne)
    push Not at hiff
    simp only [ne_eq, Except.ok.injEq, hne, not_false_eq_true, true_and]
    exact hiff

/-- Only a candidate that was compared as code, and differs, has a raw score. -/
theorem score_pos_iff {out : SymbolDiffs} (hd : diffObjs env config target cand = .ok out)
    (hc : c < cand.symbols.length) {cd : SymbolDiff} (hcd : out.right[c]? = some cd) :
    rawScore cd ≠ 0 ↔ ∃ l, DiffersFrom env config target cand l c := by
  have hs := diffObjs_stored hd
  constructor
  · intro hpos
    by_cases hpair : ∃ l kind, PairedAs env target cand l c kind
    · obtain ⟨l, kind, hp⟩ := hpair
      obtain ⟨d, hm, -, hr⟩ := hs.paired l c kind hp
      obtain rfl : d.2 = cd := Option.some.inj ((hr hc).symm.trans hcd)
      rcases (diffMatched_spec hm).2.2 with rfl | ⟨hnone, -⟩
      · obtain ⟨hsome, hrow⟩ := (other_score_pos hm).mp hpos
        exact ⟨l, hp, hsome, d, hm, hrow⟩
      · exact absurd (by simp [rawScore, hnone]) hpos
    · have halone := diffObjs_unpaired hd hcd fun l kind hp => hpair ⟨l, kind, hp⟩
      exact absurd (by simp [rawScore, halone.2]) hpos
  · rintro ⟨l, hp, hsome, d, hm, hrow⟩
    obtain ⟨d', hm', -, hr⟩ := hs.paired l c .code hp
    obtain rfl : d = d' := Except.ok.inj (hm.symm.trans hm')
    obtain rfl : d.2 = cd := Option.some.inj ((hr hc).symm.trans hcd)
    exact (other_score_pos hm).mpr ⟨hsome, hrow⟩

/-- **A raw score of zero.** It means that the two symbols were compared and
match exactly if the candidate's symbol is paired with the target's, or with
another one it does differ from, or nothing is scored at all. -/
theorem score_zero_matched_iff (ht : target.symbolByName function = some t)
    (hc : cand.symbolByName function = some c) {ops : List InstructionRef}
    (hops : functionOps target t = .ok ops) (hne : ops ≠ []) :
    (∀ hash breakdown, scoreOne env config target function (.ok cand) = .ok (0, hash, breakdown) →
        Matched env config target cand t c) ↔
      (∃ e, diffObjs env config target cand = .error e) ∨
      (∃ kind, PairedAs env target cand t c kind) ∨
      ∃ l, DiffersFrom env config target cand l c := by
  have ht' := symbolByName_lt ht
  have hc' := symbolByName_lt hc
  constructor
  · intro h
    cases hd : diffObjs env config target cand with
    | error e => exact .inl ⟨e, rfl⟩
    | ok out =>
      have hs := diffObjs_stored hd
      obtain ⟨td, htd⟩ := hs.left_some ht'
      obtain ⟨cd, hcd⟩ := hs.right_some hc'
      by_cases hzero : rawScore cd = 0
      · obtain ⟨hash, breakdown, hrun⟩ :=
          (scoreOne_ok_iff ht hc).mpr ⟨out, _, hd, hcd, hzero.symm⟩
        exact .inr (.inl ((matched_iff hd ht' hc' htd hcd).mp (h hash breakdown hrun)).1)
      · exact .inr (.inr ((score_pos_iff hd hc' hcd).mp hzero))
  · intro h hash breakdown hrun
    obtain ⟨out, cd, hd, hcd, hzero⟩ := (scoreOne_ok_iff ht hc).mp ⟨hash, breakdown, hrun⟩
    rcases h with ⟨e, he⟩ | ⟨kind, hp⟩ | differs
    · rw [hd] at he
      cases he
    · exact paired_matched hd ht' hc' hp hops hne hcd hzero.symm
    · exact absurd hzero.symm ((score_pos_iff hd hc' hcd).mpr differs)

end

/-- A candidate that compiles to the target's code scores zero, and matches. -/
theorem score_zero_matched_returns :
    functionOps (functionObject ".text" returnOne) 0 =
      .ok [⟨0, 4, 14, none⟩, ⟨4, 4, 19, none⟩] ∧
    (∃ hash breakdown,
      scoreOne oneBlockEnv scoreConfig (functionObject ".text" returnOne) "f"
        (.ok (functionObject ".text" returnOne)) = .ok (0, hash, breakdown)) ∧
    Matched oneBlockEnv scoreConfig (functionObject ".text" returnOne)
      (functionObject ".text" returnOne) 0 0 := by
  have hops : functionOps (functionObject ".text" returnOne) 0 =
      .ok [⟨0, 4, 14, none⟩, ⟨4, 4, 19, none⟩] := by decide +kernel
  have hpair : PairedAs oneBlockEnv (functionObject ".text" returnOne)
      (functionObject ".text" returnOne) 0 0 .code := by
    unfold PairedAs Pairs
    decide +kernel
  have hrun : scoreOne oneBlockEnv scoreConfig (functionObject ".text" returnOne) "f"
      (.ok (functionObject ".text" returnOne)) =
        .ok (0, fnHash (functionObject ".text" returnOne) 0, {}) := by decide +kernel
  exact ⟨hops, ⟨_, _, hrun⟩, (score_zero_matched_iff (by decide +kernel) (by decide +kernel) hops
    (by decide)).mpr (.inr (.inl ⟨.code, hpair⟩)) _ _ hrun⟩

/-- The candidate's function lies in another section, so that it is compared
with nothing: it scores zero, although it returns another number. -/
theorem score_zero_unpaired :
    (functionObject ".text" returnOne).symbolByName "f" = some 0 ∧
    (functionObject ".init" returnTwo).symbolByName "f" = some 0 ∧
    functionOps (functionObject ".text" returnOne) 0 =
      .ok [⟨0, 4, 14, none⟩, ⟨4, 4, 19, none⟩] ∧
    ∃ hash breakdown,
      scoreOne oneBlockEnv scoreConfig (functionObject ".text" returnOne) "f"
          (.ok (functionObject ".init" returnTwo)) = .ok (0, hash, breakdown) ∧
        ¬Matched oneBlockEnv scoreConfig (functionObject ".text" returnOne)
          (functionObject ".init" returnTwo) 0 0 := by
  refine ⟨by decide +kernel, by decide +kernel, by decide +kernel,
    fnHash (functionObject ".init" returnTwo) 0, {}, by decide +kernel, ?_⟩
  rintro ⟨out, -, cd, hd, -, hcd, -, hbase, -⟩
  have hstored : (diffObjs oneBlockEnv scoreConfig (functionObject ".text" returnOne)
      (functionObject ".init" returnTwo)).map (fun out => out.right[0]?.map (·.targetSymbol)) =
      .ok (some none) := by decide +kernel
  rw [hd] at hstored
  simp [Except.map, hcd, hbase] at hstored

/-! ## The breakdown -/

theorem add_eq_zero {a b : ScoreBreakdown} : a.add b = {} ↔ a = {} ∧ b = {} := by
  cases a
  cases b
  simp only [ScoreBreakdown.add, ScoreBreakdown.mk.injEq]
  omega

theorem foldl_add_eq_zero (bs : List ScoreBreakdown) (a : ScoreBreakdown) :
    bs.foldl ScoreBreakdown.add a = {} ↔ a = {} ∧ ∀ b ∈ bs, b = {} := by
  induction bs generalizing a with
  | nil => simp
  | cons b bs ih => simp [ih, add_eq_zero, and_assoc]

/-- An argument mismatch outside the frame cascade that consists of constants
under relocations to the same symbol and addend. -/
def SilentRow (c : Columns) (frameDiff : Int64) (row : RowPair) : Prop :=
  rowKind row = some .argMismatch ∧ ∃ p, parsePair c row = some p ∧
    p.isFrameCascade frameDiff = false ∧ p.differing p.argDiffCount ≠ [] ∧
    ∀ i ∈ p.differing p.argDiffCount, p.isSilentConstant i = true

/-- A parsed argument mismatch adds nothing exactly if it is silent. -/
theorem silentRow_iff {c : Columns} {frameDiff : Int64} {row : RowPair} {p : ParsedPair}
    (hk : rowKind row = some .argMismatch) (hp : parsePair c row = some p) :
    ¬(scoreLoud c frameDiff row ∨ ∃ k, scoreCauses c frameDiff row k) ↔
      SilentRow c frameDiff row := by
  have hsilent : SilentRow c frameDiff row ↔ p.isFrameCascade frameDiff = false ∧
      p.differing p.argDiffCount ≠ [] ∧
      ∀ i ∈ p.differing p.argDiffCount, p.isSilentConstant i = true := by
    simp [SilentRow, hk, hp]
  have hloud : scoreLoud c frameDiff row ↔ p.isFrameCascade frameDiff = false ∧
      (p.differing p.argDiffCount = [] ∨ ∃ i ∈ p.differing p.argDiffCount, p.countsArg i) := by
    simp only [scoreLoud, hk, hp]
  rw [hsilent, hloud]
  simp only [scoreCauses_parsed hk hp, ParsedPair.causes]
  cases hf : p.isFrameCascade frameDiff with
  | true => simp
  | false =>
    simp only [true_and, Bool.false_eq_true, ↓reduceIte]
    constructor
    · intro h
      have hne : p.differing p.argDiffCount ≠ [] := fun he => h (.inl (.inl he))
      refine ⟨hne, ?_⟩
      intro i hi
      cases hs : swapOf (p.args i) with
      | some pair => exact absurd (.inr ⟨_, i, hi, pair, hs, rfl⟩) h
      | none =>
        cases hq : p.isSilentConstant i with
        | true => rfl
        | false => exact absurd (.inl (.inr ⟨i, hi, hs, hq⟩)) h
    · rintro ⟨hne, hall⟩ ((he | ⟨i, hi, -, hq⟩) | ⟨k, i, hi, pair, hs, -⟩)
      · exact hne he
      · rw [hall i hi] at hq
        cases hq
      · rw [isSilentConstant_swapOf (hall i hi)] at hs
        cases hs

theorem quietRow_iff {c : Columns} {frameDiff : Int64} {row : RowPair} (hk : rowKind row ≠ none) :
    ¬(scoreLoud c frameDiff row ∨ ∃ k, scoreCauses c frameDiff row k) ↔
      rowKind row = some .none ∨ SilentRow c frameDiff row := by
  cases hr : rowKind row with
  | none => exact absurd hr hk
  | some kind =>
    cases kind with
    | argMismatch =>
      cases hp : parsePair c row with
      | none => simp [scoreLoud, SilentRow, hr, hp]
      | some p =>
        rw [silentRow_iff hr hp]
        simp
    | none => simp [scoreLoud, scoreCauses, hr]
    | _ => simp [scoreLoud, SilentRow, hr]

/-- **The breakdown.** It is zero exactly if every row is of kind `None` or
silent; the raw score is zero exactly if every row is of kind `None`. -/
theorem summarize_zero_iff {cap : CaptureDiffSlices} {p : DiffPair} {left right : SymbolDiff}
    (h : diffCode cap p = .ok (left, right)) {ops : List InstructionRef}
    (hops : functionOps p.leftObj p.leftSymbolIdx = .ok ops) (hne : ops ≠ []) :
    let d : DiffedPair := ⟨p.leftObj, p.leftSymbolIdx, left, p.rightObj, p.rightSymbolIdx, right⟩
    (d.summarizeMismatches = {} ↔ ∀ row ∈ d.rows,
      rowKind row = some .none ∨ SilentRow d.columns d.scoreFrameDiff row) ∧
    (rawScore right = 0 ↔ ∀ row ∈ d.rows, rowKind row = some .none) := by
  intro d
  constructor
  · have hflag := (classifyRow_firstSeen d.columns d.scoreFrameDiff).exists_flagged_iff
      Seen.empty_fresh d.rows
    have hnone := not_congr hflag
    push Not at hnone
    rw [DiffedPair.summarizeMismatches, foldl_add_eq_zero]
    simp only [true_and]
    rw [hnone]
    refine forall₂_congr fun row hrow => ?_
    rw [← quietRow_iff (rowPairs_kind_ne hrow), not_or, not_exists]
  · obtain ⟨ops', score, hcode⟩ := diffCode_spec h
    obtain rfl : ops' = ops := Except.ok.inj (hcode.scanned.symm.trans hops)
    have hraw : rawScore right = min score (ops'.length * penaltyInsertDelete) := by
      simp [rawScore, hcode.rightScore]
    rw [hraw, hcode.score_zero_iff hne, DiffedPair.rows, rowPairs_none_iff, ← hcode.right_rows,
      and_self]

/-- The pool base register is computed differently, and the offset makes up for it. -/
def pooledPair : DiffPair := ⟨pooledLoad 0 16, pooledLoad 8 8, 0, 0, scoreConfig⟩

def pooledDiff (left right : SymbolDiff) : DiffedPair :=
  ⟨pooledLoad 0 16, 0, left, pooledLoad 8 8, 0, right⟩

theorem pooled_ops : functionOps pooledPair.leftObj pooledPair.leftSymbolIdx =
    .ok [⟨0, 4, 15, none⟩, ⟨4, 4, 14, none⟩, ⟨8, 4, 48, none⟩] := by
  decide +kernel

theorem pooled_diffed : ∃ left right, diffCode oneBlockDiff pooledPair = .ok (left, right) ∧
    (pooledDiff left right).summarizeMismatches = {} ∧ rawScore right = 1 := by
  have hrun : (diffCode oneBlockDiff pooledPair).map (fun d =>
      ((pooledDiff d.1 d.2).summarizeMismatches, rawScore d.2)) = .ok ({}, 1) := by
    decide +kernel
  cases hd : diffCode oneBlockDiff pooledPair with
  | error e =>
    rw [hd] at hrun
    cases hrun
  | ok d =>
    rw [hd] at hrun
    exact ⟨d.1, d.2, rfl, congrArg Prod.fst (Except.ok.inj hrun),
      congrArg Prod.snd (Except.ok.inj hrun)⟩

/-- One load differs, and it is silent. -/
theorem summarize_zero_pooled_rows : ∃ left right,
    diffCode oneBlockDiff pooledPair = .ok (left, right) ∧
      (∀ row ∈ (pooledDiff left right).rows, rowKind row = some .none ∨
        SilentRow (pooledDiff left right).columns (pooledDiff left right).scoreFrameDiff row) ∧
      ¬∀ row ∈ (pooledDiff left right).rows, rowKind row = some .none := by
  obtain ⟨left, right, hd, hzero, hraw⟩ := pooled_diffed
  obtain ⟨hsum, hscore⟩ := summarize_zero_iff hd pooled_ops (by decide)
  refine ⟨left, right, hd, hsum.mp hzero, ?_⟩
  intro hall
  have := hscore.mpr hall
  omega

/-- A constant differs: the raw score counts it and the breakdown does not. -/
theorem summarize_zero_mismatched : ∃ left right,
    diffCode oneBlockDiff pooledPair = .ok (left, right) ∧
      (∃ ops, functionOps pooledPair.leftObj pooledPair.leftSymbolIdx = .ok ops ∧ ops ≠ []) ∧
      ¬((pooledDiff left right).summarizeMismatches = {} ↔ rawScore right = 0) := by
  obtain ⟨left, right, hd, hzero, hraw⟩ := pooled_diffed
  refine ⟨left, right, hd, ⟨_, pooled_ops, by decide⟩, ?_⟩
  rw [hzero, hraw]
  simp

end MeleeHarness.Objdiff
