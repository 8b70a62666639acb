import MeleeHarness.Objdiff.Marker

/-!
# Which rows are marked

* `marks_step`, `marks_run`: the comparison of a row's arguments keeps what it has
  marked and the register pairs it has seen;
* `computeMarker_firstSeen`: a row is marked exactly if it has a mismatch of its
  own, or is the first to show the frame or a register pair;
* `unmarked_iff`: the rows that have neither.
-/

namespace MeleeHarness.Objdiff

open Lib

theorem toMarker_blank (k : MarkerKinds) : Blank k.toMarker ↔ k.any = false := by
  obtain ⟨r, c, s, a, d, i⟩ := k
  revert r c s a d i
  decide

/-- An argument that `arg_kind` has a letter for. -/
def showsKind : Option InstructionArg → Bool
  | some (.value _) => true
  | some (.branchDest _) => true
  | _ => false

theorem argKind?_any (arg : Option InstructionArg) (referencesR1 : Bool) (into : MarkerKinds) :
    (argKind? arg referencesR1 into).any = (into.any || showsKind arg) := by
  unfold argKind? argKind
  split
  · split <;> (try split) <;> simp [MarkerKinds.any, showsKind]
  · simp [showsKind]

/-- An argument that marks its row whenever it occurs. -/
def ParsedPair.marksArg (p : ParsedPair) (i : Nat) : Prop :=
  bothReloc (p.args i) = true ∨ p.isSilentConstant i = false ∧ swapOf (p.args i) = none ∧
    (showsKind (p.args i).1 = true ∨ showsKind (p.args i).2 = true)

theorem swapOf_bothReloc {args : Option InstructionArg × Option InstructionArg}
    (h : bothReloc args = true) : swapOf args = none := by
  unfold bothReloc at h
  split at h
  · rfl
  · cases h

/-- What the argument loop has established once it has read the positions `read`. -/
structure Marks (p : ParsedPair) (start : ArgMarks) (read : List Nat) (s : ArgMarks) : Prop where
  marked : s.kinds.any = true ∨ s.relocDiff = true ↔ start.kinds.any = true ∨
    ∃ i ∈ read, p.argDiffers i = true ∧
      (p.marksArg i ∨ ∃ pair, swapOf (p.args i) = some pair ∧ ¬start.seen.Has (.swap pair))
  hadArgDiff : s.hadArgDiff = true ↔ ∃ i ∈ read, p.argDiffers i = true
  seen : ∀ k, s.seen.Has k ↔ start.seen.Has k ∨ ∃ i ∈ read, p.argDiffers i = true ∧
    ∃ pair, swapOf (p.args i) = some pair ∧ k = .swap pair

theorem addSwap_any (s : ArgMarks) (pair : String × String) :
    (s.addSwap {} pair).kinds.any = true ↔ s.kinds.any = true ∨ ¬s.seen.Has (.swap pair) := by
  rw [← s.seen.insertSwap_new pair]
  cases hi : (s.seen.insertSwap pair).1 <;> simp [ArgMarks.addSwap, hi, MarkerKinds.any]

namespace Marks

variable {p : ParsedPair} {start s t : ArgMarks} {read : List Nat} {i : Nat}

theorem skip (h : Marks p start read s) (hd : p.argDiffers i = false) :
    Marks p start (read ++ [i]) s := by
  constructor
  · rw [exists_mem_snoc, h.marked]
    simp [hd]
  · rw [exists_mem_snoc, h.hadArgDiff]
    simp [hd]
  · intro k
    rw [exists_mem_snoc, h.seen]
    simp [hd]

/-- A position that is no register pair leaves the pairs seen alone. -/
theorem other (h : Marks p start read s) (hd : p.argDiffers i = true)
    (hs : swapOf (p.args i) = none) (hhad : t.hadArgDiff = true) (hseen : t.seen = s.seen)
    (hm : t.kinds.any = true ∨ t.relocDiff = true ↔
      (s.kinds.any = true ∨ s.relocDiff = true) ∨ p.marksArg i) :
    Marks p start (read ++ [i]) t := by
  constructor
  · rw [exists_mem_snoc, hm, h.marked, or_assoc]
    simp [hd, hs]
  · rw [exists_mem_snoc]
    simp [hhad, hd]
  · intro k
    rw [exists_mem_snoc, hseen, h.seen]
    simp [hs]

/-- A pair that an earlier position has added has marked the row there. -/
theorem seen_or_marked (h : Marks p start read s) {pair : String × String}
    (hold : s.seen.Has (.swap pair)) (hstart : ¬start.seen.Has (.swap pair)) :
    s.kinds.any = true ∨ s.relocDiff = true := by
  rcases (h.seen _).mp hold with hs | ⟨j, hj, hjd, q, hq, hk⟩
  · exact absurd hs hstart
  · cases hk
    exact h.marked.mpr (.inr ⟨j, hj, hjd, .inr ⟨pair, hq, hstart⟩⟩)

theorem addSwap (h : Marks p start read s) (hd : p.argDiffers i = true)
    (hb : bothReloc (p.args i) = false) {pair : String × String}
    (hs : swapOf (p.args i) = some pair) :
    Marks p start (read ++ [i]) (ArgMarks.addSwap {} { s with hadArgDiff := true } pair) := by
  constructor
  · have hmarks : ¬p.marksArg i := by simp [ParsedPair.marksArg, hb, hs]
    have hreloc : (ArgMarks.addSwap {} { s with hadArgDiff := true } pair).relocDiff =
        s.relocDiff := rfl
    rw [exists_mem_snoc, ← or_assoc, ← h.marked, addSwap_any, hreloc]
    simp only [hd, hs, hmarks, Option.some.injEq, exists_eq_left', true_and, false_or]
    constructor
    · rintro ((ha | hn) | hr)
      · exact .inl (.inl ha)
      · exact .inr fun hstart => hn ((h.seen _).mpr (.inl hstart))
      · exact .inl (.inr hr)
    · rintro ((ha | hr) | hn)
      · exact .inl (.inl ha)
      · exact .inr hr
      · by_cases hold : s.seen.Has (.swap pair)
        · rcases h.seen_or_marked hold hn with ha | hr
          · exact .inl (.inl ha)
          · exact .inr hr
        · exact .inl (.inr hold)
  · rw [exists_mem_snoc]
    simp [ArgMarks.addSwap, hd]
  · intro k
    rw [exists_mem_snoc]
    simp only [ArgMarks.addSwap, ↓reduceIte, Seen.insertSwap_has, h.seen, hd, hs,
      Option.some.injEq, exists_eq_left', true_and, or_assoc]

end Marks

theorem marks_step {p : ParsedPair} {start : ArgMarks} {read : List Nat} {s : ArgMarks}
    (h : Marks p start read s) (i : Nat) :
    Marks p start (read ++ [i]) (markArg {} p s i) := by
  unfold markArg
  cases hd : p.argDiffers i with
  | false => exact h.skip hd
  | true =>
    cases hb : bothReloc (p.args i) with
    | true =>
      apply h.other hd (swapOf_bothReloc hb) <;> simp [ParsedPair.marksArg, hb]
    | false =>
      cases hq : p.isSilentConstant i with
      | true =>
        apply h.other hd (isSilentConstant_swapOf hq) <;> simp [ParsedPair.marksArg, hb, hq]
      | false =>
        cases hs : swapOf (p.args i) with
        | some pair => exact h.addSwap hd hb hs
        | none =>
          refine h.other hd hs rfl rfl ?_
          simp only [Bool.not_true, Bool.false_eq_true, ↓reduceIte, argKind?_any,
            ParsedPair.marksArg, hb, hq, hs, Bool.or_eq_true, false_or, true_and]
          tauto

theorem marks_run (p : ParsedPair) (start : ArgMarks) (hreloc : start.relocDiff = false)
    (hhad : start.hadArgDiff = false) :
    Marks p start (List.range p.argDiffCount)
      ((List.range p.argDiffCount).foldl (markArg {} p) start) := by
  apply foldl_invariant (Marks p start)
  · constructor <;> simp [hreloc, hhad]
  · intro read s i hs
    exact marks_step hs i

theorem relocKinds_any (c : Columns) (p : ParsedPair) (m : ArgMarks) :
    (relocKinds c p m).any = true ↔ m.kinds.any = true ∨ m.relocDiff = true := by
  unfold relocKinds
  split
  · split <;> simp_all [MarkerKinds.any]
  · simp_all

theorem finishKinds_any (c : Columns) (p : ParsedPair) (kind : InstructionDiffKind)
    (m : ArgMarks) : (finishKinds c p kind m).any = true ↔
      (m.kinds.any = true ∨ m.relocDiff = true) ∨ m.hadArgDiff = false := by
  have hi (k : MarkerKinds) : ({ k with i := true } : MarkerKinds).any = true := by
    simp [MarkerKinds.any]
  have ha (k : MarkerKinds) : ({ k with a := true } : MarkerKinds).any = true := by
    simp [MarkerKinds.any]
  rw [← relocKinds_any c p]
  unfold finishKinds
  cases hk : (relocKinds c p m).any with
  | true => simp [hk]
  | false =>
    cases hd : m.hadArgDiff with
    | true => simp [hk]
    | false =>
      simp only [and_true]
      by_cases hop : kind = .opMismatch ∨ kind = .replace
      · simp [hop, hk, hi]
      · simp [hop, hk, ha]

/-- A parsed row outside the cascade is marked for a mnemonic, for an argument,
for a register pair that is new, or because no argument differs. -/
theorem markArgs_marked (c : Columns) (p : ParsedPair) (kind : InstructionDiffKind) (seen : Seen) :
    ¬Blank (markArgs {} c p kind seen).1 ↔
      (p.targetIns.mnemonic ≠ p.baseIns.mnemonic ∨ p.differing p.argDiffCount = [] ∨
        ∃ i ∈ p.differing p.argDiffCount, p.marksArg i) ∨
      ∃ i ∈ p.differing p.argDiffCount, ∃ pair,
        swapOf (p.args i) = some pair ∧ ¬seen.Has (.swap pair) := by
  have h := marks_run p (p.startMarks seen) rfl rfl
  have hstart : (p.startMarks seen).kinds.any = true ↔
      p.targetIns.mnemonic ≠ p.baseIns.mnemonic := by
    simp [ParsedPair.startMarks, MarkerKinds.any]
  rw [markArgs, toMarker_blank, Bool.not_eq_false, finishKinds_any, h.marked,
    ← Bool.not_eq_true, h.hadArgDiff, hstart, p.differing_eq_nil, p.exists_differing,
    p.exists_differing]
  simp only [and_or_left, exists_or]
  constructor
  · rintro ((hm | ha | hp) | hn)
    · exact .inl (.inl hm)
    · exact .inl (.inr (.inr ha))
    · exact .inr hp
    · exact .inl (.inr (.inl hn))
  · rintro ((hm | hn | ha) | hp)
    · exact .inl (.inl hm)
    · exact .inr hn
    · exact .inl (.inr (.inl ha))
    · exact .inl (.inr (.inr hp))

theorem markArgs_seen (c : Columns) (p : ParsedPair) (kind : InstructionDiffKind) (seen : Seen)
    (k : Cause) : (markArgs {} c p kind seen).2.Has k ↔ seen.Has k ∨ p.causes false k := by
  have h := (marks_run p (p.startMarks seen) rfl rfl).seen k
  rw [markArgs, h, ParsedPair.causes]
  simp only [Bool.false_eq_true, ↓reduceIte, p.exists_differing, ParsedPair.startMarks]

/-- Kinds for which both instructions are looked at. -/
def isCompared : InstructionDiffKind → Bool
  | .replace => true
  | .opMismatch => true
  | .argMismatch => true
  | _ => false

/-- A parsed row with a mismatch that the display marks every time. -/
def ParsedPair.displayLoud (p : ParsedPair) (cascade : Bool) : Prop :=
  cascade = false ∧ (p.targetIns.mnemonic ≠ p.baseIns.mnemonic ∨
    p.differing p.argDiffCount = [] ∨ ∃ i ∈ p.differing p.argDiffCount, p.marksArg i)

/-- A row with a mismatch of its own. -/
def displayLoud (c : Columns) (frameDiff : Option Int64) (row : RowPair) : Prop :=
  rowKind row = some .insert ∨ rowKind row = some .delete ∨
    (rowKind row).any isCompared = true ∧
      ∀ p, parsePair c row = some p → p.displayLoud (p.isKnownCascade frameDiff)

def displayCauses (c : Columns) (frameDiff : Option Int64) (row : RowPair) (k : Cause) : Prop :=
  (rowKind row).any isCompared = true ∧
    ∃ p, parsePair c row = some p ∧ p.causes (p.isKnownCascade frameDiff) k

/-- A parsed row that differs only in arguments without a letter: constants under equal
relocations, and a relocation where the other side has no argument. -/
def ParsedPair.IsUnlettered (p : ParsedPair) (cascade : Bool) : Prop :=
  cascade = false ∧ p.targetIns.mnemonic = p.baseIns.mnemonic ∧ p.differing p.argDiffCount ≠ [] ∧
    ∀ i ∈ p.differing p.argDiffCount, p.isSilentConstant i = true ∨
      bothReloc (p.args i) = false ∧ showsKind (p.args i).1 = false ∧ showsKind (p.args i).2 = false

/-- A row that differs and that the display leaves without a mark. -/
def Unlettered (c : Columns) (frameDiff : Option Int64) (row : RowPair) : Prop :=
  (rowKind row).any isCompared = true ∧
    ∃ p, parsePair c row = some p ∧ p.IsUnlettered (p.isKnownCascade frameDiff)

theorem swapOf_showsKind {args : Option InstructionArg × Option InstructionArg}
    {pair : String × String} (h : swapOf args = some pair) : showsKind args.1 = true := by
  unfold swapOf at h
  split at h
  · rfl
  · cases h

theorem isSilentConstant_bothReloc {p : ParsedPair} {i : Nat} (h : p.isSilentConstant i = true) :
    bothReloc (p.args i) = false := by
  cases hb : bothReloc (p.args i) with
  | false => rfl
  | true =>
    unfold bothReloc at hb
    split at hb
    · rename_i hargs
      simp [ParsedPair.isSilentConstant, hargs, numericArg, InstructionArg.isNumeric] at h
    · cases hb

/-- An argument without a letter neither marks its row nor is a register pair. -/
theorem ParsedPair.unmarkedArg_iff (p : ParsedPair) (i : Nat) :
    (¬p.marksArg i ∧ swapOf (p.args i) = none) ↔ p.isSilentConstant i = true ∨
      bothReloc (p.args i) = false ∧ showsKind (p.args i).1 = false ∧ showsKind (p.args i).2 = false := by
  constructor
  · rintro ⟨hmarks, hswap⟩
    have hreloc : bothReloc (p.args i) = false :=
      Bool.eq_false_iff.mpr fun h => hmarks (.inl h)
    cases hq : p.isSilentConstant i with
    | true => exact .inl rfl
    | false =>
      refine .inr ⟨hreloc, ?_, ?_⟩
      · exact Bool.eq_false_iff.mpr fun h => hmarks (.inr ⟨hq, hswap, .inl h⟩)
      · exact Bool.eq_false_iff.mpr fun h => hmarks (.inr ⟨hq, hswap, .inr h⟩)
  · rintro (hq | ⟨hreloc, ht, hb⟩)
    · have hreloc := isSilentConstant_bothReloc hq
      exact ⟨by simp [ParsedPair.marksArg, hreloc, hq], isSilentConstant_swapOf hq⟩
    · refine ⟨by simp [ParsedPair.marksArg, hreloc, ht, hb], ?_⟩
      cases hs : swapOf (p.args i) with
      | none => rfl
      | some pair => simp [swapOf_showsKind hs] at ht

theorem ParsedPair.unlettered_iff (p : ParsedPair) (cascade : Bool) :
    ¬(p.displayLoud cascade ∨ ∃ k, p.causes cascade k) ↔ p.IsUnlettered cascade := by
  cases cascade with
  | true => simp [ParsedPair.displayLoud, ParsedPair.causes, ParsedPair.IsUnlettered]
  | false =>
    simp only [ParsedPair.displayLoud, ParsedPair.causes, ParsedPair.IsUnlettered,
      ← p.unmarkedArg_iff, Bool.false_eq_true, ↓reduceIte, true_and]
    constructor
    · intro h
      refine ⟨?_, fun he => h (.inl (.inr (.inl he))), fun i hi => ⟨?_, ?_⟩⟩
      · by_contra hne
        exact h (.inl (.inl hne))
      · exact fun hm => h (.inl (.inr (.inr ⟨i, hi, hm⟩)))
      · cases hs : swapOf (p.args i) with
        | none => rfl
        | some pair => exact absurd (.inr ⟨_, i, hi, pair, hs, rfl⟩) h
    · rintro ⟨hsame, hne, hall⟩ ((hm | he | ⟨i, hi, hm⟩) | ⟨k, i, hi, pair, hs, -⟩)
      · exact hm hsame
      · exact hne he
      · exact (hall i hi).1 hm
      · rw [(hall i hi).2] at hs
        cases hs

/-- A row has neither a mismatch of its own nor a cause exactly if it does not differ, or has no
letter for what differs. -/
theorem unmarked_iff {c : Columns} {frameDiff : Option Int64} {row : RowPair} (hk : rowKind row ≠ none) :
    ¬(displayLoud c frameDiff row ∨ ∃ k, displayCauses c frameDiff row k) ↔
      rowKind row = some .none ∨ Unlettered c frameDiff row := by
  cases hc : (rowKind row).any isCompared with
  | false =>
    cases hr : rowKind row with
    | none => exact absurd hr hk
    | some kind =>
      cases kind <;> simp [hr, isCompared] at hc <;>
        simp [displayLoud, displayCauses, Unlettered, hr, isCompared]
  | true =>
    obtain ⟨kind, hr, hkind⟩ := (Option.any_eq_true _ _).mp hc
    have hne : kind ≠ .none ∧ kind ≠ .insert ∧ kind ≠ .delete := by
      cases kind <;> simp [isCompared] at hkind <;> decide
    cases hp : parsePair c row with
    | none => simp [displayLoud, displayCauses, Unlettered, hp, hr, hkind, hne]
    | some p =>
      have h := p.unlettered_iff (p.isKnownCascade frameDiff)
      simpa [displayLoud, displayCauses, Unlettered, hp, hr, hkind, hne] using h

theorem markParsed_firstSeen (c : Columns) (frameDiff : Option Int64) (kind : InstructionDiffKind)
    (p : ParsedPair) (seen : Seen) :
    (∀ k, (markParsed {} c frameDiff kind p seen).2.Has k ↔
      seen.Has k ∨ p.causes (p.isKnownCascade frameDiff) k) ∧
    (¬Blank (markParsed {} c frameDiff kind p seen).1 ↔
      p.displayLoud (p.isKnownCascade frameDiff) ∨
        ∃ k, p.causes (p.isKnownCascade frameDiff) k ∧ ¬seen.Has k) := by
  unfold markParsed
  cases hc : p.isKnownCascade frameDiff with
  | true =>
    cases hf : seen.frame with
    | true =>
      have hhas : seen.Has .frame := hf
      simp only [↓reduceIte, Bool.and_self, ParsedPair.causes, ParsedPair.displayLoud,
        Bool.true_eq_false, false_and, false_or, exists_eq_left, hhas, not_true_eq_false,
        iff_false, not_not]
      refine ⟨?_, by decide⟩
      intro k
      constructor
      · exact .inl
      · rintro (h | rfl)
        · exact h
        · exact hhas
    | false =>
      have hhas : ¬seen.Has .frame := by simp [Seen.Has, hf]
      simp only [↓reduceIte, Bool.false_and, Bool.false_eq_true, ParsedPair.causes,
        ParsedPair.displayLoud, Bool.true_eq_false, false_and, false_or, exists_eq_left, hhas,
        not_false_eq_true, iff_true]
      refine ⟨?_, by decide⟩
      intro k
      cases k <;> simp [Seen.Has]
  | false =>
    simp only [Bool.false_eq_true, ↓reduceIte]
    refine ⟨markArgs_seen c p kind seen, ?_⟩
    rw [markArgs_marked]
    simp only [ParsedPair.displayLoud, ParsedPair.causes, true_and, Bool.false_eq_true, ↓reduceIte]
    refine or_congr_right ?_
    constructor
    · rintro ⟨i, hi, pair, hpair, hnew⟩
      exact ⟨_, ⟨i, hi, pair, hpair, rfl⟩, hnew⟩
    · rintro ⟨k, ⟨i, hi, pair, hpair, rfl⟩, hnew⟩
      exact ⟨i, hi, pair, hpair, hnew⟩

/-- What a row of a compared kind is marked with. -/
theorem computeMarker_compared {c : Columns} {frameDiff : Option Int64} {seen : Seen}
    {row : RowPair} {kind : InstructionDiffKind} (flags : MarkerFlags)
    (hr : rowKind row = some kind) (hk : isCompared kind = true) :
    computeMarker flags c frameDiff seen row =
      match parsePair c row with
      | none => (unparsedMarker kind, seen)
      | some p => markParsed flags c frameDiff kind p seen := by
  cases hp : parsePair c row <;> cases kind <;> simp [isCompared] at hk <;>
    simp [computeMarker, hr, hp]

theorem computeMarker_plain {c : Columns} {frameDiff : Option Int64} {seen : Seen}
    {row : RowPair} (flags : MarkerFlags) (h : (rowKind row).any isCompared = false) :
    (computeMarker flags c frameDiff seen row).2 = seen ∧
      (¬Blank (computeMarker flags c frameDiff seen row).1 ↔
        rowKind row = some .insert ∨ rowKind row = some .delete) := by
  cases hr : rowKind row with
  | none =>
    simp only [computeMarker, hr]
    decide
  | some kind =>
    cases kind <;> simp [hr, isCompared] at h <;> simp only [computeMarker, hr] <;> decide

/-- The display marks each cause once. -/
theorem computeMarker_firstSeen (c : Columns) (frameDiff : Option Int64) :
    FirstSeen (computeMarker {} c frameDiff) Seen.Has (fun m => ¬Blank m)
      (displayLoud c frameDiff) (displayCauses c frameDiff) := by
  have unparsed (kind : InstructionDiffKind) : ¬Blank (unparsedMarker kind) := by
    unfold unparsedMarker
    split <;> decide
  constructor
  · intro seen row k
    cases hc : (rowKind row).any isCompared with
    | false => simp [(computeMarker_plain {} hc).1, displayCauses, hc]
    | true =>
      obtain ⟨kind, hr, hk⟩ := (Option.any_eq_true _ _).mp hc
      rw [computeMarker_compared {} hr hk]
      cases hp : parsePair c row with
      | none => simp [displayCauses, hp]
      | some p => simp [(markParsed_firstSeen c frameDiff kind p seen).1, displayCauses, hc, hp]
  · intro seen row
    cases hc : (rowKind row).any isCompared with
    | false => simp [(computeMarker_plain {} hc).2, displayLoud, displayCauses, hc]
    | true =>
      obtain ⟨kind, hr, hk⟩ := (Option.any_eq_true _ _).mp hc
      have hins : rowKind row ≠ some .insert ∧ rowKind row ≠ some .delete := by
        constructor <;> intro h <;> simp [h, isCompared] at hc
      rw [computeMarker_compared {} hr hk]
      cases hp : parsePair c row with
      | none => simp [displayLoud, hc, hp, unparsed]
      | some p =>
        simp [(markParsed_firstSeen c frameDiff kind p seen).2, displayLoud, displayCauses, hc, hp,
          hins.1, hins.2]

end MeleeHarness.Objdiff
