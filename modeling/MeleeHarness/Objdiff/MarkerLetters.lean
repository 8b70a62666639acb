import MeleeHarness.Objdiff.MarkerCauses

/-!
# The letters of a marker

* `computeMarker_shape`: a marker is one blank or a run of letters;
* `computeMarker_d`: the letter for data stands exactly in front of the rows in
  which a relocation differs in the data it reaches.
-/

namespace MeleeHarness.Objdiff

open Lib

/-! ## The shape of a marker -/

def markerLetters : Text := "+-?frcsadi".toList

/-- A single blank, or letters. -/
def MarkerShape (marker : Text) : Prop := marker = [' '] ∨ ∀ ch ∈ marker, ch ∈ markerLetters

instance (marker : Text) : Decidable (MarkerShape marker) :=
  inferInstanceAs (Decidable (_ ∨ _))

theorem toMarker_shape (k : MarkerKinds) : MarkerShape k.toMarker := by
  obtain ⟨r, c, s, a, d, i⟩ := k
  revert r c s a d i
  decide

theorem computeMarker_shape (flags : MarkerFlags) (c : Columns) (frameDiff : Option Int64)
    (seen : Seen) (row : RowPair) :
    MarkerShape (computeMarker flags c frameDiff seen row).1 := by
  cases hc : (rowKind row).any isCompared with
  | false =>
    cases hr : rowKind row with
    | none =>
      simp only [computeMarker, hr]
      decide
    | some kind =>
      cases kind <;> simp [hr, isCompared] at hc <;> simp only [computeMarker, hr] <;> decide
  | true =>
    obtain ⟨kind, hr, hk⟩ := (Option.any_eq_true _ _).mp hc
    rw [computeMarker_compared flags hr hk]
    cases parsePair c row with
    | none =>
      simp only [unparsedMarker]
      split <;> decide
    | some p =>
      simp only [markParsed]
      split
      · split
        · exact .inl rfl
        · exact .inr (by decide : ∀ ch ∈ ['f'], ch ∈ markerLetters)
      · exact toMarker_shape _

theorem MarkerShape.blank_or_head {marker : Text} (h : MarkerShape marker) (hb : ¬Blank marker) :
    ∃ ch rest, marker = ch :: rest ∧ ch ∈ markerLetters := by
  rcases h with rfl | h
  · exact absurd (by decide) hb
  · cases marker with
    | nil => exact absurd (by decide) hb
    | cons ch rest => exact ⟨ch, rest, rfl, h ch List.mem_cons_self⟩

theorem MarkerShape.mem {marker : Text} (h : MarkerShape marker) {ch : Char} (hc : ch ∈ marker) :
    ch ∈ ' ' :: markerLetters := by
  rcases h with rfl | h
  · rw [List.mem_singleton.mp hc]
    exact List.mem_cons_self
  · exact List.mem_cons_of_mem _ (h ch hc)

/-! ## Rows that show data -/

/-- A relocation differs in the data it reaches, outside the cascade. -/
def ParsedPair.dataShown (c : Columns) (frameDiff : Option Int64) (p : ParsedPair) : Bool :=
  !p.isKnownCascade frameDiff &&
    ((p.differing p.argDiffCount).any fun i => bothReloc (p.args i)) && literalsDiffer c p

def dataShown (c : Columns) (frameDiff : Option Int64) (row : RowPair) : Bool :=
  (rowKind row).any isCompared && (parsePair c row).any (ParsedPair.dataShown c frameDiff)

theorem mem_toMarker_d (k : MarkerKinds) : 'd' ∈ k.toMarker ↔ k.d = true := by
  obtain ⟨r, c, s, a, d, i⟩ := k
  revert r c s a d i
  decide

theorem argKind?_d (arg : Option InstructionArg) (referencesR1 : Bool) (into : MarkerKinds) :
    (argKind? arg referencesR1 into).d = into.d := by
  unfold argKind? argKind
  split
  · split <;> (try split) <;> rfl
  · rfl

theorem addSwap_d (flags : MarkerFlags) (s : ArgMarks) (pair : String × String) :
    (s.addSwap flags pair).kinds.d = s.kinds.d ∧
      (s.addSwap flags pair).relocDiff = s.relocDiff := by
  unfold ArgMarks.addSwap
  split
  · simp only
    split <;> simp
  · simp

/-- The loop sets no `d` itself, and finds the relocations that differ. -/
theorem markArgs_d (flags : MarkerFlags) (p : ParsedPair) (seen : Seen) :
    let m := (List.range p.argDiffCount).foldl (markArg flags p) (p.startMarks seen)
    m.kinds.d = false ∧ (m.relocDiff = true ↔
      ∃ i ∈ List.range p.argDiffCount, p.argDiffers i = true ∧ bothReloc (p.args i) = true) := by
  refine foldl_invariant (fun read (s : ArgMarks) => s.kinds.d = false ∧
    (s.relocDiff = true ↔ ∃ i ∈ read, p.argDiffers i = true ∧ bothReloc (p.args i) = true)) ?_ ?_ _
  · simp [ParsedPair.startMarks]
  · rintro read s i ⟨hd, hreloc⟩
    have last : (markArg flags p s i).kinds.d = false ∧ ((markArg flags p s i).relocDiff = true ↔
        s.relocDiff = true ∨ p.argDiffers i = true ∧ bothReloc (p.args i) = true) := by
      unfold markArg
      cases hi : p.argDiffers i with
      | false => simp [hd]
      | true =>
        cases hb : bothReloc (p.args i) with
        | true => simp [hd]
        | false =>
          cases hq : p.isSilentConstant i with
          | true => simp [hd]
          | false =>
            cases hs : swapOf (p.args i) with
            | none => simp [hd, argKind?_d]
            | some pair =>
              have hswap := addSwap_d flags { s with hadArgDiff := true } pair
              simp [hswap.1, hswap.2, hd]
    refine ⟨last.1, ?_⟩
    rw [last.2, hreloc, exists_mem_snoc]

theorem finishKinds_d (c : Columns) (p : ParsedPair) (kind : InstructionDiffKind) (m : ArgMarks)
    (hd : m.kinds.d = false) :
    (finishKinds c p kind m).d = (m.relocDiff && literalsDiffer c p) := by
  have hreloc : (relocKinds c p m).d = (m.relocDiff && literalsDiffer c p) := by
    unfold relocKinds
    cases m.relocDiff <;> cases literalsDiffer c p <;> simp [hd]
  rw [← hreloc]
  unfold finishKinds
  simp only
  split <;> split <;> rfl

theorem computeMarker_d (flags : MarkerFlags) (c : Columns) (frameDiff : Option Int64)
    (seen : Seen) (row : RowPair) :
    (computeMarker flags c frameDiff seen row).1.contains 'd' = dataShown c frameDiff row := by
  cases hc : (rowKind row).any isCompared with
  | false =>
    cases hr : rowKind row with
    | none => simp [computeMarker, dataShown, hr]
    | some kind =>
      cases kind <;> simp [hr, isCompared] at hc <;> simp [computeMarker, dataShown, hr, isCompared]
  | true =>
    obtain ⟨kind, hr, hk⟩ := (Option.any_eq_true _ _).mp hc
    rw [computeMarker_compared flags hr hk, dataShown, hc, Bool.true_and]
    cases parsePair c row with
    | none =>
      simp only [unparsedMarker, Option.any_none]
      split <;> decide
    | some p =>
      simp only [markParsed, Option.any_some, ParsedPair.dataShown]
      cases p.isKnownCascade frameDiff with
      | true =>
        simp only [↓reduceIte, Bool.not_true, Bool.false_and]
        split <;> simp
      | false =>
        obtain ⟨hd, hreloc⟩ := markArgs_d flags p seen
        simp only [Bool.false_eq_true, ↓reduceIte, Bool.not_false, Bool.true_and, markArgs]
        rw [Bool.eq_iff_iff, List.contains_iff_mem, mem_toMarker_d, finishKinds_d c p kind _ hd,
          Bool.and_eq_true, Bool.and_eq_true, hreloc, List.any_eq_true, p.exists_differing]

end MeleeHarness.Objdiff
