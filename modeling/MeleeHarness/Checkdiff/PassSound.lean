import MeleeHarness.Checkdiff.Verdict

/-!
# What a PASS says

`pass_sound_iff`: `PASS` is printed for a match only, exactly if a gap never
stands alone: where the two functions were not compared, where a row differs in
arguments without a letter, or where a line break parts a mark from its bar,
another row has to show a mismatch. A function that only one object has is the
first of the gaps.
-/

namespace MeleeHarness.Checkdiff

open Lib Objdiff

/-! ## Lines that flag the output -/

/-- A line that counts as a mismatch: it has a bar, and no blank in column 0. -/
def Flagged (line : Text) : Prop := '|' ∈ line ∧ ∃ c rest, line = c :: rest ∧ isSpace c = false

theorem flagged_iff (line : Text) :
    (line.contains '|' && !isMatchingLine line) = true ↔ Flagged line := by
  cases line with
  | nil => simp [Flagged]
  | cons c rest =>
    by_cases hb : '|' ∈ c :: rest
    · simp [Flagged, isMatchingLine, hb]
    · simp [Flagged, hb]

/-- The lines a row's two columns take up. -/
def bodyLines (width : Nat) (text : Text × Text) : List Text :=
  splitlines (rowBody width text.1 text.2 ++ ['\n'])

/-- Lines of which the first one carries the marker. -/
def RowFlags (marked : Prop) : List Text → Prop
  | [] => False
  | first :: rest => marked ∧ '|' ∈ first ∨ ∃ line ∈ rest, Flagged line

theorem marker_flags {marker : Text} (h : MarkerShape marker) (width : Nat) (first : Text) :
    Flagged (padRight width marker ++ ' ' :: first) ↔ ¬Blank marker ∧ '|' ∈ first := by
  have hbar : '|' ∈ padRight width marker ++ ' ' :: first ↔ '|' ∈ first := by
    have hplain := (plain_marker h width).2
    simp only [List.mem_append, List.mem_singleton, not_or] at hplain
    simp [hplain.1]
  rw [Flagged, hbar, and_comm]
  refine and_congr_left fun _ => ?_
  constructor
  · rintro ⟨c, rest, heq, hc⟩ hblank
    have hpad : ∀ ch ∈ padRight width marker, ch = ' ' := by
      intro ch hch
      rcases List.mem_append.mp hch with hch | hch
      · exact hblank ch hch
      · exact List.eq_of_mem_replicate hch
    obtain rfl : c = ' ' := by
      cases hm : padRight width marker with
      | nil =>
        rw [hm] at heq
        exact (List.cons.inj heq).1.symm
      | cons ch chs =>
        rw [hm] at heq
        rw [← (List.cons.inj heq).1]
        exact hpad ch (hm ▸ List.mem_cons_self)
    exact absurd hc (by decide)
  · intro hblank
    obtain ⟨ch, rest, rfl, hletter⟩ := h.blank_or_head hblank
    refine ⟨ch, _, rfl, ?_⟩
    have hletters : ∀ ch ∈ markerLetters, isSpace ch = false := by decide
    exact hletters ch hletter

theorem rowLines_flagged {row : PrintedRow} (h : MarkerShape row.marker) (mw lw : Nat) :
    (∃ line ∈ rowLines mw lw row, Flagged line) ↔
      RowFlags (¬Blank row.marker) (bodyLines lw (row.left, row.right)) := by
  obtain ⟨first, rest, hbody, hlines⟩ := rowLines_eq h mw lw
  rw [hlines, bodyLines, hbody, RowFlags]
  simp [marker_flags h]

/-- The output is flagged exactly by its rows. -/
theorem hasMismatch_print (fmt : PercentFormat) (percent : Option Rat) {rows : List PrintedRow}
    (h : ∀ row ∈ rows, MarkerShape row.marker) :
    hasMismatch (printTwoColumn fmt percent rows) = true ↔
      ∃ row ∈ rows, RowFlags (¬Blank row.marker)
        (bodyLines (leftWidth rows) (row.left, row.right)) := by
  have hheader := (plain_headerLine fmt percent (rows.map (·.marker))).2
  rw [hasMismatch, splitlines_printTwoColumn, List.any_eq_true]
  simp only [flagged_iff, List.mem_cons, List.mem_flatMap]
  constructor
  · rintro ⟨line, rfl | rfl | ⟨row, hrow, hline⟩, hflag⟩
    · exact absurd hflag.1 hheader
    · exact absurd hflag.1 plain_legendLine.2
    · exact ⟨row, hrow, (rowLines_flagged (h row hrow) _ _).mp ⟨line, hline, hflag⟩⟩
  · rintro ⟨row, hrow, hflags⟩
    obtain ⟨line, hline, hflag⟩ := (rowLines_flagged (h row hrow) _ _).mpr hflags
    exact ⟨line, .inr (.inr ⟨row, hrow, hline⟩), hflag⟩

/-! ## Rows that flag the output -/

/-- Row `i` has a mismatch of its own, or is the first to show a cause. -/
def Marked (t : TwoColumns) (i : Nat) (row : RowPair) : Prop :=
  displayLoud t.columns t.frameDiff row ∨ ∃ k, displayCauses t.columns t.frameDiff row k ∧
    ∀ earlier ∈ t.rows.take i, ¬displayCauses t.columns t.frameDiff earlier k

/-- Some row shows on a line of the output that it differs. -/
def ShowsMismatch (t : TwoColumns) (texts : List (Text × Text)) : Prop :=
  ∃ i row text, t.rows[i]? = some row ∧ texts[i]? = some text ∧
    RowFlags (Marked t i row) (bodyLines (maxLen (texts.map (·.1))) text)

/-- The mark of a row has no bar on its line. -/
def Torn (t : TwoColumns) (texts : List (Text × Text)) : Prop :=
  ∃ i row text, t.rows[i]? = some row ∧ texts[i]? = some text ∧ Marked t i row ∧
    '|' ∉ (bodyLines (maxLen (texts.map (·.1))) text).headD []

theorem rowFlags_congr {p q : Prop} (h : p ↔ q) (lines : List Text) :
    RowFlags p lines ↔ RowFlags q lines := by
  cases lines with
  | nil => rfl
  | cons first rest => simp [RowFlags, h]

theorem marked_iff {t : TwoColumns} {i : Nat} {row : RowPair} {marker : Text}
    (hrow : t.rows[i]? = some row) (hmarker : (t.markers {})[i]? = some marker) :
    ¬Blank marker ↔ Marked t i row :=
  (computeMarker_firstSeen t.columns t.frameDiff).flagged_iff Seen.empty_fresh hrow hmarker

theorem hasMismatch_iff (fmt : PercentFormat) (percent : Option Rat) {t : TwoColumns}
    {config : DiffObjConfig} {texts : List (Text × Text)} (h : t.rowTexts config = .ok texts) :
    hasMismatch (printTwoColumn fmt percent (withMarkers (t.markers {}) texts)) = true ↔
      ShowsMismatch t texts := by
  have hlen : (t.markers {}).length = texts.length := by
    rw [markers_length, rowTexts_length h]
  have hshape : ∀ row ∈ withMarkers (t.markers {}) texts, MarkerShape row.marker := by
    intro row hrow
    obtain ⟨i, marker, text, hm, -, rfl⟩ := mem_withMarkers.mp hrow
    exact marker_shape (List.mem_of_getElem? hm)
  rw [hasMismatch_print fmt percent hshape, leftWidth, withMarkers_left hlen]
  constructor
  · rintro ⟨printed, hmem, hflags⟩
    obtain ⟨i, marker, text, hm, ht, rfl⟩ := mem_withMarkers.mp hmem
    have hi : i < t.rows.length := by
      rw [← markers_length t {}]
      exact (List.getElem?_eq_some_iff.mp hm).1
    have hrow := List.getElem?_eq_getElem hi
    exact ⟨i, _, text, hrow, ht, (rowFlags_congr (marked_iff hrow hm) _).mp hflags⟩
  · rintro ⟨i, row, text, hrow, ht, hflags⟩
    have hi : i < (t.markers {}).length := by
      rw [markers_length]
      exact (List.getElem?_eq_some_iff.mp hrow).1
    have hm := List.getElem?_eq_getElem hi
    exact ⟨_, mem_withMarkers.mpr ⟨i, _, text, hm, ht, rfl⟩,
      (rowFlags_congr (marked_iff hrow hm) _).mpr hflags⟩

/-! ## The verdict -/

section
variable {e : CheckEnv} {target cand : Object} {f u : String}

theorem verdictOf_pass_iff (run : Except String Text) :
    verdictOf run = .pass ↔ ∃ stdout, run = .ok stdout ∧ ¬hasMismatch stdout = true := by
  cases run with
  | error err => simp [verdictOf]
  | ok stdout => by_cases h : hasMismatch stdout = true <;> simp [verdictOf, h]

/-- A run passes exactly if it succeeds and no row shows a mismatch. -/
theorem verdict_pass_iff (ht : e.refObj u = .ok target) :
    verdictOf (runDiff e u (.ok cand) f) = .pass ↔
      ∃ result, diffObjs e.diffEnv diffConfig target cand = .ok result ∧
        ¬(target.symbolByName f = none ∧ cand.symbolByName f = none) ∧
        ∃ texts, (twoColumns target cand f result).rowTexts diffConfig = .ok texts ∧
          ¬ShowsMismatch (twoColumns target cand f result) texts := by
  have hrun : runDiff e u (.ok cand) f =
      runTwoColumnOutput e.diffEnv e.percent diffConfig {} target cand f := by
    simp [runDiff, ht, Bind.bind, Except.bind]
  rw [hrun, verdictOf_pass_iff]
  simp only [runTwoColumnOutput_ok_iff, printedRows_eq, bind_ok_iff, pure_ok_iff]
  constructor
  · rintro ⟨stdout, ⟨result, hd, hfound, rows, ⟨texts, htexts, rfl⟩, rfl⟩, hquiet⟩
    rw [hasMismatch_iff _ _ htexts] at hquiet
    exact ⟨result, hd, hfound, texts, htexts, hquiet⟩
  · rintro ⟨result, hd, hfound, texts, htexts, hquiet⟩
    refine ⟨_, ⟨result, hd, hfound, _, ⟨texts, htexts, rfl⟩, rfl⟩, ?_⟩
    rw [hasMismatch_iff _ _ htexts]
    exact hquiet

/-- Both objects have the function, the two were compared and no row differs. -/
def IsMatch (e : CheckEnv) (target cand : Object) (f : String) : Prop :=
  ∃ t c, target.symbolByName f = some t ∧ cand.symbolByName f = some c ∧
    Matched e.diffEnv diffConfig target cand t c

/-- A mismatch that nothing marks: the functions were not compared with each other, a row has no
letter for what differs in it, or a mark is torn from its bar. -/
def Gap (e : CheckEnv) (target cand : Object) (f : String) (t : TwoColumns) (texts : List (Text × Text)) :
    Prop :=
  (∀ a b kind, target.symbolByName f = some a → cand.symbolByName f = some b →
      ¬PairedAs e.diffEnv target cand a b kind) ∨
    (∃ row ∈ t.rows, Unlettered t.columns t.frameDiff row) ∨ Torn t texts

theorem twoColumns_diffs {result : SymbolDiffs} {t c : Nat}
    (ht : target.symbolByName f = some t) (hc : cand.symbolByName f = some c)
    {td cd : SymbolDiff} (htd : result.left[t]? = some td) (hcd : result.right[c]? = some cd) :
    (twoColumns target cand f result).rows = rowPairs td.instructionRows cd.instructionRows := by
  simp [TwoColumns.rows, TwoColumns.rowsOf, twoColumns, ht, hc, htd, hcd]

/-- A match in terms of the rows that are printed. -/
theorem isMatch_iff {result : SymbolDiffs}
    (hd : diffObjs e.diffEnv diffConfig target cand = .ok result) :
    IsMatch e target cand f ↔ ∃ a b kind, target.symbolByName f = some a ∧
      cand.symbolByName f = some b ∧ PairedAs e.diffEnv target cand a b kind ∧
      ∀ row ∈ (twoColumns target cand f result).rows, rowKind row = some .none := by
  have hs := diffObjs_stored hd
  constructor
  · rintro ⟨a, b, ha, hb, hm⟩
    obtain ⟨td, htd⟩ := hs.left_some (symbolByName_lt ha)
    obtain ⟨cd, hcd⟩ := hs.right_some (symbolByName_lt hb)
    obtain ⟨⟨kind, hp⟩, hrows⟩ :=
      (matched_iff hd (symbolByName_lt ha) (symbolByName_lt hb) htd hcd).mp hm
    refine ⟨a, b, kind, ha, hb, hp, ?_⟩
    rw [twoColumns_diffs ha hb htd hcd]
    exact (rowPairs_none_iff _ _).mpr hrows
  · rintro ⟨a, b, kind, ha, hb, hp, hrows⟩
    obtain ⟨td, htd⟩ := hs.left_some (symbolByName_lt ha)
    obtain ⟨cd, hcd⟩ := hs.right_some (symbolByName_lt hb)
    rw [twoColumns_diffs ha hb htd hcd] at hrows
    exact ⟨a, b, ha, hb, (matched_iff hd (symbolByName_lt ha) (symbolByName_lt hb) htd hcd).mpr
      ⟨⟨kind, hp⟩, (rowPairs_none_iff _ _).mp hrows⟩⟩

/-- Some row is marked if any has a mismatch of its own or a cause. -/
theorem exists_marked {t : TwoColumns} {row : RowPair} (hrow : row ∈ t.rows)
    (h : displayLoud t.columns t.frameDiff row ∨ ∃ k, displayCauses t.columns t.frameDiff row k) :
    ∃ i first, t.rows[i]? = some first ∧ Marked t i first := by
  obtain ⟨marker, hmem, hletter⟩ := ((computeMarker_firstSeen t.columns t.frameDiff).exists_flagged_iff
    Seen.empty_fresh t.rows).mpr ⟨row, hrow, h⟩
  obtain ⟨i, hi⟩ := List.getElem?_of_mem hmem
  have hlt : i < t.rows.length := by
    rw [← markers_length t {}]
    exact (List.getElem?_eq_some_iff.mp hi).1
  have hfirst := List.getElem?_eq_getElem hlt
  exact ⟨i, _, hfirst, (marked_iff hfirst hi).mp hletter⟩

/-- A row of kind `None` is not marked. -/
theorem Marked.differs {t : TwoColumns} {i : Nat} {row : RowPair} (h : Marked t i row) :
    rowKind row ≠ some .none := by
  intro hnone
  have hquiet := (@unmarked_iff t.columns t.frameDiff row (by simp [hnone])).mpr (.inl hnone)
  rcases h with hloud | ⟨k, hk, -⟩
  · exact hquiet (.inl hloud)
  · exact hquiet (.inr ⟨k, hk⟩)

theorem rowFlags_of_bar {marked : Prop} {lines : List Text} (hmarked : marked)
    (hbar : '|' ∈ lines.headD []) : RowFlags marked lines := by
  cases lines with
  | nil => cases hbar
  | cons first rest => exact .inl ⟨hmarked, hbar⟩

/-- Without a gap, a row that differs shows. -/
theorem showsMismatch_of_differs {t : TwoColumns} {config : DiffObjConfig} {texts : List (Text × Text)}
    (htexts : t.rowTexts config = .ok texts)
    (hletters : ¬∃ row ∈ t.rows, Unlettered t.columns t.frameDiff row) (htorn : ¬Torn t texts)
    {row : RowPair} (hrow : row ∈ t.rows) (hdiffers : rowKind row ≠ some .none) :
    ShowsMismatch t texts := by
  have hmarks : displayLoud t.columns t.frameDiff row ∨ ∃ k, displayCauses t.columns t.frameDiff row k := by
    by_contra hquiet
    rcases (unmarked_iff (rowPairs_kind_ne hrow)).mp hquiet with hnone | hunlettered
    · exact hdiffers hnone
    · exact hletters ⟨row, hrow, hunlettered⟩
  obtain ⟨i, first, hfirst, hmarked⟩ := exists_marked hrow hmarks
  have hlt : i < texts.length := by
    rw [rowTexts_length htexts]
    exact (List.getElem?_eq_some_iff.mp hfirst).1
  have htext := List.getElem?_eq_getElem hlt
  refine ⟨i, first, _, hfirst, htext, rowFlags_of_bar hmarked ?_⟩
  by_contra hbar
  exact htorn ⟨i, first, _, hfirst, htext, hmarked, hbar⟩

/-- Compared functions without a row that differs leave no gap. -/
theorem not_gap_of_rows {t : TwoColumns} {texts : List (Text × Text)} {a b : Nat} {kind : SectionKind}
    (ha : target.symbolByName f = some a) (hb : cand.symbolByName f = some b)
    (hpaired : PairedAs e.diffEnv target cand a b kind)
    (hrows : ∀ row ∈ t.rows, rowKind row = some .none) : ¬Gap e target cand f t texts := by
  rintro (hapart | ⟨row, hrow, hunlettered⟩ | ⟨i, row, text, hrow, -, hmarked, -⟩)
  · exact hapart a b kind ha hb hpaired
  · have hcompared := hunlettered.1
    rw [hrows row hrow] at hcompared
    cases hcompared
  · exact hmarked.differs (hrows row (List.mem_of_getElem? hrow))

/-- **The verdict.** `PASS` is printed for a match only, exactly if wherever the
diff leaves a gap some row shows a mismatch. -/
theorem pass_sound_iff {funcNames : List String} (hf : f ∈ funcNames)
    (hu : e.findUnitForFunction f = some u) (hb : e.buildUnit u = some (.ok cand))
    (ht : e.refObj u = .ok target) :
    ((f, Verdict.pass) ∈ (checkMultiple e funcNames).2 → IsMatch e target cand f) ↔
      ∀ result texts, diffObjs e.diffEnv diffConfig target cand = .ok result →
        ¬(target.symbolByName f = none ∧ cand.symbolByName f = none) →
        (twoColumns target cand f result).rowTexts diffConfig = .ok texts →
        Gap e target cand f (twoColumns target cand f result) texts →
        ShowsMismatch (twoColumns target cand f result) texts := by
  rw [checkMultiple_pass e hf hu hb, verdict_pass_iff ht]
  constructor
  · intro hsound result texts hd hfound htexts hgap
    by_contra hquiet
    obtain ⟨a, b, kind, ha, hb, hpaired, hrows⟩ :=
      (isMatch_iff hd).mp (hsound ⟨result, hd, hfound, texts, htexts, hquiet⟩)
    exact not_gap_of_rows ha hb hpaired hrows hgap
  · rintro hgaps ⟨result, hd, hfound, texts, htexts, hquiet⟩
    have hnone : ¬Gap e target cand f (twoColumns target cand f result) texts :=
      fun h => hquiet (hgaps result texts hd hfound htexts h)
    rw [Gap, not_or, not_or] at hnone
    obtain ⟨hpaired, hletters, htorn⟩ := hnone
    push Not at hpaired
    obtain ⟨a, b, kind, ha, hb, hpaired⟩ := hpaired
    refine (isMatch_iff hd).mpr ⟨a, b, kind, ha, hb, hpaired, fun row hrow => ?_⟩
    by_contra hdiffers
    exact hquiet (showsMismatch_of_differs htexts hletters htorn hrow hdiffers)

end

/-! ## A function the candidate has lost -/

/-- A checkout with one unit, compiled to `cand`. -/
def oneUnit (target cand : Object) : CheckEnv where
  diffEnv := oneBlockEnv
  percent := twoDecimals
  findUnitForFunction := fun _ => some "melee/unit"
  refObj := fun _ => .ok target
  buildUnit := fun _ => some (.ok cand)

/-- A function that compiles to its own code passes for a match. -/
theorem pass_sound_same :
    ("f", Verdict.pass) ∈ (checkMultiple (oneUnit (functionObject ".text" returnOne)
        (functionObject ".text" returnOne)) ["f"]).2 ∧
      IsMatch (oneUnit (functionObject ".text" returnOne) (functionObject ".text" returnOne))
        (functionObject ".text" returnOne) (functionObject ".text" returnOne) "f" := by
  let obj := functionObject ".text" returnOne
  have hpass : ("f", Verdict.pass) ∈ (checkMultiple (oneUnit obj obj) ["f"]).2 := by decide +kernel
  refine ⟨hpass, (pass_sound_iff (u := "melee/unit") (by simp : "f" ∈ ["f"]) rfl rfl rfl).mpr ?_ hpass⟩
  have hrun : (diffObjs oneBlockEnv diffConfig obj obj).map (fun result =>
      (twoColumns obj obj "f" result).rows.all fun row => rowKind row == some .none) = .ok true := by
    decide +kernel
  intro result texts hd _ _ hgap
  have hrows : ∀ row ∈ (twoColumns obj obj "f" result).rows, rowKind row = some .none := by
    replace hd : diffObjs oneBlockEnv diffConfig obj obj = .ok result := hd
    rw [hd] at hrun
    simpa [Except.map] using hrun
  have hpaired : PairedAs oneBlockEnv obj obj 0 0 .code := by
    unfold PairedAs Pairs
    decide +kernel
  exact absurd hgap (not_gap_of_rows (by decide +kernel) (by decide +kernel) hpaired hrows)

/-- The candidate object holds no `f` at all, and checkdiff prints `PASS`. -/
theorem pass_without_function :
    ("f", Verdict.pass) ∈ (checkMultiple (oneUnit (functionObject ".text" returnOne)
        ((functionObject ".text" returnOne).renamed "g")) ["f"]).2 ∧
      ¬IsMatch (oneUnit (functionObject ".text" returnOne)
          ((functionObject ".text" returnOne).renamed "g"))
        (functionObject ".text" returnOne) ((functionObject ".text" returnOne).renamed "g") "f" := by
  refine ⟨by decide +kernel, ?_⟩
  rintro ⟨t, c, -, hc, -⟩
  have hnone : ((functionObject ".text" returnOne).renamed "g").symbolByName "f" = none := by
    decide +kernel
  rw [hnone] at hc
  cases hc

end MeleeHarness.Checkdiff
