import MeleeHarness.Objdiff.DiffObjs
import MeleeHarness.Objdiff.Display
import MeleeHarness.Objdiff.MarkerLetters

/-!
# The two-column display

`run_two_column_output` of `objdiff-cli/src/cmd/diff.rs`, for two objects given
by path and no project configuration, which is how the Python tools call it.

* `printedRows_eq`: the markers are the answers of a run of `computeMarker`, and
  the text of a row does not depend on the rows before it;
* `splitlines_printTwoColumn`: the lines of the output, row by row, whatever
  line boundaries the rendered text holds.
-/

namespace MeleeHarness.Objdiff

open Lib

/-- `{:.2}` of a percentage, rounded to `f32` first: digits, sign and point. -/
structure PercentFormat where
  format : Rat → Text
  plain : ∀ p, ∀ c ∈ format p, c ∈ '.' :: '-' :: decimalAlphabet

def decimalText (hundredths : Nat) : Text :=
  Nat.toDigits 10 (hundredths / 100) ++ ['.', (hundredths / 10 % 10).digitChar,
    (hundredths % 10).digitChar]

theorem decimalText_plain (n : Nat) : ∀ c ∈ decimalText n, c ∈ '.' :: '-' :: decimalAlphabet := by
  have hdigit : ∀ d < 10, d.digitChar ∈ '.' :: '-' :: decimalAlphabet := by decide
  intro c hc
  rcases List.mem_append.mp hc with hc | hc
  · exact List.mem_cons_of_mem _ (List.mem_cons_of_mem _ (mem_decimal hc))
  · simp only [List.mem_cons, List.not_mem_nil, or_false] at hc
    rcases hc with rfl | rfl | rfl
    · exact List.mem_cons_self
    · exact hdigit _ (by omega)
    · exact hdigit _ (by omega)

/-- Rounding to the nearest hundredth. -/
def twoDecimals : PercentFormat where
  format := fun p => decimalText (p * 100 + 1 / 2).floor.toNat
  plain := fun _ => decimalText_plain _

/-- The two functions of a diff, with their results. -/
structure TwoColumns where
  columns : Columns
  targetDiff : Option SymbolDiff
  baseDiff : Option SymbolDiff

namespace TwoColumns

variable (t : TwoColumns)

def rowsOf (diff : Option SymbolDiff) : List InstructionDiffRow :=
  (diff.map (·.instructionRows)).getD []

def rows : List RowPair := rowPairs (rowsOf t.targetDiff) (rowsOf t.baseDiff)

def frameOf (obj : Object) (symbolIdx : Option Nat) (diff : Option SymbolDiff) : Option UInt64 := do
  let idx ← symbolIdx
  let d ← diff
  frameSize obj idx d

def frameDiff : Option Int64 :=
  match frameOf t.columns.targetObj t.columns.targetSymbolIdx t.targetDiff,
    frameOf t.columns.baseObj t.columns.baseSymbolIdx t.baseDiff with
  | some target, some base => some (frameDelta target base)
  | _, _ => none

def markers (flags : MarkerFlags) : List Text :=
  outputs (computeMarker flags t.columns t.frameDiff) {} t.rows

end TwoColumns

/-- The first literal a row's relocation reaches. -/
def rowLiteral (obj : Object) (symbolIdx : Nat) (row : InstructionDiffRow) : Option String := do
  let insRef ← row.insRef
  let resolved ← obj.resolveInstructionRef symbolIdx insRef
  (dataLiteralStrings obj resolved).head?

/-- One column of a row: empty where the function or the instruction is absent. -/
def renderSide (config : DiffObjConfig) (showLiteral : Bool) (obj : Object)
    (symbolIdx : Option Nat) (row : Option InstructionDiffRow) : Except String Text :=
  match symbolIdx, row with
  | some sym, some row =>
    if row.insRef.isSome then
      formatInstructionRowInner obj sym row config
        (if showLiteral then rowLiteral obj sym row else none)
    else .ok []
  | _, _ => .ok []

/-- Both columns of a row; literals are shown in rows marked with `d`. -/
def renderRow (config : DiffObjConfig) (c : Columns) (showLiteral : Bool) (row : RowPair) :
    Except String (Text × Text) := do
  let left ← renderSide config showLiteral c.targetObj c.targetSymbolIdx row.1
  let right ← renderSide config showLiteral c.baseObj c.baseSymbolIdx row.2
  return (left, right)

structure PrintedRow where
  marker : Text
  left : Text
  right : Text
  deriving DecidableEq

def TwoColumns.printedRows (t : TwoColumns) (config : DiffObjConfig) (flags : MarkerFlags) :
    Except String (List PrintedRow) :=
  (t.rows.zip (t.markers flags)).mapM fun (row, marker) => do
    let (left, right) ← renderRow config t.columns (marker.contains 'd') row
    return ⟨marker, left, right⟩

/-! ## Printing -/

def countCategories : List (Char × String) :=
  [('r', "register"), ('c', "constant"), ('s', "stack"), ('a', "addr"), ('d', "data"),
    ('i', "instr"), ('f', "frame"), ('-', "missing"), ('+', "extra")]

/-- The categories that occur, each with its number of rows. -/
def countTexts (markers : List Text) : List Text :=
  countCategories.filterMap fun (ch, name) =>
    let n := (markers.filter (·.contains ch)).length
    if n = 0 then none else some (Nat.toDigits 10 n ++ ' ' :: name.toList)

def countsText (markers : List Text) : Text := List.intercalate ", ".toList (countTexts markers)

def headerLine (fmt : PercentFormat) (matchPercent : Option Rat) (markers : List Text) : Text :=
  let counts := countsText markers
  match matchPercent with
  | some p =>
    if counts.isEmpty then fmt.format p ++ ['%']
    else fmt.format p ++ "% (".toList ++ counts ++ [')']
  | none => if counts.isEmpty then [] else '(' :: counts ++ [')']

def legendLine : Text :=
  ("Legend: r=register a=address c=constant s=stack f=frame d=data i=instruction " ++
    "-=missing +=extra").toList

/-- Everything behind the marker column. -/
def rowBody (leftWidth : Nat) (left right : Text) : Text :=
  padRight leftWidth left ++ " | ".toList ++ right

def rowLine (markerWidth leftWidth : Nat) (row : PrintedRow) : Text :=
  padRight markerWidth row.marker ++ ' ' :: rowBody leftWidth row.left row.right

def maxLen (texts : List Text) : Nat := (texts.map utf8Len).foldl max 0

def leftWidth (rows : List PrintedRow) : Nat := maxLen (rows.map (·.left))

def markerWidth (rows : List PrintedRow) : Nat := max (maxLen (rows.map (·.marker))) 1

def printTwoColumn (fmt : PercentFormat) (matchPercent : Option Rat) (rows : List PrintedRow) :
    Text :=
  headerLine fmt matchPercent (rows.map (·.marker)) ++ '\n' :: (legendLine ++ '\n' ::
    rows.flatMap fun row => rowLine (markerWidth rows) (leftWidth rows) row ++ ['\n'])

/-- The two functions of that name, with what diffing found. -/
def twoColumns (target base : Object) (symbolName : String) (result : SymbolDiffs) : TwoColumns :=
  let targetIdx := target.symbolByName symbolName
  let baseIdx := base.symbolByName symbolName
  { columns := ⟨target, base, targetIdx, baseIdx⟩
    targetDiff := targetIdx.bind fun i => result.left[i]?
    baseDiff := baseIdx.bind fun i => result.right[i]? }

def runTwoColumnOutput (env : DiffEnv) (fmt : PercentFormat) (config : DiffObjConfig)
    (flags : MarkerFlags) (target base : Object) (symbolName : String) : Except String Text := do
  let result ← diffObjs env config target base
  let t := twoColumns target base symbolName result
  if t.columns.targetSymbolIdx.isNone && t.columns.baseSymbolIdx.isNone then
    throw ("Symbol not found: " ++ symbolName)
  let rows ← t.printedRows config flags
  return printTwoColumn fmt (t.baseDiff.bind (·.matchPercent)) rows

/-! ## The lines of the output -/

/-- Text that stays on its line and is not taken for a row. -/
def Plain (t : Text) : Prop := Unbroken t ∧ '|' ∉ t

instance (t : Text) : Decidable (Plain t) := inferInstanceAs (Decidable (_ ∧ _))

theorem plain_of_mem {alphabet t : Text} (ha : Plain alphabet) (h : ∀ c ∈ t, c ∈ alphabet) :
    Plain t :=
  ⟨fun c hc => ha.1 c (h c hc), fun hb => ha.2 (h _ hb)⟩

theorem Plain.append {a b : Text} (ha : Plain a) (hb : Plain b) : Plain (a ++ b) :=
  ⟨ha.1.append hb.1, by simp [ha.2, hb.2]⟩

theorem plain_toDigits (n : Nat) : Plain (Nat.toDigits 10 n) :=
  plain_of_mem (by decide : Plain decimalAlphabet) fun _ => mem_decimal

theorem plain_intercalate {sep : Text} (hsep : Plain sep) {ts : List Text}
    (h : ∀ t ∈ ts, Plain t) : Plain (List.intercalate sep ts) := by
  induction ts with
  | nil =>
    rw [List.intercalate_nil]
    decide
  | cons t ts ih =>
    have ht := h t List.mem_cons_self
    have hrest := ih fun u hu => h u (List.mem_cons_of_mem t hu)
    cases ts with
    | nil => simpa using ht
    | cons u ts =>
      rw [List.intercalate_cons_cons]
      exact (ht.append hsep).append hrest

theorem plain_countsText (markers : List Text) : Plain (countsText markers) := by
  apply plain_intercalate (by decide)
  intro t ht
  obtain ⟨⟨ch, name⟩, hmem, ht⟩ := List.mem_filterMap.mp ht
  simp only [Option.ite_none_left_eq_some, Option.some.injEq] at ht
  have hname : ∀ e ∈ countCategories, Plain (' ' :: e.2.toList) := by decide
  rw [← ht.2]
  exact (plain_toDigits _).append (hname _ hmem)

theorem plain_headerLine (fmt : PercentFormat) (matchPercent : Option Rat) (markers : List Text) :
    Plain (headerLine fmt matchPercent markers) := by
  have hcounts := plain_countsText markers
  have hformat (p : Rat) : Plain (fmt.format p) := plain_of_mem (by decide) (fmt.plain p)
  unfold headerLine
  cases matchPercent with
  | none =>
    simp only
    split
    · decide
    · exact Plain.append (a := ['(']) (by decide) (hcounts.append (by decide))
  | some p =>
    simp only
    split
    · exact (hformat p).append (by decide)
    · exact (((hformat p).append (by decide)).append hcounts).append (by decide)

theorem plain_legendLine : Plain legendLine := by
  decide

/-- The lines of one row. -/
def rowLines (markerWidth leftWidth : Nat) (row : PrintedRow) : List Text :=
  splitlines (rowLine markerWidth leftWidth row ++ ['\n'])

/-- The output consists of the header, the legend and the lines of each row. -/
theorem splitlines_printTwoColumn (fmt : PercentFormat) (matchPercent : Option Rat)
    (rows : List PrintedRow) :
    splitlines (printTwoColumn fmt matchPercent rows) =
      headerLine fmt matchPercent (rows.map (·.marker)) :: legendLine ::
        rows.flatMap (rowLines (markerWidth rows) (leftWidth rows)) := by
  have tail (mw lw : Nat) (rows : List PrintedRow) :
      splitlines (rows.flatMap fun row => rowLine mw lw row ++ ['\n']) =
        rows.flatMap (rowLines mw lw) := by
    induction rows with
    | nil => rfl
    | cons row rows ih =>
      rw [List.flatMap_cons, List.flatMap_cons, List.append_assoc, List.singleton_append,
        splitlines_append_newline, ih, rowLines]
  rw [printTwoColumn, splitlines_unbroken_newline (plain_headerLine _ _ _).1,
    splitlines_unbroken_newline plain_legendLine.1, tail]

theorem plain_marker {marker : Text} (h : MarkerShape marker) (width : Nat) :
    Plain (padRight width marker ++ [' ']) := by
  have hm : Plain marker := plain_of_mem (by decide : Plain (' ' :: markerLetters)) fun _ => h.mem
  have hpad : Plain (List.replicate (width - marker.length) ' ') :=
    plain_of_mem (by decide : Plain [' ']) fun c hc => by
      rw [List.eq_of_mem_replicate hc]
      exact List.mem_cons_self
  exact (hm.append hpad).append (by decide)

/-- The marker column extends the first line of what stands behind it. -/
theorem rowLines_eq {row : PrintedRow} (h : MarkerShape row.marker) (mw lw : Nat) :
    ∃ first rest, splitlines (rowBody lw row.left row.right ++ ['\n']) = first :: rest ∧
      rowLines mw lw row = (padRight mw row.marker ++ ' ' :: first) :: rest := by
  have hbody : rowBody lw row.left row.right ++ ['\n'] ≠ [] := by simp
  obtain ⟨c, t, hct⟩ := List.exists_cons_of_ne_nil hbody
  obtain ⟨first, rest, hlines⟩ := List.exists_cons_of_ne_nil (splitlines_ne_nil c t)
  rw [← hct] at hlines
  refine ⟨first, rest, hlines, ?_⟩
  have hjoin := splitlines_unbroken_append (plain_marker h mw).1 hlines
  simpa [rowLines, rowLine] using hjoin

/-! ## Markers and texts of the rows -/

section
variable {t : TwoColumns} {config : DiffObjConfig} {flags : MarkerFlags} {rows : List PrintedRow}

theorem markers_length (t : TwoColumns) (flags : MarkerFlags) :
    (t.markers flags).length = t.rows.length := outputs_length _ _ _

theorem marker_shape {marker : Text} (h : marker ∈ t.markers flags) : MarkerShape marker := by
  obtain ⟨i, hi⟩ := List.getElem?_of_mem h
  rw [TwoColumns.markers, outputs_getElem?] at hi
  obtain ⟨row, -, rfl⟩ := Option.map_eq_some_iff.mp hi
  exact computeMarker_shape _ _ _ _ _

/-- The texts of the rows, each from its own row. -/
def TwoColumns.rowTexts (t : TwoColumns) (config : DiffObjConfig) :
    Except String (List (Text × Text)) :=
  t.rows.mapM fun row => renderRow config t.columns (dataShown t.columns t.frameDiff row) row

def withMarkers (markers : List Text) (texts : List (Text × Text)) : List PrintedRow :=
  (markers.zip texts).map fun (marker, text) => ⟨marker, text.1, text.2⟩

theorem printedRows_eq : t.printedRows config flags = (do
    let texts ← t.rowTexts config
    return withMarkers (t.markers flags) texts) := by
  have run : ∀ (rows : List RowPair) (seen : Seen),
      (rows.zip (outputs (computeMarker flags t.columns t.frameDiff) seen rows)).mapM
        (fun (row, marker) => do
          let (left, right) ← renderRow config t.columns (marker.contains 'd') row
          return (⟨marker, left, right⟩ : PrintedRow)) = (do
        let texts ← rows.mapM fun row =>
          renderRow config t.columns (dataShown t.columns t.frameDiff row) row
        return withMarkers (outputs (computeMarker flags t.columns t.frameDiff) seen rows) texts) := by
    intro rows
    induction rows with
    | nil => intro seen; rfl
    | cons row rows ih =>
      intro seen
      simp only [outputs, List.zip_cons_cons, List.mapM_cons, ih, computeMarker_d, bind_assoc,
        pure_bind, withMarkers, List.map_cons]
  exact run t.rows {}

theorem rowTexts_length {texts : List (Text × Text)} (h : t.rowTexts config = .ok texts) :
    texts.length = t.rows.length := mapM_ok_length h

theorem withMarkers_left {markers : List Text} {texts : List (Text × Text)}
    (h : markers.length = texts.length) :
    (withMarkers markers texts).map (·.left) = texts.map (·.1) := by
  have hsnd := List.map_snd_zip h.ge
  conv_rhs => rw [← hsnd]
  simp only [withMarkers, List.map_map]
  rfl

theorem mem_withMarkers {markers : List Text} {texts : List (Text × Text)} {row : PrintedRow} :
    row ∈ withMarkers markers texts ↔ ∃ (i : Nat) (marker : Text) (text : Text × Text),
      markers[i]? = some marker ∧ texts[i]? = some text ∧ row = ⟨marker, text.1, text.2⟩ := by
  rw [withMarkers, List.mem_map]
  constructor
  · rintro ⟨⟨marker, text⟩, hmem, rfl⟩
    obtain ⟨i, hi⟩ := List.getElem?_of_mem hmem
    obtain ⟨hm, ht⟩ := List.getElem?_zip_eq_some.mp hi
    exact ⟨i, marker, text, hm, ht, rfl⟩
  · rintro ⟨i, marker, text, hm, ht, rfl⟩
    exact ⟨(marker, text), List.mem_of_getElem? (List.getElem?_zip_eq_some.mpr ⟨hm, ht⟩), rfl⟩

theorem printedRows_shape (h : t.printedRows config flags = .ok rows) {row : PrintedRow}
    (hrow : row ∈ rows) : MarkerShape row.marker := by
  rw [printedRows_eq, bind_ok_iff] at h
  obtain ⟨texts, -, h⟩ := h
  rw [pure_ok_iff] at h
  rw [← h] at hrow
  obtain ⟨i, marker, text, hm, -, rfl⟩ := mem_withMarkers.mp hrow
  exact marker_shape (List.mem_of_getElem? hm)

end

/-- A run succeeds where one of the objects has the function and its rows can be
rendered, and prints these rows. -/
theorem runTwoColumnOutput_ok_iff {env : DiffEnv} {fmt : PercentFormat} {config : DiffObjConfig}
    {flags : MarkerFlags} {target base : Object} {symbolName : String} {out : Text} :
    runTwoColumnOutput env fmt config flags target base symbolName = .ok out ↔
      ∃ result, diffObjs env config target base = .ok result ∧
        ¬(target.symbolByName symbolName = none ∧ base.symbolByName symbolName = none) ∧
        ∃ rows, (twoColumns target base symbolName result).printedRows config flags = .ok rows ∧
          printTwoColumn fmt
            ((twoColumns target base symbolName result).baseDiff.bind (·.matchPercent)) rows =
              out := by
  rw [runTwoColumnOutput, bind_ok_iff]
  refine exists_congr fun result => and_congr_right fun _ => ?_
  have hnone : ((twoColumns target base symbolName result).columns.targetSymbolIdx.isNone &&
      (twoColumns target base symbolName result).columns.baseSymbolIdx.isNone) = true ↔
      target.symbolByName symbolName = none ∧ base.symbolByName symbolName = none := by
    simp [twoColumns]
  rw [← hnone]
  simp only
  split
  · rename_i hmissing
    simp [hmissing, throw, throwThe, MonadExceptOf.throw, Bind.bind, Except.bind]
  · rename_i hfound
    simp only [bind_ok_iff, pure_ok_iff, hfound, Bool.false_eq_true, not_false_eq_true, true_and]

end MeleeHarness.Objdiff
