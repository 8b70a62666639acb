import MeleeHarness.Lib.Lines
import MeleeHarness.Objdiff.PowerPC
import MeleeHarness.Objdiff.TwoColumn

/-!
# Reading the two-column display back

`_parse_side` and `parse_diff_lines` of `tools/mwcc_diagnose.py` read what
`run_two_column_output` prints.

`parseDiffLines_iff`: the fields of every printed row come back exactly if each
row is readable: no marker in front of an absent left column, no line boundary
in the left column, and nothing but white space behind one in the right column.
-/

namespace MeleeHarness.Diagnose

open Lib Objdiff

structure DiffLine where
  markers : Text
  targetAddr : Option Int
  currentAddr : Option Int
  targetInst : Text
  currentInst : Text
  raw : Text
  deriving DecidableEq

/-- Marker characters, address and instruction of one column. -/
def parseSide (side : Text) : Text × Option Int × Text :=
  if side.contains ':' then
    let (front, inst) := splitOnce ':' side
    match (words (strip front)).getLast? with
    | none => ([], none, strip inst)
    | some addrToken =>
      match intBase16 addrToken with
      | none => ([], none, strip inst)
      | some addr => ((words (strip front)).dropLast.flatten, some addr, strip inst)
  else ([], none, strip side)

def parseLine (raw : Text) : Option DiffLine :=
  if raw.contains '|' then
    let (left, right) := splitOnce '|' raw
    let (markers, targetAddr, targetInst) := parseSide left
    let (_, currentAddr, currentInst) := parseSide right
    some { markers, targetAddr, currentAddr, targetInst, currentInst, raw }
  else none

def parseDiffLines (output : Text) : List DiffLine := (splitlines output).filterMap parseLine

/-! ## Rows of the form that is read -/

/-- One column: absent, or a hexadecimal address, spaces and an instruction. -/
inductive Side where
  | absent
  | present (addr spaces : Nat) (inst : Text)

namespace Side

def print : Side → Text
  | absent => []
  | present addr spaces inst => hex addr ++ ':' :: (List.replicate spaces ' ' ++ inst)

def addr : Side → Option Int
  | absent => none
  | present addr _ _ => some addr

def inst : Side → Text
  | absent => []
  | present _ _ inst => strip inst

def Clean (s : Side) : Prop := '|' ∉ s.print ∧ '\n' ∉ s.print

end Side

structure SidedRow where
  marker : Text
  left : Side
  right : Side

namespace SidedRow

def print (r : SidedRow) : PrintedRow := ⟨r.marker, r.left.print, r.right.print⟩

def Clean (r : SidedRow) : Prop := r.left.Clean ∧ r.right.Clean

/-- What the reader should find: markers without blanks, addresses, instructions. -/
def fields (r : SidedRow) : Text × Option Int × Option Int × Text × Text :=
  (r.marker.filter (· != ' '), r.left.addr, r.right.addr, r.left.inst, r.right.inst)

/-- A row the reader takes apart as it was put together. -/
def Readable (r : SidedRow) : Prop :=
  (r.left.print = [] → Blank r.marker) ∧ Unbroken r.left.print ∧
    ∀ c ∈ r.right.print.dropWhile (fun c => !isLineBoundary c), isSpace c = true

end SidedRow

def DiffLine.fields (l : DiffLine) : Text × Option Int × Option Int × Text × Text :=
  (l.markers, l.targetAddr, l.currentAddr, l.targetInst, l.currentInst)

/-! ## The right column -/

theorem colon_notMem_hex (n : Nat) : ':' ∉ hex n := fun h =>
  (hexAlphabet_plain (mem_hex h)).2.2.1 rfl

/-- A column that starts with other fields and an address. -/
theorem parseSide_addr {front : Text} (hfront : ':' ∉ front) (addr : Nat) (inst : Text) :
    parseSide (front ++ ' ' :: (hex addr ++ ':' :: inst)) =
      ((words front).flatten, some (addr : Int), strip inst) := by
  have hjoin : front ++ ' ' :: (hex addr ++ ':' :: inst) =
      (front ++ ' ' :: hex addr) ++ ':' :: inst := by simp
  have hcolon : ':' ∉ front ++ ' ' :: hex addr := by
    simp [hfront, colon_notMem_hex]
  have hdigits : ∀ c ∈ hex addr, isSpace c = false := fun c hc => (hexAlphabet_plain (mem_hex hc)).1
  have hstrip : words (strip (front ++ ' ' :: hex addr)) = words front ++ [hex addr] := by
    have hr : rstrip (front ++ ' ' :: hex addr) = front ++ ' ' :: hex addr := by
      rw [rstrip, List.rdropWhile_eq_self_iff]
      intro hne
      have hlast : (front ++ ' ' :: hex addr).getLast hne = (hex addr).getLast (hex_ne_nil addr) := by
        rw [List.getLast_append_of_ne_nil hne (by simp), List.getLast_cons (hex_ne_nil addr)]
      simp [hlast, hdigits _ (List.getLast_mem (hex_ne_nil addr))]
    rw [strip, hr, words_lstrip, words_append_space, words_token (hex_ne_nil addr) hdigits]
  rw [hjoin, parseSide, splitOnce_append hcolon]
  simp [hstrip, intBase16_hex]

theorem parseSide_plain {side : Text} (h : ':' ∉ side) : parseSide side = ([], none, strip side) := by
  simp [parseSide, h]

/-- The right column comes back exactly if only white space follows its first line. -/
theorem parseSide_right (s : Side) :
    (parseSide (' ' :: firstLine s.print)).2 = (s.addr, s.inst) ↔
      ∀ c ∈ s.print.dropWhile (fun c => !isLineBoundary c), isSpace c = true := by
  cases s with
  | absent =>
    have hblank : strip [' '] = [] := by decide
    simp [Side.print, Side.addr, Side.inst, firstLine, parseSide, hblank]
  | present addr spaces inst =>
    have hhex : ∀ c ∈ hex addr ++ [':'], (!isLineBoundary c) = true := by
      intro c hc
      rcases List.mem_append.mp hc with hc | hc
      · simp [(hexAlphabet_plain (mem_hex hc)).2.1]
      · rw [List.mem_singleton.mp hc]
        decide
    have hprint : (Side.present addr spaces inst).print =
        (hex addr ++ [':']) ++ (List.replicate spaces ' ' ++ inst) := by simp [Side.print]
    have hfirst : firstLine (Side.present addr spaces inst).print =
        hex addr ++ ':' :: firstLine (List.replicate spaces ' ' ++ inst) := by
      rw [hprint, firstLine, List.takeWhile_append_of_pos hhex]
      simp [firstLine]
    rw [hfirst, hprint, List.dropWhile_append_of_pos hhex, ← strip_firstLine_iff,
      strip_replicate_space]
    have hparse := parseSide_addr (by simp : ':' ∉ ([] : Text)) addr
      (firstLine (List.replicate spaces ' ' ++ inst))
    rw [List.nil_append] at hparse
    simp [hparse, Side.addr, Side.inst]

/-! ## The left column -/

/-- Everything in front of the bar. -/
def leftText (mw lw : Nat) (marker left : Text) : Text :=
  padRight mw marker ++ ' ' :: (padRight lw left ++ [' '])

theorem words_marker {marker : Text} (h : MarkerShape marker) (width : Nat) :
    (words (padRight width marker)).flatten = marker.filter (· != ' ') := by
  have hpad (n : Nat) : words (marker ++ List.replicate n ' ') = words marker := by
    cases n with
    | zero => simp
    | succ n => simp [List.replicate_succ, words_append_space, words_replicate_space]
  rw [padRight, hpad]
  rcases h with rfl | h
  · decide
  · have hletters : ∀ ch ∈ markerLetters, isSpace ch = false ∧ (ch != ' ') = true := by decide
    have hfilter : marker.filter (· != ' ') = marker :=
      List.filter_eq_self.mpr fun ch hch => (hletters ch (h ch hch)).2
    cases marker with
    | nil => rfl
    | cons ch chs =>
      rw [words_token (by simp) fun d hd => (hletters d (h d hd)).1, hfilter]
      simp

theorem leftText_eq (mw lw : Nat) (marker left : Text) :
    leftText mw lw marker left =
      padRight mw marker ++ ' ' :: (left ++ List.replicate (lw - left.length + 1) ' ') := by
  simp [leftText, padRight, List.replicate_succ']

theorem colon_notMem_padRight {marker : Text} (h : MarkerShape marker) (width : Nat) :
    ':' ∉ padRight width marker := by
  intro hc
  rcases List.mem_append.mp hc with hc | hc
  · exact absurd (h.mem hc) (by decide)
  · exact absurd (List.eq_of_mem_replicate hc) (by decide)

theorem parseSide_inst {side : Text} (h : ':' ∈ side) :
    (parseSide side).2.2 = strip (splitOnce ':' side).2 := by
  unfold parseSide
  simp only [List.contains_iff_mem.mpr h, ↓reduceIte]
  split
  · rfl
  · split <;> rfl

/-- A line boundary in the left column loses what stands in front of it. -/
theorem parseSide_broken {addr : Nat} {inst side : Text} (h : solid side ≤ solid inst) :
    (parseSide side).2 ≠ (some (addr : Int), strip inst) := by
  intro heq
  by_cases hc : ':' ∈ side
  · have hinst := parseSide_inst hc
    rw [heq] at hinst
    have hcount := congrArg solid hinst
    obtain ⟨front, rest, hsplit, hfront⟩ := List.eq_append_cons_of_mem hc
    rw [hsplit] at h
    rw [hsplit, splitOnce_append hfront, solid_strip, solid_strip] at hcount
    have hcolon : solid (':' :: rest) = solid rest + 1 := by simp [solid, isSpace, whitespace]
    rw [solid_append, hcolon] at h
    simp only at hcount
    omega
  · rw [parseSide_plain hc] at heq
    cases (Prod.mk.inj heq).1

theorem solid_replicate_space (n : Nat) : solid (List.replicate n ' ') = 0 := by
  rw [solid_eq_zero]
  intro c hc
  rw [List.eq_of_mem_replicate hc]
  decide

theorem parseSide_absent {marker : Text} (h : MarkerShape marker) (mw lw : Nat) :
    parseSide (lastLine (leftText mw lw marker [])) = (marker.filter (· != ' '), none, []) ↔
      Blank marker := by
  have hunbroken : Unbroken (leftText mw lw marker []) := by
    rw [leftText_eq]
    have := (plain_marker h mw).1.append (unbroken_replicate_space (lw - ([] : Text).length + 1))
    simpa using this
  have hcolon : ':' ∉ leftText mw lw marker [] := by
    rw [leftText_eq]
    simp [colon_notMem_padRight h mw]
  rw [lastLine_unbroken hunbroken, parseSide_plain hcolon]
  simp only [Prod.mk.injEq, true_and]
  constructor
  · rintro ⟨hfilter, -⟩ ch hch
    have := List.filter_eq_nil_iff.mp hfilter.symm ch hch
    simpa using this
  · intro hblank
    refine ⟨(List.filter_eq_nil_iff.mpr fun ch hch => by simp [hblank ch hch]).symm, ?_⟩
    apply strip_blank
    have hspace : ∀ c ∈ leftText mw lw marker [], c = ' ' := by
      rw [leftText_eq]
      intro c hc
      simp only [padRight, List.mem_append, List.mem_cons, List.mem_replicate, List.nil_append] at hc
      rcases hc with (hc | hc) | hc | hc
      · exact hblank c hc
      · exact hc.2
      · exact hc
      · exact hc.2
    intro c hc
    rw [hspace c hc]
    decide

theorem parseSide_present {marker : Text} (h : MarkerShape marker) (mw lw addr spaces : Nat)
    (inst : Text) (hu : Unbroken (Side.present addr spaces inst).print) :
    parseSide (lastLine (leftText mw lw marker (Side.present addr spaces inst).print)) =
      (marker.filter (· != ' '), some (addr : Int), strip inst) := by
  have hunbroken : Unbroken (leftText mw lw marker (Side.present addr spaces inst).print) := by
    rw [leftText_eq]
    have := (plain_marker h mw).1.append (hu.append (unbroken_replicate_space
      (lw - (Side.present addr spaces inst).print.length + 1)))
    simpa using this
  rw [lastLine_unbroken hunbroken, leftText_eq, Side.print, List.append_assoc, List.cons_append,
    parseSide_addr (colon_notMem_padRight h mw), words_marker h, List.append_assoc,
    strip_replicate_space, strip_append_space]
  intro c hc
  rw [List.eq_of_mem_replicate hc]
  decide

/-- The left column comes back exactly if it is unbroken, and no marker stands
in front of an absent one. -/
theorem parseSide_left {marker : Text} (h : MarkerShape marker) (s : Side) (mw lw : Nat) :
    parseSide (lastLine (leftText mw lw marker s.print)) =
        (marker.filter (· != ' '), s.addr, s.inst) ↔
      (s.print = [] → Blank marker) ∧ Unbroken s.print := by
  cases s with
  | absent =>
    rw [Side.print, Side.addr, Side.inst, parseSide_absent h]
    simp [Unbroken]
  | present addr spaces inst =>
    have hne : (Side.present addr spaces inst).print ≠ [] := by simp [Side.print]
    simp only [hne, false_implies, true_and, Side.addr, Side.inst]
    constructor
    · intro hparse
      rcases lastLine_split (List.replicate spaces ' ' ++ inst) with ⟨hu, -⟩ | ⟨front, c, hsplit, hc⟩
      · rw [Side.print]
        refine Unbroken.append (fun d hd => (hexAlphabet_plain (mem_hex hd)).2.1) ?_
        exact Unbroken.append (a := [':']) (by decide) hu
      · exfalso
        have hrest := unbroken_lastLine (List.replicate spaces ' ' ++ inst)
        generalize lastLine (List.replicate spaces ' ' ++ inst) = rest at hsplit hrest
        have hprint : (Side.present addr spaces inst).print =
            (hex addr ++ ':' :: front) ++ c :: rest := by
          simp [Side.print, hsplit]
        have htext (pad : Text) : padRight mw marker ++
            ' ' :: ((Side.present addr spaces inst).print ++ pad) =
            (padRight mw marker ++ ' ' :: (hex addr ++ ':' :: front)) ++ c :: (rest ++ pad) := by
          simp [hprint]
        have hsolid (n : Nat) : solid (rest ++ List.replicate n ' ') ≤ solid inst := by
          have hall := congrArg solid hsplit
          have hcons : solid rest ≤ solid (c :: rest) := (List.sublist_cons_self c rest).countP_le
          rw [solid_append, solid_append, solid_replicate_space] at hall
          rw [solid_append, solid_replicate_space]
          omega
        rw [leftText_eq, htext, lastLine_append hc _ (hrest.append (unbroken_replicate_space _))]
          at hparse
        exact parseSide_broken (hsolid _) (congrArg Prod.snd hparse)
    · exact parseSide_present h mw lw addr spaces inst

/-! ## Whole outputs -/

theorem leftText_bar {r : SidedRow} (h : MarkerShape r.marker) (hl : '|' ∉ r.left.print)
    (mw lw : Nat) : '|' ∉ leftText mw lw r.marker r.left.print := by
  have hmarker := (plain_marker h mw).2
  rw [leftText_eq]
  simp only [List.mem_append, List.mem_cons, List.not_mem_nil, or_false, not_or] at hmarker ⊢
  exact ⟨hmarker.1, by decide, hl, by simp⟩

/-- The fields found in the line that has the bar. -/
def parsedFields (mw lw : Nat) (r : SidedRow) : Text × Option Int × Option Int × Text × Text :=
  let left := parseSide (lastLine (leftText mw lw r.marker r.left.print))
  let right := parseSide (' ' :: firstLine r.right.print)
  (left.1, left.2.1, right.2.1, left.2.2, right.2.2)

/-- A row is read from the line that has its bar. -/
theorem rowLines_parse {r : SidedRow} (h : MarkerShape r.marker) (hclean : r.Clean) (mw lw : Nat) :
    ((rowLines mw lw r.print).filterMap parseLine).map DiffLine.fields = [parsedFields mw lw r] := by
  have hleft := leftText_bar h hclean.1.1 mw lw
  have hline : rowLine mw lw r.print ++ ['\n'] =
      leftText mw lw r.marker r.left.print ++ '|' :: ((' ' :: r.right.print) ++ ['\n']) := by
    simp [rowLine, rowBody, leftText, SidedRow.print]
  have hbar := filter_splitlines_sep (by decide : isLineBoundary '|' = false) hleft
    (b := ' ' :: r.right.print) (by simp [hclean.2.1])
  have hparse (lines : List Text) : lines.filterMap parseLine =
      (lines.filter (·.contains '|')).filterMap parseLine := by
    rw [List.filterMap_filter]
    congr 1
    funext line
    simp only [parseLine]
    split <;> simp_all
  have hlast : '|' ∉ lastLine (leftText mw lw r.marker r.left.print) := fun hc =>
    hleft ((List.rtakeWhile_suffix _ _).subset hc)
  have hfirst : firstLine (' ' :: r.right.print) = ' ' :: firstLine r.right.print := by
    simp [firstLine, isLineBoundary, lineBoundaries]
  rw [rowLines, hparse, hline, hbar]
  simp [parseLine, splitOnce_append hlast, DiffLine.fields, hfirst, parsedFields]

theorem parsedFields_iff {r : SidedRow} (h : MarkerShape r.marker) (mw lw : Nat) :
    parsedFields mw lw r = r.fields ↔ r.Readable := by
  have hleft := parseSide_left h r.left mw lw
  have hright := parseSide_right r.right
  rw [Prod.ext_iff, Prod.ext_iff] at hleft
  rw [Prod.ext_iff] at hright
  simp only [parsedFields, SidedRow.fields, SidedRow.Readable, Prod.mk.injEq]
  constructor
  · rintro ⟨hmarker, haddr, haddr', hinst, hinst'⟩
    obtain ⟨hblank, hunbroken⟩ := hleft.mp ⟨hmarker, haddr, hinst⟩
    exact ⟨hblank, hunbroken, hright.mp ⟨haddr', hinst'⟩⟩
  · rintro ⟨hblank, hunbroken, hspace⟩
    obtain ⟨hmarker, haddr, hinst⟩ := hleft.mpr ⟨hblank, hunbroken⟩
    obtain ⟨haddr', hinst'⟩ := hright.mpr hspace
    exact ⟨hmarker, haddr, haddr', hinst, hinst'⟩

/-- The rows of an output come back, each with its fields, exactly if all of
them are readable. -/
theorem printTwoColumn_parse (fmt : PercentFormat) (percent : Option Rat) {rows : List SidedRow}
    (hshape : ∀ r ∈ rows, MarkerShape r.marker) (hclean : ∀ r ∈ rows, r.Clean) :
    (parseDiffLines (printTwoColumn fmt percent (rows.map SidedRow.print))).map DiffLine.fields =
        rows.map SidedRow.fields ↔
      ∀ r ∈ rows, r.Readable := by
  have skip {line : Text} (h : Plain line) : parseLine line = none := by
    simp [parseLine, h.2]
  have run (mw lw : Nat) : (((rows.map SidedRow.print).flatMap (rowLines mw lw)).filterMap
      parseLine).map DiffLine.fields = rows.map (parsedFields mw lw) := by
    induction rows with
    | nil => rfl
    | cons r rows ih =>
      have ih := ih (fun q hq => hshape q (List.mem_cons_of_mem r hq))
        (fun q hq => hclean q (List.mem_cons_of_mem r hq))
      rw [List.map_cons, List.flatMap_cons, List.filterMap_append, List.map_append, ih,
        rowLines_parse (hshape r List.mem_cons_self) (hclean r List.mem_cons_self)]
      rfl
  rw [parseDiffLines, splitlines_printTwoColumn, List.filterMap_cons_none (skip (plain_headerLine ..)),
    List.filterMap_cons_none (skip plain_legendLine), run, List.map_inj_left]
  exact forall₂_congr fun r hr => parsedFields_iff (hshape r hr) _ _

theorem runTwoColumnOutput_printed {env : DiffEnv} {fmt : PercentFormat} {config : DiffObjConfig}
    {flags : MarkerFlags} {target base : Object} {symbolName : String} {out : Text}
    (hrun : runTwoColumnOutput env fmt config flags target base symbolName = .ok out)
    {result : SymbolDiffs} (hdiff : diffObjs env config target base = .ok result)
    {rows : List PrintedRow}
    (hrows : (twoColumns target base symbolName result).printedRows config flags = .ok rows) :
    printTwoColumn fmt
      ((twoColumns target base symbolName result).baseDiff.bind (·.matchPercent)) rows = out := by
  obtain ⟨result', hdiff', -, rows', hrows', hout⟩ := runTwoColumnOutput_ok_iff.mp hrun
  obtain rfl : result = result' := Except.ok.inj (hdiff.symm.trans hdiff')
  obtain rfl : rows = rows' := Except.ok.inj (hrows.symm.trans hrows')
  exact hout

/-- **Reading back.** What `run_two_column_output` prints is read back row by row,
in order and with every field, exactly if each row is readable. -/
theorem parseDiffLines_iff {env : DiffEnv} {fmt : PercentFormat} {config : DiffObjConfig}
    {flags : MarkerFlags} {target base : Object} {symbolName : String} {out : Text}
    (hrun : runTwoColumnOutput env fmt config flags target base symbolName = .ok out)
    {result : SymbolDiffs} (hdiff : diffObjs env config target base = .ok result)
    {rows : List SidedRow}
    (hrows : (twoColumns target base symbolName result).printedRows config flags =
      .ok (rows.map SidedRow.print)) (hclean : ∀ r ∈ rows, r.Clean) :
    (parseDiffLines out).map DiffLine.fields = rows.map SidedRow.fields ↔
      ∀ r ∈ rows, r.Readable := by
  rw [← runTwoColumnOutput_printed hrun hdiff hrows]
  refine printTwoColumn_parse fmt _ ?_ hclean
  intro r hr
  exact printedRows_shape hrows (List.mem_map_of_mem (f := SidedRow.print) hr)

/-! ## Two runs -/

instance (s : Side) : Decidable s.Clean := instDecidableAnd

instance (r : SidedRow) : Decidable r.Clean := instDecidableAnd

instance (r : SidedRow) : Decidable r.Readable := inferInstanceAs (Decidable (_ ∧ _ ∧ _))

/-- A run on two functions, with the rows it prints. -/
def RunPrints (target base : Object) (out : Text) (result : SymbolDiffs) (rows : List SidedRow) :
    Prop :=
  runTwoColumnOutput oneBlockEnv twoDecimals {} {} target base "f" = .ok out ∧
  diffObjs oneBlockEnv {} target base = .ok result ∧
  (twoColumns target base "f" result).printedRows {} {} = .ok (rows.map SidedRow.print)

theorem runPrints_of_eval {target base : Object} {rows : List SidedRow}
    (hfound : target.symbolByName "f" ≠ none)
    (h : (diffObjs oneBlockEnv {} target base).map (fun result =>
      (twoColumns target base "f" result).printedRows {} {}) = .ok (.ok (rows.map SidedRow.print))) :
    ∃ out result, RunPrints target base out result rows := by
  cases hd : diffObjs oneBlockEnv {} target base with
  | error e =>
    rw [hd] at h
    cases h
  | ok result =>
    rw [hd] at h
    have hrows := Except.ok.inj h
    exact ⟨_, result, runTwoColumnOutput_ok_iff.mpr
      ⟨result, hd, fun hn => hfound hn.1, _, hrows, rfl⟩, hd, hrows⟩

def constantRows : List SidedRow :=
  [⟨['c'], .present 0 7 "li r3, 0x2".toList, .present 0 7 "li r3, 0x1".toList⟩,
    ⟨[' '], .present 4 7 "blr ".toList, .present 4 7 "blr ".toList⟩]

/-- Two functions that differ in a constant are read back. -/
theorem parseDiffLines_constant : ∃ out result,
    RunPrints (functionObject ".text" returnTwo) (functionObject ".text" returnOne) out result
      constantRows ∧
    (parseDiffLines out).map DiffLine.fields = constantRows.map SidedRow.fields := by
  obtain ⟨out, result, hrun, hdiff, hrows⟩ : ∃ out result,
      RunPrints (functionObject ".text" returnTwo) (functionObject ".text" returnOne) out result
        constantRows :=
    runPrints_of_eval (by decide +kernel) (by decide +kernel)
  exact ⟨out, result, ⟨hrun, hdiff, hrows⟩,
    (parseDiffLines_iff hrun hdiff hrows (by decide)).mpr (by decide)⟩

def extraRows : List SidedRow :=
  [⟨['+'], .absent, .present 0 7 "li r3, 0x1".toList⟩,
    ⟨[' '], .present 0 7 "blr ".toList, .present 4 7 "blr ".toList⟩]

/-- The marker of an extra instruction is taken for the target's instruction. -/
theorem parseDiffLines_extra : ∃ out result,
    RunPrints (functionObject ".text" returnOnly) (functionObject ".text" returnOne) out result
      extraRows ∧
    (∀ r ∈ extraRows, r.Clean) ∧
    (parseDiffLines out).map DiffLine.fields ≠ extraRows.map SidedRow.fields := by
  have hclean : ∀ r ∈ extraRows, r.Clean := by decide
  obtain ⟨out, result, hrun, hdiff, hrows⟩ : ∃ out result,
      RunPrints (functionObject ".text" returnOnly) (functionObject ".text" returnOne) out result
        extraRows :=
    runPrints_of_eval (by decide +kernel) (by decide +kernel)
  refine ⟨out, result, ⟨hrun, hdiff, hrows⟩, hclean, ?_⟩
  have hshape : ∀ r ∈ extraRows, MarkerShape r.marker := by decide
  rw [← runTwoColumnOutput_printed hrun hdiff hrows, Ne, printTwoColumn_parse _ _ hshape hclean]
  decide

end MeleeHarness.Diagnose
