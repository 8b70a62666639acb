import MeleeHarness.Checkdiff.Verdict
import MeleeHarness.Lib.Lines

/-!
# Matching lines that are not shown

`collapse_matching` of `tools/checkdiff.py` replaces long runs of matching lines by a
placeholder.

* `collapseLines_collapsed`: each run is kept, or loses lines in its middle;
* `collapseMatching_sound`: no other line is lost, the placeholders count what is, and the
  output is flagged as before.
-/

namespace MeleeHarness.Checkdiff

open Lib

def matchSkipThreshold : Nat := 5

def contextLines : Nat := 1

/-- A line that is kept, or the placeholder for some. -/
inductive Piece where
  | line (text : Text)
  | skipped (count : Nat)
  deriving DecidableEq, Repr

namespace Piece

def text : Piece → Text
  | line text => text
  | skipped count => "... ".toList ++ Nat.toDigits 10 count ++ " matching lines skipped ...".toList

/-- How many lines it stands for. -/
def size : Piece → Nat
  | line _ => 1
  | skipped count => count

def line? : Piece → Option Text
  | line text => some text
  | skipped _ => none

end Piece

structure Collapse where
  result : List Piece
  buf : List Text
  prevDiff : Bool

def flush (st : Collapse) (nextDiff : Bool) : Collapse :=
  let head := if st.prevDiff then contextLines else 0
  let tail := if nextDiff then contextLines else 0
  if st.buf.length < matchSkipThreshold ∨ st.buf.length ≤ head + tail then
    { st with result := st.result ++ st.buf.map .line, buf := [] }
  else
    { st with
      result := st.result ++ (st.buf.take head).map .line ++ [.skipped (st.buf.length - head - tail)] ++
        (st.buf.drop (st.buf.length - tail)).map .line
      buf := [] }

def collapseLine (st : Collapse) (line : Text) : Collapse :=
  if isMatchingLine line then { st with buf := st.buf ++ [line] }
  else
    let isDiff := line.contains '|'
    let st := flush st isDiff
    { st with result := st.result ++ [.line line], prevDiff := isDiff }

def collapseLines (lines : List Text) : List Piece :=
  (flush (lines.foldl collapseLine ⟨[], [], false⟩) false).result

/-- `"\n".join`, and a last newline if there was one. -/
def joinPieces (pieces : List Piece) (newline : Bool) : Text :=
  ['\n'].intercalate (pieces.map Piece.text) ++ if newline then ['\n'] else []

def collapseMatching (output : Text) : Text :=
  joinPieces (collapseLines (splitlines output)) (output.getLast? = some '\n')

/-! ## Runs -/

/-- What becomes of a run of matching lines. `prev` and `next` say whether the line before
it and the line behind it are marked rows. -/
inductive Shortened (prev next : Bool) (run : List Text) : List Piece → Prop
  | kept : Shortened prev next run (run.map .line)
  | hidden (front middle back : List Text) : matchSkipThreshold ≤ run.length →
      run = front ++ middle ++ back → middle ≠ [] →
      front.length = (if prev then contextLines else 0) → back.length = (if next then contextLines else 0) →
      Shortened prev next run (front.map .line ++ [.skipped middle.length] ++ back.map .line)

/-- The lines are taken apart into maximal runs of matching lines and the lines between. -/
inductive Collapsed : Bool → List Text → List Piece → Prop
  | last {prev : Bool} {run : List Text} {pieces : List Piece} : (∀ l ∈ run, isMatchingLine l = true) →
      Shortened prev false run pieces → Collapsed prev run pieces
  | row {prev : Bool} {run rest : List Text} {line : Text} {pieces later : List Piece} :
      (∀ l ∈ run, isMatchingLine l = true) → isMatchingLine line = false →
      Shortened prev (line.contains '|') run pieces → Collapsed (line.contains '|') rest later →
      Collapsed prev (run ++ line :: rest) (pieces ++ .line line :: later)

theorem flush_result (st : Collapse) (next : Bool) : ∃ pieces,
    flush st next = ⟨st.result ++ pieces, [], st.prevDiff⟩ ∧
      Shortened st.prevDiff next st.buf pieces := by
  obtain ⟨result, buf, prev⟩ := st
  simp only [flush]
  generalize hhead : (if prev = true then contextLines else 0) = head
  generalize htail : (if next = true then contextLines else 0) = tail
  by_cases hshort : buf.length < matchSkipThreshold ∨ buf.length ≤ head + tail
  · exact ⟨_, if_pos hshort, .kept⟩
  · rw [if_neg hshort]
    rw [not_or, Nat.not_lt, Nat.not_le] at hshort
    obtain ⟨hlong, hroom⟩ := hshort
    -- the middle is what neither context line is
    have hlen : (buf.drop head).length = buf.length - head := List.length_drop
    have hparts : buf = buf.take head ++ (buf.drop head).take (buf.length - head - tail) ++
        buf.drop (buf.length - tail) := by
      have hback : buf.drop (buf.length - tail) = (buf.drop head).drop (buf.length - head - tail) := by
        rw [List.drop_drop]
        congr 1
        omega
      rw [hback, List.append_assoc, List.take_append_drop, List.take_append_drop]
    have hmiddle : ((buf.drop head).take (buf.length - head - tail)).length = buf.length - head - tail := by
      rw [List.length_take, hlen]
      omega
    refine ⟨_, by rw [List.append_assoc, List.append_assoc], ?_⟩
    rw [← List.append_assoc, ← hmiddle]
    refine .hidden _ _ _ hlong hparts ?_ ?_ ?_
    · intro hnil
      rw [hnil, List.length_nil] at hmiddle
      omega
    · rw [List.length_take, hhead]
      omega
    · rw [List.length_drop, htail]
      omega

theorem collapse_lines (lines : List Text) : ∀ st : Collapse, (∀ l ∈ st.buf, isMatchingLine l = true) →
    ∃ pieces, (flush (lines.foldl collapseLine st) false).result = st.result ++ pieces ∧
      Collapsed st.prevDiff (st.buf ++ lines) pieces := by
  induction lines with
  | nil =>
    intro st hbuf
    obtain ⟨pieces, hflush, hshort⟩ := flush_result st false
    refine ⟨pieces, by rw [List.foldl_nil, hflush], ?_⟩
    rw [List.append_nil]
    exact .last hbuf hshort
  | cons line rest ih =>
    intro st hbuf
    rw [List.foldl_cons]
    cases hline : isMatchingLine line with
    | true =>
      have hnext : collapseLine st line = { st with buf := st.buf ++ [line] } := if_pos hline
      rw [hnext]
      obtain ⟨pieces, hresult, hcollapsed⟩ := ih { st with buf := st.buf ++ [line] } (by
        intro l hl
        rcases List.mem_append.mp hl with hl | hl
        · exact hbuf l hl
        · rwa [List.mem_singleton.mp hl])
      refine ⟨pieces, hresult, ?_⟩
      rw [List.append_assoc] at hcollapsed
      exact hcollapsed
    | false =>
      obtain ⟨pieces, hflush, hshort⟩ := flush_result st (line.contains '|')
      have hnext : collapseLine st line =
          ⟨st.result ++ pieces ++ [.line line], [], line.contains '|'⟩ := by
        simp only [collapseLine, hline, hflush]
        rfl
      rw [hnext]
      obtain ⟨later, hresult, hcollapsed⟩ := ih
        ⟨st.result ++ pieces ++ [.line line], [], line.contains '|'⟩ (fun l hl => by cases hl)
      refine ⟨pieces ++ .line line :: later, ?_, .row hbuf hline hshort hcollapsed⟩
      rw [hresult, List.append_assoc, List.append_assoc]
      rfl

theorem collapseLines_collapsed (lines : List Text) : Collapsed false lines (collapseLines lines) := by
  obtain ⟨pieces, hresult, hcollapsed⟩ := collapse_lines lines ⟨[], [], false⟩ fun l hl => nomatch hl
  rw [collapseLines, hresult]
  exact hcollapsed

/-! ## What is shown -/

theorem Shortened.size {prev next : Bool} {run : List Text} {pieces : List Piece}
    (h : Shortened prev next run pieces) : (pieces.map Piece.size).sum = run.length := by
  have hlines : ∀ ls : List Text, ((ls.map Piece.line).map Piece.size).sum = ls.length := by
    intro ls
    induction ls with
    | nil => rfl
    | cons l ls ih =>
      rw [List.map_cons, List.map_cons, List.sum_cons, ih, Piece.size, List.length_cons, Nat.add_comm]
  cases h with
  | kept => exact hlines run
  | hidden front middle back _ hrun _ _ _ =>
    rw [hrun]
    simp only [List.map_append, List.sum_append, hlines, List.length_append, List.map_cons, List.map_nil,
      Piece.size, List.sum_singleton]

/-- Of a run only matching lines are shown. -/
theorem Shortened.lines {prev next : Bool} {run : List Text} {pieces : List Piece}
    (h : Shortened prev next run pieces) : (pieces.filterMap Piece.line?).Sublist run := by
  have hlines : ∀ ls : List Text, (ls.map Piece.line).filterMap Piece.line? = ls := by
    intro ls
    rw [List.filterMap_map]
    exact List.filterMap_some
  cases h with
  | kept => rw [hlines]
  | hidden front middle back _ hrun _ _ _ =>
    rw [hrun, List.filterMap_append, List.filterMap_append, hlines, hlines]
    have hfront : (front ++ []).Sublist (front ++ middle) := (List.Sublist.refl front).append (List.nil_sublist _)
    exact hfront.append (List.Sublist.refl back)

theorem Collapsed.size {prev : Bool} {lines : List Text} {pieces : List Piece}
    (h : Collapsed prev lines pieces) : (pieces.map Piece.size).sum = lines.length := by
  induction h with
  | last _ hshort => exact hshort.size
  | row _ _ hshort _ ih =>
    rw [List.map_append, List.sum_append, List.map_cons, List.sum_cons, ih, hshort.size,
      List.length_append, List.length_cons]
    simp only [Piece.size]
    omega

/-- The lines that do not match are all shown, and in order. -/
theorem Collapsed.kept {prev : Bool} {lines : List Text} {pieces : List Piece}
    (h : Collapsed prev lines pieces) :
    (pieces.filterMap Piece.line?).filter (!isMatchingLine ·) = lines.filter (!isMatchingLine ·) := by
  have hnone : ∀ ls : List Text, (∀ l ∈ ls, isMatchingLine l = true) → ls.filter (!isMatchingLine ·) = [] := by
    intro ls hls
    rw [List.filter_eq_nil_iff]
    intro l hl
    simp [hls l hl]
  induction h with
  | last hrun hshort => rw [hnone _ hrun, hnone _ fun l hl => hrun l (hshort.lines.subset hl)]
  | row hrun hline hshort _ ih =>
    rw [List.filterMap_append, List.filter_append, List.filter_append, hnone _ hrun,
      hnone _ fun l hl => hrun l (hshort.lines.subset hl)]
    simpa [Piece.line?, List.filter_cons, hline] using ih

/-! ## The text -/

/-- A row that is flagged. -/
def flagged (line : Text) : Bool := line.contains '|' && !isMatchingLine line

@[simp] theorem Piece.text_line (text : Text) : (Piece.line text).text = text := rfl

theorem Piece.skipped_unbroken (count : Nat) : Unbroken (Piece.skipped count).text ∧
    flagged (Piece.skipped count).text = false := by
  have hdigits : ∀ c ∈ decimalAlphabet, isLineBoundary c = false ∧ c ≠ '|' := by decide
  have hchars : ∀ c ∈ (Piece.skipped count).text, isLineBoundary c = false ∧ c ≠ '|' := by
    intro c hc
    unfold Piece.text at hc
    rw [List.mem_append, List.mem_append] at hc
    rcases hc with (hc | hc) | hc
    · revert c
      decide
    · exact hdigits c (mem_decimal hc)
    · revert c
      decide
  refine ⟨fun c hc => (hchars c hc).1, ?_⟩
  have hbar : (Piece.skipped count).text.contains '|' = false := by
    rw [List.contains_eq_mem, decide_eq_false_iff_not]
    exact fun hmem => (hchars _ hmem).2 rfl
  rw [flagged, hbar]
  rfl

theorem any_splitlines_unbroken {t : Text} (ht : Unbroken t) (newline : Bool) :
    (splitlines (t ++ if newline then ['\n'] else [])).any flagged = flagged t := by
  cases newline with
  | true =>
    rw [if_pos rfl, splitlines_unbroken_newline ht]
    simp [splitlines]
  | false =>
    rw [if_neg Bool.false_ne_true, List.append_nil]
    by_cases hne : t = []
    · rw [hne]
      rfl
    · rw [splitlines_unbroken ht hne]
      simp

/-- The lines of joined lines are flagged as the lines are. -/
theorem any_splitlines_join {texts : List Text} (h : ∀ t ∈ texts, Unbroken t) (newline : Bool) :
    (splitlines (['\n'].intercalate texts ++ if newline then ['\n'] else [])).any flagged =
      texts.any flagged := by
  induction texts with
  | nil => exact any_splitlines_unbroken (t := []) (fun c hc => by cases hc) newline
  | cons t texts ih =>
    have ht := h t List.mem_cons_self
    cases texts with
    | nil =>
      rw [List.intercalate_singleton, any_splitlines_unbroken ht]
      simp
    | cons u texts =>
      have hrest := ih fun v hv => h v (List.mem_cons_of_mem t hv)
      rw [List.intercalate_cons_cons, List.append_assoc, List.append_assoc, List.singleton_append,
        splitlines_unbroken_newline ht, List.any_cons, hrest, List.any_cons (l := u :: texts)]

theorem any_flagged (lines : List Text) :
    lines.any flagged = (lines.filter (!isMatchingLine ·)).any (·.contains '|') := by
  rw [List.any_filter]
  congr 1
  funext l
  rw [flagged, Bool.and_comm]

/-- A placeholder is not flagged. -/
theorem any_flagged_pieces (pieces : List Piece) :
    (pieces.map Piece.text).any flagged = (pieces.filterMap Piece.line?).any flagged := by
  induction pieces with
  | nil => rfl
  | cons piece pieces ih =>
    cases piece with
    | line text => simpa [Piece.line?] using congrArg (flagged text || ·) ih
    | skipped count => simpa [Piece.line?, (Piece.skipped_unbroken count).2] using ih

/-- A collapsed output is flagged as the output is. -/
theorem Collapsed.any_flagged {prev : Bool} {lines : List Text} {pieces : List Piece}
    (h : Collapsed prev lines pieces) : (pieces.map Piece.text).any flagged = lines.any flagged := by
  rw [any_flagged_pieces, Checkdiff.any_flagged, h.kept, ← Checkdiff.any_flagged]

theorem Collapsed.lines {prev : Bool} {lines : List Text} {pieces : List Piece}
    (h : Collapsed prev lines pieces) : (pieces.filterMap Piece.line?).Sublist lines := by
  induction h with
  | last _ hshort => exact hshort.lines
  | row _ _ hshort _ ih =>
    rw [List.filterMap_append]
    exact hshort.lines.append (ih.cons_cons _)

theorem Collapsed.unbroken {prev : Bool} {lines : List Text} {pieces : List Piece}
    (h : Collapsed prev lines pieces) (hlines : ∀ l ∈ lines, Unbroken l) :
    ∀ t ∈ pieces.map Piece.text, Unbroken t := by
  intro t ht
  obtain ⟨piece, hpiece, rfl⟩ := List.mem_map.mp ht
  cases piece with
  | line text => exact hlines text (h.lines.subset (List.mem_filterMap.mpr ⟨_, hpiece, rfl⟩))
  | skipped count => exact (Piece.skipped_unbroken count).1

/-- Only matching lines are hidden, in the middle of long runs, and counted; the output
is flagged as before. -/
theorem collapseMatching_sound (output : Text) : ∃ pieces,
    collapseMatching output = joinPieces pieces (output.getLast? = some '\n') ∧
    Collapsed false (splitlines output) pieces ∧
    (pieces.filterMap Piece.line?).filter (!isMatchingLine ·) =
      (splitlines output).filter (!isMatchingLine ·) ∧
    (pieces.map Piece.size).sum = (splitlines output).length ∧
    hasMismatch (collapseMatching output) = hasMismatch output := by
  have hcollapsed := collapseLines_collapsed (splitlines output)
  refine ⟨_, rfl, hcollapsed, hcollapsed.kept, hcollapsed.size, ?_⟩
  have hjoined := any_splitlines_join (hcollapsed.unbroken fun l hl => unbroken_of_mem_splitlines hl)
    (decide (output.getLast? = some '\n'))
  exact hjoined.trans hcollapsed.any_flagged

end MeleeHarness.Checkdiff
