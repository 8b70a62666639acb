import MeleeHarness.Lib.Bytes
import MeleeHarness.Lib.Run
import Mathlib.Data.List.DropRight

/-!
# Lines of byte strings, from the end

Searching backwards for newlines, and the lines before an offset with the nearest one first.

* `rfind_append`: the last newline is the one with none behind it;
* `joinLines_terminatedLines`: the lines that a newline ends, and the rest behind them;
* `strip_joinLines`: stripping whole lines leaves one line if only one of them is not blank,
  and a newline otherwise.
-/

namespace MeleeHarness.Lib

/-- The bytes that `bytes.strip()` takes away. -/
def isByteSpace (b : UInt8) : Bool := b ∈ [32, 9, 10, 11, 12, 13]

def bstrip (t : Bytes) : Bytes := (t.dropWhile isByteSpace).rdropWhile isByteSpace

/-- `t.rfind(b"\n")` -/
def rfind : Bytes → Int
  | [] => -1
  | b :: rest => if 0 ≤ rfind rest then rfind rest + 1 else if b = 10 then 0 else -1

theorem rfind_none {t : Bytes} (h : 10 ∉ t) : rfind t = -1 := by
  induction t with
  | nil => rfl
  | cons b rest ih =>
    rw [List.mem_cons, not_or] at h
    rw [rfind, ih h.2, if_neg (by decide), if_neg (Ne.symm h.1)]

theorem rfind_append (a : Bytes) {b : Bytes} (h : 10 ∉ b) : rfind (a ++ 10 :: b) = a.length := by
  induction a with
  | nil => simp [rfind, rfind_none h]
  | cons c a ih =>
    rw [List.cons_append, rfind, ih, if_pos (Int.natCast_nonneg _), List.length_cons]
    rfl

/-! ## Lines, the nearest first -/

/-- Lines with their newlines, in the order of the text. -/
def joinLines : List Bytes → Bytes
  | [] => []
  | line :: lines => joinLines lines ++ (line ++ [10])

/-- One byte more: the lines that are ended, and the one that is not. -/
def addByte (s : List Bytes × Bytes) (b : UInt8) : List Bytes × Bytes :=
  if b = 10 then (s.2 :: s.1, []) else (s.1, s.2 ++ [b])

/-- The lines of a text that a newline ends, the last one first, and what comes behind them. -/
def splitBack (t : Bytes) : List Bytes × Bytes := t.foldl addByte ([], [])

def terminatedLines (t : Bytes) : List Bytes := (splitBack t).1

structure SplitBack (read : Bytes) (s : List Bytes × Bytes) : Prop where
  whole : joinLines s.1 ++ s.2 = read
  tail : 10 ∉ s.2
  lines : ∀ line ∈ s.1, 10 ∉ line

theorem splitBack_spec (t : Bytes) : SplitBack t (splitBack t) := by
  apply foldl_invariant SplitBack
  · exact ⟨rfl, List.not_mem_nil, by simp⟩
  · rintro read ⟨lines, tail⟩ b ⟨hread, htail, hlines⟩
    unfold addByte
    split
    · rename_i hb
      refine ⟨?_, List.not_mem_nil, List.forall_mem_cons.mpr ⟨htail, hlines⟩⟩
      rw [← hread, hb]
      simp [joinLines]
    · rename_i hb
      refine ⟨?_, ?_, hlines⟩
      · rw [← hread, List.append_assoc]
      · simpa [eq_comm (a := (10 : UInt8))] using ⟨htail, hb⟩

theorem newline_not_mem_terminatedLines {t line : Bytes} (h : line ∈ terminatedLines t) : 10 ∉ line :=
  (splitBack_spec t).lines line h

/-- A text is its ended lines, and a rest without a newline. -/
theorem joinLines_terminatedLines (t : Bytes) :
    ∃ tail, t = joinLines (terminatedLines t) ++ tail ∧ 10 ∉ tail :=
  ⟨(splitBack t).2, (splitBack_spec t).whole.symm, (splitBack_spec t).tail⟩

/-- A text that is empty or ends with a newline is its lines. -/
theorem joinLines_of_ended {t : Bytes} (h : t = [] ∨ t.getLast? = some 10) :
    joinLines (terminatedLines t) = t := by
  obtain ⟨tail, htext, htail⟩ := joinLines_terminatedLines t
  have hnil : tail = [] := by
    rcases h with rfl | h
    · exact (List.append_eq_nil_iff.mp htext.symm).2
    · rcases List.eq_nil_or_concat' tail with hnil | ⟨init, b, rfl⟩
      · exact hnil
      · rw [htext, ← List.append_assoc, List.getLast?_concat, Option.some.injEq] at h
        exact absurd (by simp [h]) htail
  rw [hnil, List.append_nil] at htext
  exact htext.symm

/-! ## Blank lines -/

def isBlankLine (line : Bytes) : Bool := line.all isByteSpace

theorem isBlankLine_append (a b : Bytes) :
    isBlankLine (a ++ b) = (isBlankLine a && isBlankLine b) := List.all_append

/-- Behind its blank beginning a text starts with a byte that is not blank. -/
theorem exists_begin {t : Bytes} (h : isBlankLine t = false) : ∃ blank c rest,
    t = blank ++ c :: rest ∧ isBlankLine blank = true ∧ isByteSpace c = false := by
  induction t with
  | nil => cases h
  | cons c t ih =>
    cases hc : isByteSpace c with
    | false => exact ⟨[], c, t, rfl, rfl, hc⟩
    | true =>
      have ht : isBlankLine t = false := by simpa [isBlankLine, hc] using h
      obtain ⟨blank, d, rest, rfl, hblank, hd⟩ := ih ht
      exact ⟨c :: blank, d, rest, rfl, by simpa [isBlankLine, hc] using hblank, hd⟩

theorem exists_end {t : Bytes} (h : isBlankLine t = false) : ∃ rest c blank,
    t = rest ++ c :: blank ∧ isBlankLine blank = true ∧ isByteSpace c = false := by
  have hrev : isBlankLine t.reverse = false := by rwa [isBlankLine, List.all_reverse]
  obtain ⟨blank, c, rest, ht, hblank, hc⟩ := exists_begin hrev
  refine ⟨rest.reverse, c, blank.reverse, ?_, by rwa [isBlankLine, List.all_reverse], hc⟩
  rw [← List.reverse_reverse t, ht]
  simp

theorem dropWhile_blank {a : Bytes} (h : isBlankLine a = true) (t : Bytes) :
    (a ++ t).dropWhile isByteSpace = t.dropWhile isByteSpace :=
  List.dropWhile_append_of_pos (List.all_eq_true.mp h)

/-- What is stripped is blank, and what is left begins and ends with bytes that are not. -/
theorem bstrip_core {a b m : Bytes} (ha : isBlankLine a = true) (hb : isBlankLine b = true)
    (hhead : ∃ c rest, m = c :: rest ∧ isByteSpace c = false)
    (hlast : ∃ rest c, m = rest ++ [c] ∧ isByteSpace c = false) : bstrip (a ++ m ++ b) = m := by
  have hfront : (a ++ m ++ b).dropWhile isByteSpace = m ++ b := by
    obtain ⟨c, rest, rfl, hc⟩ := hhead
    rw [List.append_assoc, dropWhile_blank ha, List.cons_append, List.dropWhile_cons_of_neg (by simp [hc])]
  obtain ⟨rest, c, rfl, hc⟩ := hlast
  rw [bstrip, hfront, List.rdropWhile, List.reverse_append,
    dropWhile_blank (by rwa [isBlankLine, List.all_reverse]), ← List.rdropWhile,
    List.rdropWhile_concat_neg _ _ _ (by simp [hc])]

theorem bstrip_blank {t : Bytes} (h : isBlankLine t = true) : bstrip t = [] := by
  have hdrop := dropWhile_blank h []
  rw [List.append_nil] at hdrop
  rw [bstrip, hdrop]
  rfl

theorem bstrip_surrounded {a b line : Bytes} (ha : isBlankLine a = true) (hb : isBlankLine b = true)
    (hline : isBlankLine line = false) : bstrip (a ++ line ++ b) = bstrip line := by
  obtain ⟨blank, c, rest, rfl, hblank, hc⟩ := exists_begin hline
  have hcore : isBlankLine (c :: rest) = false := by simp [isBlankLine, hc]
  obtain ⟨init, d, blank', htail, hblank', hd⟩ := exists_end hcore
  have hstrip {a b : Bytes} (ha : isBlankLine a = true) (hb : isBlankLine b = true) :
      bstrip (a ++ (blank ++ c :: rest) ++ b) = init ++ [d] := by
    have hwhole : a ++ (blank ++ c :: rest) ++ b = (a ++ blank) ++ (init ++ [d]) ++ (blank' ++ b) := by
      rw [htail]
      simp
    rw [hwhole]
    refine bstrip_core (by simp [isBlankLine_append, ha, hblank]) (by simp [isBlankLine_append, hb, hblank'])
      ?_ ⟨init, d, rfl, hd⟩
    cases init with
    | nil => exact ⟨d, [], rfl, hd⟩
    | cons e init =>
      obtain ⟨rfl, -⟩ := List.cons.inj htail
      exact ⟨c, init ++ [d], rfl, hc⟩
  have halone := hstrip (a := []) (b := []) rfl rfl
  rw [List.nil_append, List.append_nil] at halone
  rw [hstrip ha hb, halone]

theorem bstrip_ne_nil {line : Bytes} (h : isBlankLine line = false) : bstrip line ≠ [] := by
  intro hnil
  obtain ⟨blank, c, rest, rfl, hblank, hc⟩ := exists_begin h
  have hdrop : (blank ++ c :: rest).dropWhile isByteSpace = c :: rest := by
    rw [dropWhile_blank hblank, List.dropWhile_cons_of_neg (by simp [hc])]
  rw [bstrip, hdrop, List.rdropWhile_eq_nil_iff] at hnil
  rw [hnil c List.mem_cons_self] at hc
  cases hc

theorem mem_of_mem_bstrip {t : Bytes} {b : UInt8} (h : b ∈ bstrip t) : b ∈ t :=
  (List.dropWhile_sublist _).mem ((List.rdropWhile_prefix _ _).mem h)

/-- A newline between bytes that are not blank is not stripped. -/
theorem newline_mem_bstrip {x y : Bytes} (hx : isBlankLine x = false) (hy : isBlankLine y = false) :
    10 ∈ bstrip (x ++ 10 :: y) := by
  obtain ⟨a, c, rest, rfl, ha, hc⟩ := exists_begin hx
  obtain ⟨init, d, b, rfl, hb, hd⟩ := exists_end hy
  have hwhole : a ++ c :: rest ++ 10 :: (init ++ d :: b) = a ++ (c :: rest ++ 10 :: (init ++ [d])) ++ b := by
    simp
  have hcore := bstrip_core (m := c :: rest ++ 10 :: (init ++ [d])) ha hb ⟨c, _, rfl, hc⟩
    ⟨c :: rest ++ 10 :: init, d, by simp, hd⟩
  rw [hwhole, hcore]
  simp

/-! ## Stripping whole lines -/

theorem joinLines_append (xs ys : List Bytes) : joinLines (xs ++ ys) = joinLines ys ++ joinLines xs := by
  induction xs with
  | nil => simp [joinLines]
  | cons x xs ih => simp [joinLines, ih]

theorem isBlankLine_joinLines (lines : List Bytes) :
    isBlankLine (joinLines lines) = lines.all isBlankLine := by
  induction lines with
  | nil => rfl
  | cons line lines ih =>
    rw [joinLines, isBlankLine_append, isBlankLine_append, ih, List.all_cons, Bool.and_comm]
    simp [isBlankLine, isByteSpace]

def isNonblank (line : Bytes) : Bool := !isBlankLine line

/-- The last line that is not blank, stripped, or nothing. -/
def lastNonblank (lines : List Bytes) : Bytes :=
  ((lines.find? isNonblank).map bstrip).getD []

/-- Lines, stripped as one text, are their last line that is not blank exactly if there is no
other such line. -/
theorem bstrip_joinLines {lines : List Bytes} (h : ∀ line ∈ lines, 10 ∉ line) :
    bstrip (joinLines lines) = lastNonblank lines ↔ lines.countP isNonblank ≤ 1 := by
  cases hfind : lines.find? isNonblank with
  | none =>
    have hblank : ∀ line ∈ lines, isBlankLine line = true := by simpa [isNonblank] using hfind
    have hjoin : isBlankLine (joinLines lines) = true := by
      rw [isBlankLine_joinLines]
      exact List.all_eq_true.mpr hblank
    rw [bstrip_blank hjoin, lastNonblank, hfind, List.countP_eq_zero.mpr (by simpa [isNonblank] using hblank)]
    simp
  | some line =>
    obtain ⟨hline, before, after, rfl, hbefore⟩ := List.find?_eq_some_iff_append.mp hfind
    have hline' : isBlankLine line = false := by simpa [isNonblank] using hline
    have hfront : isBlankLine (joinLines before) = true := by
      rw [isBlankLine_joinLines]
      exact List.all_eq_true.mpr (by simpa [isNonblank] using hbefore)
    have hcount : (before ++ line :: after).countP isNonblank ≤ 1 ↔
        isBlankLine (joinLines after) = true := by
      have hzero : after.countP isNonblank = 0 ↔ ∀ line ∈ after, isBlankLine line = true := by
        simp [List.countP_eq_zero, isNonblank]
      have hnone : before.countP isNonblank = 0 := List.countP_eq_zero.mpr (by simpa using hbefore)
      rw [List.countP_append, List.countP_cons_of_pos hline, hnone, isBlankLine_joinLines,
        List.all_eq_true, ← hzero]
      omega
    have hlast : lastNonblank (before ++ line :: after) = bstrip line := by
      rw [lastNonblank, hfind]
      rfl
    have hjoin : joinLines (before ++ line :: after) =
        joinLines after ++ line ++ (10 :: joinLines before) := by
      simp [joinLines_append, joinLines]
    rw [hlast, hcount, hjoin]
    constructor
    · intro hstrip
      by_contra hafter
      cases after with
      | nil => exact hafter rfl
      | cons first after =>
        have hbegin : isBlankLine (joinLines after ++ first) = false := by
          rw [joinLines, ← List.append_assoc, isBlankLine_append] at hafter
          simpa [isBlankLine, isByteSpace] using hafter
        have hmem := newline_mem_bstrip hbegin (y := line ++ 10 :: joinLines before)
          (by rw [isBlankLine_append, hline']; rfl)
        have hwhole : joinLines (first :: after) ++ line ++ 10 :: joinLines before =
            joinLines after ++ first ++ 10 :: (line ++ 10 :: joinLines before) := by
          simp [joinLines]
        rw [← hwhole, hstrip] at hmem
        exact h line (by simp) (mem_of_mem_bstrip hmem)
    · exact fun hafter => bstrip_surrounded hafter (by simpa [isBlankLine, isByteSpace] using hfront) hline'

end MeleeHarness.Lib
