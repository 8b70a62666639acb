import MeleeHarness.Lib.ByteLines

/-!
# Pragmas around a function

`_prev_nonblank_line` walks back over the newlines before a function. Behind a blank line it
searches on before the newline that ends the line above, so it reads every other line; and from
a blank first line it goes on at the end of the file, since `start - 1` is then negative.

* `prevLoop_lines`: what the walk does on the lines that are left;
* `prevNonblankLine_iff`: when it ends with the last line that is not blank.
-/

namespace MeleeHarness.SrcMutate

open Lib

section
variable (src : Bytes)

/-- The loop, from the offset that the last search returned. -/
def prevLoop (pos : Nat) : Nat → Int → Option Bytes
  | 0, _ => none
  | fuel + 1, stop =>
    if 0 ≤ stop then
      let start := rfind (slice src 0 stop) + 1
      let line := bstrip (slice src start stop)
      if line ≠ [] then some line else prevLoop pos fuel (rfind (slice src 0 (start - 1)))
    else some (bstrip (slice src 0 pos))

/-- `_prev_nonblank_line`, for as many rounds of its loop as there is fuel. -/
def prevNonblankLine (fuel pos : Nat) : Option Bytes := prevLoop src pos fuel (rfind (slice src 0 pos))

/-- `_next_nonblank_line`, with what has been read of the line. -/
def nextLoop : Bytes → Bytes → Bytes
  | line, [] => bstrip line
  | line, b :: rest =>
    if b = 10 then if bstrip line ≠ [] then bstrip line else nextLoop [] rest
    else nextLoop (line ++ [b]) rest

def nextNonblankLine (pos : Nat) : Bytes := nextLoop [] (src.drop pos)

/-- `_pragma_wrapped`, for a function from `start` to `stop`. -/
def pragmaWrapped (fuel start stop : Nat) : Option Bool :=
  (prevNonblankLine src fuel start).map fun prev =>
    (ascii "#pragma").isPrefixOf prev || (ascii "#pragma pop").isPrefixOf (nextNonblankLine src stop)

end

/-! ## One round -/

/-- Every other element, from the first on. -/
def everyOther {α : Type} : List α → List α
  | [] => []
  | [x] => [x]
  | x :: _ :: rest => x :: everyOther rest

/-- The offset of the newline that ends the nearest of the lines that are left. -/
def stopOf (lines : List Bytes) : Int := (joinLines lines).length - 1

section
variable {src : Bytes} {pos : Nat} {line rest : Bytes} {lines : List Bytes}

theorem rfind_joinLines (h : ∀ line ∈ lines, 10 ∉ line) {tail : Bytes} (htail : 10 ∉ tail) :
    rfind (joinLines lines ++ tail) = stopOf lines := by
  cases lines with
  | nil => exact rfind_none htail
  | cons line lines =>
    rw [stopOf, joinLines, ← List.append_assoc, List.append_assoc, List.singleton_append,
      rfind_append _ htail, List.length_append, List.length_append, List.length_append]
    simp

theorem stopOf_cons (line : Bytes) (lines : List Bytes) :
    stopOf (line :: lines) = ((joinLines lines ++ line).length : Nat) := by
  rw [stopOf, joinLines, ← List.append_assoc, List.length_append]
  simp

theorem slice_zero (t : Bytes) (n : Nat) : slice t 0 n = t.take n := slice_natCast t 0 n

/-- What stands before the newline of the nearest line. -/
theorem slice_stopOf (hsrc : src = joinLines (line :: lines) ++ rest) :
    slice src 0 (stopOf (line :: lines)) = joinLines lines ++ line := by
  rw [stopOf_cons, slice_zero, hsrc, joinLines, ← List.append_assoc, List.append_assoc, List.take_left]

theorem prevLoop_nil (fuel : Nat) : prevLoop src pos (fuel + 1) (stopOf []) =
    some (bstrip (src.take pos)) := by
  rw [prevLoop, if_neg (by decide), slice_zero]

/-- A round reads the nearest line. -/
theorem prevLoop_cons (h : ∀ l ∈ line :: lines, 10 ∉ l) (hsrc : src = joinLines (line :: lines) ++ rest)
    (fuel : Nat) : prevLoop src pos (fuel + 1) (stopOf (line :: lines)) =
      if bstrip line ≠ [] then some (bstrip line)
      else prevLoop src pos fuel (rfind (slice src 0 (stopOf lines))) := by
  obtain ⟨hline, hlines⟩ := List.forall_mem_cons.mp h
  have hstart : rfind (joinLines lines ++ line) + 1 = (joinLines lines).length := by
    rw [rfind_joinLines hlines hline, stopOf]
    omega
  have htext : slice src (joinLines lines).length (stopOf (line :: lines)) = line := by
    rw [stopOf_cons, slice_natCast, hsrc, joinLines, ← List.append_assoc, List.append_assoc,
      List.take_left, List.drop_left]
  have hstop : 0 ≤ stopOf (line :: lines) := by
    rw [stopOf_cons]
    exact Int.natCast_nonneg _
  rw [prevLoop, if_pos hstop]
  simp only [slice_stopOf hsrc, hstart, htext]
  rfl

/-- Behind a blank line the walk leaves out the line above. -/
theorem prevLoop_skip {second : Bytes} (h : ∀ l ∈ line :: second :: lines, 10 ∉ l)
    (hsrc : src = joinLines (line :: second :: lines) ++ rest) (hblank : isBlankLine line = true)
    (fuel : Nat) : prevLoop src pos (fuel + 1) (stopOf (line :: second :: lines)) =
      prevLoop src pos fuel (stopOf lines) := by
  have hlines : ∀ l ∈ lines, 10 ∉ l := fun l hl => h l (by simp [hl])
  have hsecond : src = joinLines (second :: lines) ++ (line ++ 10 :: rest) := by
    rw [hsrc, joinLines]
    simp
  rw [prevLoop_cons h hsrc, bstrip_blank hblank, if_neg (by simp), slice_stopOf hsecond,
    rfind_joinLines hlines (h second (by simp))]

/-- From a blank first line it goes on at the end of the file. -/
theorem prevLoop_wrap (h : 10 ∉ line) (hsrc : src = joinLines [line] ++ rest)
    (hblank : isBlankLine line = true) (fuel : Nat) : prevLoop src pos (fuel + 1) (stopOf [line]) =
      prevLoop src pos fuel (stopOf (terminatedLines src.dropLast)) := by
  have hread : slice src 0 (stopOf []) = src.dropLast := by
    have hlen : 0 < src.length := by
      simp only [hsrc, joinLines, List.length_append, List.length_cons]
      omega
    have hstop : sliceIndex src.length (stopOf []) = src.length - 1 := by
      rw [stopOf, sliceIndex, if_pos (by decide)]
      simp only [joinLines, List.length_nil]
      omega
    rw [slice, hstop, List.dropLast_eq_take]
    rfl
  obtain ⟨tail, htext, htail⟩ := joinLines_terminatedLines src.dropLast
  rw [prevLoop_cons (by simpa using h) hsrc, bstrip_blank hblank, if_neg (by simp), hread]
  conv_lhs => rw [htext]
  rw [rfind_joinLines (fun l hl => newline_not_mem_terminatedLines hl) htail]

theorem prevLoop_found (h : ∀ l ∈ line :: lines, 10 ∉ l) (hsrc : src = joinLines (line :: lines) ++ rest)
    (hline : isBlankLine line = false) (fuel : Nat) :
    prevLoop src pos (fuel + 1) (stopOf (line :: lines)) = some (bstrip line) := by
  rw [prevLoop_cons h hsrc, if_pos (bstrip_ne_nil hline)]

end

/-! ## The walk -/

section
variable {src : Bytes} {pos : Nat} {lines : List Bytes} {rest : Bytes}

/-- Among every other line the first that is not blank is returned. -/
theorem prevLoop_find (h : ∀ l ∈ lines, 10 ∉ l) (hsrc : src = joinLines lines ++ rest) {line : Bytes}
    (hfind : (everyOther lines).find? isNonblank = some line) :
    ∃ n, ∀ fuel, prevLoop src pos (fuel + n) (stopOf lines) = some (bstrip line) := by
  fun_induction everyOther lines generalizing rest with
  | case1 => cases hfind
  | case2 x =>
    rw [List.find?_singleton] at hfind
    split at hfind
    · rename_i hx
      obtain rfl := Option.some.inj hfind
      exact ⟨1, fun fuel => prevLoop_found h hsrc (by simpa [isNonblank] using hx) fuel⟩
    · cases hfind
  | case3 x y lines ih =>
    rw [List.find?_cons] at hfind
    split at hfind
    · rename_i hx
      obtain rfl := Option.some.inj hfind
      exact ⟨1, fun fuel => prevLoop_found h hsrc (by simpa [isNonblank] using hx) fuel⟩
    · rename_i hx
      have hrest : src = joinLines lines ++ (y ++ 10 :: (x ++ 10 :: rest)) := by
        rw [hsrc, joinLines, joinLines]
        simp
      obtain ⟨n, hn⟩ := ih (fun l hl => h l (by simp [hl])) hrest hfind
      refine ⟨n + 1, fun fuel => ?_⟩
      rw [← Nat.add_assoc, prevLoop_skip h hsrc (by simpa [isNonblank] using hx), hn]

/-- Where all of these are blank, what the walk goes on with. -/
theorem prevLoop_blank (h : ∀ l ∈ lines, 10 ∉ l) (hsrc : src = joinLines lines ++ rest)
    (hblank : (everyOther lines).find? isNonblank = none) (fuel : Nat) :
    prevLoop src pos (fuel + (everyOther lines).length) (stopOf lines) =
      if lines.length % 2 = 0 then prevLoop src pos fuel (stopOf [])
      else prevLoop src pos fuel (stopOf (terminatedLines src.dropLast)) := by
  fun_induction everyOther lines generalizing rest with
  | case1 => rfl
  | case2 x =>
    have hx : isBlankLine x = true := by simpa [isNonblank] using hblank
    exact prevLoop_wrap (h x (by simp)) hsrc hx fuel
  | case3 x y lines ih =>
    rw [List.find?_cons] at hblank
    split at hblank
    · cases hblank
    · rename_i hx
      have hrest : src = joinLines lines ++ (y ++ 10 :: (x ++ 10 :: rest)) := by
        rw [hsrc, joinLines, joinLines]
        simp
      have hpar : (x :: y :: lines).length % 2 = lines.length % 2 := by
        rw [List.length_cons, List.length_cons]
        omega
      rw [hpar, List.length_cons, ← Nat.add_assoc, prevLoop_skip h hsrc (by simpa [isNonblank] using hx)]
      exact ih (fun l hl => h l (by simp [hl])) hrest hblank

/-- More fuel changes nothing. -/
theorem prevLoop_more {fuel : Nat} {stop : Int} {line : Bytes}
    (h : prevLoop src pos fuel stop = some line) (n : Nat) :
    prevLoop src pos (fuel + n) stop = some line := by
  induction fuel generalizing stop with
  | zero => cases h
  | succ fuel ih =>
    rw [Nat.add_right_comm]
    rw [prevLoop] at h ⊢
    split at h
    · rename_i hstop
      rw [if_pos hstop]
      simp only at h ⊢
      split at h
      · rename_i hline
        rw [if_pos hline, h]
      · rename_i hline
        rw [if_neg hline, ih h]
    · rename_i hstop
      rw [if_neg hstop, h]

end

/-! ## What is returned -/

section
variable (src : Bytes) (pos : Nat)

def linesBefore : List Bytes := terminatedLines (src.take pos)

/-- The lines that the walk reads: every other one from the one above on, and after a first line
that is blank every other one from the end of the file on. -/
def linesRead : List Bytes :=
  everyOther (linesBefore src pos) ++
    if (linesBefore src pos).length % 2 = 0 then [] else everyOther (terminatedLines src.dropLast)

/-- A walk over blank lines comes to the beginning of the file, not to its first line. -/
def walkEnds : Bool :=
  (linesBefore src pos).length % 2 = 0 || (terminatedLines src.dropLast).length % 2 = 0

end

section
variable {src : Bytes} {pos : Nat}

theorem linesBefore_split (h : src.take pos = [] ∨ (src.take pos).getLast? = some 10) :
    src = joinLines (linesBefore src pos) ++ src.drop pos := by
  rw [linesBefore, joinLines_of_ended h, List.take_append_drop]

theorem terminatedLines_split (src : Bytes) :
    ∃ rest, src = joinLines (terminatedLines src.dropLast) ++ rest := by
  obtain ⟨tail, htext, -⟩ := joinLines_terminatedLines src.dropLast
  obtain ⟨last, hlast⟩ := List.dropLast_prefix src
  refine ⟨tail ++ last, ?_⟩
  rw [← List.append_assoc, ← htext, hlast]

theorem prevNonblankLine_start (h : src.take pos = [] ∨ (src.take pos).getLast? = some 10)
    (fuel : Nat) : prevNonblankLine src fuel pos = prevLoop src pos fuel (stopOf (linesBefore src pos)) := by
  have hread : slice src 0 pos = joinLines (linesBefore src pos) ++ [] := by
    rw [slice_zero, linesBefore, joinLines_of_ended h, List.append_nil]
  have hlines : ∀ l ∈ linesBefore src pos, 10 ∉ l := fun l hl => newline_not_mem_terminatedLines hl
  rw [prevNonblankLine, hread, rfind_joinLines hlines List.not_mem_nil]

/-- From the end of a file whose first line it comes back to, the walk does not end. -/
theorem prevLoop_diverges (hblank : (everyOther (terminatedLines src.dropLast)).find? isNonblank = none)
    (hodd : (terminatedLines src.dropLast).length % 2 = 1) (fuel : Nat) :
    prevLoop src pos fuel (stopOf (terminatedLines src.dropLast)) = none := by
  obtain ⟨rest, hsrc⟩ := terminatedLines_split src
  have hround (n : Nat) : prevLoop src pos (n + (everyOther (terminatedLines src.dropLast)).length)
      (stopOf (terminatedLines src.dropLast)) =
        prevLoop src pos n (stopOf (terminatedLines src.dropLast)) := by
    rw [prevLoop_blank (fun l hl => newline_not_mem_terminatedLines hl) hsrc hblank, if_neg (by omega)]
  have hpos : 0 < (everyOther (terminatedLines src.dropLast)).length := by
    cases hlines : terminatedLines src.dropLast with
    | nil => simp [hlines] at hodd
    | cons line lines => cases lines <;> simp [everyOther]
  induction fuel using Nat.strongRecOn with
  | ind fuel ih =>
    cases hreturned : prevLoop src pos fuel (stopOf (terminatedLines src.dropLast)) with
    | none => rfl
    | some line =>
      by_cases hfuel : (everyOther (terminatedLines src.dropLast)).length ≤ fuel
      · obtain ⟨less, rfl⟩ := Nat.exists_eq_add_of_le' hfuel
        rw [hround, ih less (by omega)] at hreturned
        cases hreturned
      · have hmore := prevLoop_more hreturned ((everyOther (terminatedLines src.dropLast)).length - fuel)
        have hnone := hround 0
        rw [Nat.add_sub_cancel' (by omega)] at hmore
        rw [Nat.zero_add, hmore] at hnone
        cases hnone

theorem prevLoop_ends {fuel : Nat} {stop : Int} {line line' : Bytes}
    (h : prevLoop src pos fuel stop = some line) :
    (∃ n, prevLoop src pos n stop = some line') ↔ line' = line := by
  constructor
  · rintro ⟨n, hn⟩
    have hboth := prevLoop_more hn fuel
    rw [Nat.add_comm, prevLoop_more h n] at hboth
    exact (Option.some.inj hboth).symm
  · rintro rfl
    exact ⟨fuel, h⟩

theorem prevLoop_shift {n : Nat} {stop stop' : Int} {line : Bytes}
    (h : ∀ fuel, prevLoop src pos (fuel + n) stop = prevLoop src pos fuel stop') :
    (∃ fuel, prevLoop src pos fuel stop = some line) ↔
      ∃ fuel, prevLoop src pos fuel stop' = some line := by
  constructor
  · rintro ⟨fuel, hfuel⟩
    exact ⟨fuel, h fuel ▸ prevLoop_more hfuel n⟩
  · rintro ⟨fuel, hfuel⟩
    exact ⟨fuel + n, (h fuel).trans hfuel⟩

/-- What the walk returns, on the lines that it reads. -/
theorem prevNonblankLine_returns (h : src.take pos = [] ∨ (src.take pos).getLast? = some 10)
    (line : Bytes) : (∃ fuel, prevNonblankLine src fuel pos = some line) ↔
      match (linesRead src pos).find? isNonblank with
      | some found => line = bstrip found
      | none => walkEnds src pos = true ∧ line = bstrip (src.take pos) := by
  simp only [prevNonblankLine_start h]
  have hlines : ∀ l ∈ linesBefore src pos, 10 ∉ l := fun l hl => newline_not_mem_terminatedLines hl
  have hback : ∀ l ∈ terminatedLines src.dropLast, 10 ∉ l := fun l hl => newline_not_mem_terminatedLines hl
  have hsrc := linesBefore_split h
  obtain ⟨rest, hend⟩ := terminatedLines_split src
  rw [linesRead, List.find?_append]
  cases hfind : (everyOther (linesBefore src pos)).find? isNonblank with
  | some found =>
    obtain ⟨n, hn⟩ := @prevLoop_find src pos _ _ hlines hsrc _ hfind
    exact prevLoop_ends (hn 0)
  | none =>
    have hwalk := @prevLoop_blank src pos _ _ hlines hsrc hfind
    have hbegin : (∃ fuel, prevLoop src pos fuel (stopOf []) = some line) ↔
        line = bstrip (src.take pos) := prevLoop_ends (prevLoop_nil 0)
    by_cases heven : (linesBefore src pos).length % 2 = 0
    · simp only [if_pos heven] at hwalk
      rw [prevLoop_shift hwalk, hbegin]
      simp [heven, walkEnds]
    · simp only [if_neg heven] at hwalk
      rw [prevLoop_shift hwalk]
      simp only [if_neg heven, Option.none_or]
      cases hagain : (everyOther (terminatedLines src.dropLast)).find? isNonblank with
      | some found =>
        obtain ⟨n, hn⟩ := @prevLoop_find src pos _ _ hback hend _ hagain
        exact prevLoop_ends (hn 0)
      | none =>
        by_cases hback2 : (terminatedLines src.dropLast).length % 2 = 0
        · have hround := @prevLoop_blank src pos _ _ hback hend hagain
          simp only [if_pos hback2] at hround
          rw [prevLoop_shift hround, hbegin]
          simp [hback2, walkEnds]
        · have hnone := @prevLoop_diverges src pos hagain (by omega)
          simp [hnone, walkEnds, heven, hback2]

/-- The walk ends with the last line before `pos` that is not blank, and so does not miss a
pragma. -/
structure PrevCorrect (src : Bytes) (pos : Nat) : Prop where
  returned : ∃ fuel, prevNonblankLine src fuel pos = some (lastNonblank (linesBefore src pos))
  wrapped : ∀ stop, (ascii "#pragma").isPrefixOf (lastNonblank (linesBefore src pos)) = true →
    ∃ fuel, pragmaWrapped src fuel pos stop = some true

theorem prevCorrect_iff_returned : PrevCorrect src pos ↔
    ∃ fuel, prevNonblankLine src fuel pos = some (lastNonblank (linesBefore src pos)) := by
  refine ⟨fun h => h.returned, fun h => ⟨h, fun stop hpragma => ?_⟩⟩
  obtain ⟨fuel, hfuel⟩ := h
  exact ⟨fuel, by rw [pragmaWrapped, hfuel, Option.map_some, hpragma, Bool.true_or]⟩

/-- **The line above.** From the start of a line the walk ends with the last line above that is
not blank exactly if the first line that is not blank among those it reads has the bytes of that
line, or all of them are blank, the walk comes to the beginning of the file, and at most one line
above is not blank. -/
theorem prevNonblankLine_iff (h : src.take pos = [] ∨ (src.take pos).getLast? = some 10) :
    PrevCorrect src pos ↔
      (∃ line, (linesRead src pos).find? isNonblank = some line ∧
        bstrip line = lastNonblank (linesBefore src pos)) ∨
      (∀ line ∈ linesRead src pos, isBlankLine line = true) ∧ walkEnds src pos = true ∧
        (linesBefore src pos).countP isNonblank ≤ 1 := by
  rw [prevCorrect_iff_returned, prevNonblankLine_returns h]
  cases hfind : (linesRead src pos).find? isNonblank with
  | some found =>
    have hread := List.mem_of_find?_eq_some hfind
    have hfound := List.find?_some hfind
    simp only [Option.some.injEq, exists_eq_left', eq_comm (a := lastNonblank (linesBefore src pos))]
    refine ⟨.inl, fun hor => hor.resolve_right fun hall => ?_⟩
    rw [isNonblank, hall.1 found hread] at hfound
    cases hfound
  | none =>
    have hblank : ∀ line ∈ linesRead src pos, isBlankLine line = true := by
      simpa [isNonblank] using hfind
    have hjoin : src.take pos = joinLines (linesBefore src pos) := (joinLines_of_ended h).symm
    have hlines : ∀ l ∈ linesBefore src pos, 10 ∉ l := fun l hl => newline_not_mem_terminatedLines hl
    rw [hjoin, eq_comm (a := lastNonblank (linesBefore src pos)), bstrip_joinLines hlines]
    constructor
    · exact fun hends => .inr ⟨hblank, hends⟩
    · rintro (⟨line, hline, -⟩ | ⟨-, hends⟩)
      · cases hline
      · exact hends

end

/-- A pragma above two blank lines. -/
def spacedPragma : Bytes := ascii "int x;\n#pragma push\n\n\nvoid f(void) \x7b\x7d\n"

theorem spacedPragma_found : PrevCorrect spacedPragma 22 := by
  refine (prevNonblankLine_iff (.inr (by decide +kernel))).mpr (.inl ⟨ascii "#pragma push", ?_, ?_⟩) <;>
    decide +kernel

/-- A pragma above one blank line, with another line above it. -/
def missedPragma : Bytes := ascii "int x;\n#pragma push\n\nvoid f(void) \x7b\x7d\n"

/-- The pragma is not found, and from a blank first line the walk may not end at all. -/
theorem missedPragma_wrapped :
    lastNonblank (linesBefore missedPragma 21) = ascii "#pragma push" ∧
      prevNonblankLine missedPragma 3 21 = some (ascii "int x;") ∧
      pragmaWrapped missedPragma 3 21 36 = some false ∧ ¬PrevCorrect missedPragma 21 ∧
      ∀ fuel, prevNonblankLine (ascii "\nvoid f(void) \x7b\x7d") fuel 1 = none := by
  have hreturned : prevNonblankLine missedPragma 3 21 = some (ascii "int x;") := by decide +kernel
  refine ⟨by decide +kernel, hreturned, by decide +kernel, fun h => ?_, fun fuel => ?_⟩
  · rw [prevCorrect_iff_returned] at h
    have heq := (prevLoop_ends hreturned).mp h
    exact absurd heq (by decide +kernel)
  · rw [prevNonblankLine_start (.inr (by decide +kernel))]
    have hback : linesBefore (ascii "\nvoid f(void) \x7b\x7d") 1 =
      terminatedLines (ascii "\nvoid f(void) \x7b\x7d").dropLast := by decide +kernel
    rw [hback]
    exact prevLoop_diverges (by decide +kernel) (by decide +kernel) fuel

end MeleeHarness.SrcMutate
