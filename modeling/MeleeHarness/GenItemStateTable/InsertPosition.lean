import MeleeHarness.Lib.Newlines

/-!
# Where a table is inserted

`find_insert_position` goes through the lines of a source text for one that looks like the start of
a function definition. What starts one is said here by the text's lexical structure: comments,
literals, directives and braces.

* `testLine_error`: the lines on which the search raises an exception;
* `findInsertPosition_correct_iff`: when the search finds the first definition.
-/

namespace MeleeHarness.GenItemStateTable

open Lib

inductive Raised where
  | indexError
  deriving DecidableEq, Repr

def typeKeywords : List Text :=
  ["void", "bool", "s32", "u32", "f32", "f64", "int", "char", "HSD_GObj*", "Item_GObj*"].map
    String.toList

/-- The lines that are passed over at once. -/
def skipped (stripped : Text) : Bool :=
  stripped = [] || stripped.head?.any (fun c => c = '#' || c = '/' || c = '*') ||
    "extern".toList.isPrefixOf stripped || "typedef".toList.isPrefixOf stripped

/-- `stripped.split("(")[0].split()[0] if "(" in stripped else ""` -/
def firstWord (stripped : Text) : Except Raised Text :=
  if '(' ∈ stripped then
    match words (stripped.takeWhile (· ≠ '(')) with
    | [] => .error .indexError
    | word :: _ => .ok word
  else .ok []

/-- There is a brace in front of the first semicolon, on the line or the next four. -/
def opensBody (stripped : Text) (following : List Text) : Bool :=
  let combined := stripped ++ (following.take 4).flatMap fun line => ' ' :: strip line
  '{' ∈ combined && combined.idxOf '{' < combined.idxOf ';'

/-- The body of the loop: is the table inserted in front of this line? -/
def testLine (line : Text) (following : List Text) : Except Raised Bool :=
  let stripped := strip line
  if skipped stripped then .ok false
  else do
    let firstWord ← firstWord stripped
    if firstWord ∉ typeKeywords then return false
    else return opensBody stripped following

def scanLines : Nat → List Text → Except Raised (Option Nat)
  | _, [] => .ok none
  | offset, line :: following => do
    if ← testLine line following then return some offset
    else scanLines (offset + line.length + 1) following

def findInsertPosition (source : Text) : Except Raised (Option Nat) :=
  scanLines 0 (source.splitOn '\n')

/-! ## Function definitions -/

/-- Where a line of C stands: nothing on it yet, in a directive, or neither. -/
inductive Place where
  | fresh
  | directive
  | code
  deriving DecidableEq, Repr

inductive Mode where
  | plain
  | lineComment
  | blockComment
  | literal (quote : Char)
  deriving DecidableEq, Repr

/-- The characters of a C text that are not white space, with their lines, without comments,
directives and the inside of literals. -/
def significant : Mode → Place → Nat → Text → List (Nat × Char)
  | _, _, _, [] => []
  | mode, place, n, '\\' :: '\n' :: rest => significant mode place (n + 1) rest
  | .plain, place, n, '/' :: '*' :: rest => significant .blockComment place n rest
  | .plain, place, n, '/' :: '/' :: rest => significant .lineComment place n rest
  | .blockComment, place, n, '*' :: '/' :: rest => significant .plain place n rest
  | .literal quote, place, n, '\\' :: _ :: rest => significant (.literal quote) place n rest
  | .blockComment, place, n, c :: rest =>
    significant .blockComment place (if c = '\n' then n + 1 else n) rest
  | mode, place, n, c :: rest =>
    if c = '\n' then significant .plain .fresh (n + 1) rest
    else
      match mode with
      | .literal quote => significant (if c = quote then .plain else mode) place n rest
      | .plain =>
        if isSpace c then significant .plain place n rest
        else
          let place := if place = .fresh then if c = '#' then .directive else .code else place
          let mode := if c = '"' ∨ c = '\'' then .literal c else .plain
          if place = .directive then significant mode place n rest
          else (n, c) :: significant mode place n rest
      | mode => significant mode place n rest

/-- How far a declaration at the top level has been read. -/
structure Declaration where
  begins : Option Nat
  last : Option Char
  initialized : Bool
  depth : Nat
  isFunction : Bool

def Declaration.start : Declaration := ⟨none, none, false, 0, false⟩

/-- The lines on which the definitions of functions begin: a declaration without an initializer,
with a brace directly behind a closing parenthesis. -/
def definitionLines : Declaration → List (Nat × Char) → List Nat
  | _, [] => []
  | d, (n, c) :: rest =>
    if d.depth = 0 then
      if c = ';' ∨ c = '}' then definitionLines .start rest
      else
        let begins := d.begins.getD n
        if c = '{' then
          if d.last = some ')' ∧ !d.initialized then
            begins :: definitionLines { d with depth := 1, isFunction := true } rest
          else definitionLines { d with begins := begins, depth := 1, isFunction := false } rest
        else
          definitionLines { d with
            begins := begins
            last := c
            initialized := d.initialized || c = '=' } rest
    else if c = '{' then definitionLines { d with depth := d.depth + 1 } rest
    else if c = '}' then
      if d.depth = 1 ∧ d.isFunction then definitionLines .start rest
      else definitionLines { d with depth := d.depth - 1, last := c } rest
    else definitionLines d rest

def functionLines (source : Text) : List Nat :=
  definitionLines .start (significant .plain .fresh 0 source)

/-- The search raises nothing; an offset it finds is that of the line on which the first function
begins, and without one there is no function. -/
def Correct (source : Text) : Prop :=
  ∃ found, findInsertPosition source = .ok found ∧
    match found with
    | some offset => ∃ n ∈ functionLines source, StartsLine source offset n ∧
        ∀ m ∈ functionLines source, n ≤ m
    | none => functionLines source = []

/-! ## The lines the search stops at -/

/-- What the search takes for the start of a definition. -/
def looksLikeFunction (line : Text) (following : List Text) : Bool :=
  let stripped := strip line
  !skipped stripped && '(' ∈ stripped &&
    (words (stripped.takeWhile (· ≠ '('))).head?.any (· ∈ typeKeywords) &&
      opensBody stripped following

theorem head_strip {t : Text} {c : Char} (h : (strip t).head? = some c) : isSpace c = false := by
  have hnot := List.head?_dropWhile_not isSpace (rstrip t)
  rwa [← lstrip, ← strip, h] at hnot

theorem nil_not_mem_typeKeywords : [] ∉ typeKeywords := by decide +kernel

/-- What the loop asks of a line that is not passed over at once. -/
theorem testLine_eq {line : Text} {following : List Text} (h : skipped (strip line) = false) :
    testLine line following = (firstWord (strip line)).map fun word =>
      decide (word ∈ typeKeywords) && opensBody (strip line) following := by
  simp only [testLine, h, Bool.false_eq_true, ite_false]
  cases firstWord (strip line) with
  | error => rfl
  | ok word =>
    by_cases hword : word ∈ typeKeywords
    · simp [hword, Except.map, bind, Except.bind, pure, Except.pure]
    · simp [hword, Except.map, bind, Except.bind, pure, Except.pure]

theorem testLine_skipped {line : Text} {following : List Text} (h : skipped (strip line) = true) :
    testLine line following = .ok false := by
  rw [testLine, if_pos h]

theorem skipped_paren (rest : Text) : skipped ('(' :: rest) = false := by
  rw [skipped, toList_literal (s := "extern") rfl, toList_literal (s := "typedef") rfl]
  rfl

/-- The search raises an exception on the lines that begin with a parenthesis. -/
theorem testLine_error {line : Text} {following : List Text} :
    testLine line following = .error .indexError ↔ (strip line).head? = some '(' := by
  have hspace := @head_strip line
  cases hskip : skipped (strip line) with
  | true =>
    rw [testLine_skipped hskip]
    refine ⟨nofun, fun hhead => ?_⟩
    obtain ⟨rest, hrest⟩ := List.head?_eq_some_iff.mp hhead
    rw [hrest, skipped_paren] at hskip
    cases hskip
  | false =>
    rw [testLine_eq hskip]
    generalize strip line = stripped at *
    cases stripped with
    | nil => exact ⟨nofun, nofun⟩
    | cons c rest =>
      by_cases hc : c = '('
      · subst hc
        exact ⟨fun _ => rfl, fun _ => rfl⟩
      · -- the word in front of the parenthesis has a first character
        have hne : words ((c :: rest).takeWhile (· ≠ '(')) ≠ [] := by
          rw [List.takeWhile_cons, if_pos (by simpa using hc)]
          exact words_ne_nil (hspace rfl)
        obtain ⟨word, others, hwords⟩ := List.exists_cons_of_ne_nil hne
        rw [List.head?_cons, Option.some.injEq, firstWord, hwords]
        constructor
        · intro h
          split at h <;> cases h
        · exact fun h => absurd h hc

theorem testLine_true {line : Text} {following : List Text} :
    testLine line following = .ok true ↔ looksLikeFunction line following = true := by
  cases hskip : skipped (strip line) with
  | true =>
    rw [testLine_skipped hskip, looksLikeFunction, hskip]
    simp
  | false =>
    rw [testLine_eq hskip, looksLikeFunction, hskip, firstWord]
    by_cases hparen : '(' ∈ strip line
    · rw [if_pos hparen]
      cases words ((strip line).takeWhile (· ≠ '(')) with
      | nil => simp [Except.map]
      | cons word rest => simp [Except.map, hparen]
    · rw [if_neg hparen]
      simp [Except.map, hparen, nil_not_mem_typeKeywords]

/-! ## The search -/

/-- Line `i` begins with a parenthesis. -/
def OpensParen (source : Text) (i : Nat) : Prop :=
  ∃ line, (source.splitOn '\n')[i]? = some line ∧ (strip line).head? = some '('

/-- Line `i` passes the search's test. -/
def Passes (source : Text) (i : Nat) : Prop :=
  ∃ line, (source.splitOn '\n')[i]? = some line ∧
    looksLikeFunction line ((source.splitOn '\n').drop (i + 1)) = true

/-- Up to the first definition, or anywhere if there is none, no line begins with a parenthesis and
no line passes the test but that of the definition. -/
def Recognized (source : Text) : Prop :=
  (∃ n ∈ functionLines source, (∀ m ∈ functionLines source, n ≤ m) ∧ Passes source n ∧
      ∀ i < n, ¬ OpensParen source i ∧ ¬ Passes source i) ∨
    functionLines source = [] ∧ ∀ i, ¬ OpensParen source i ∧ ¬ Passes source i

theorem scanLines_cons {offset : Nat} {line : Text} {following : List Text} :
    scanLines offset (line :: following) =
      (testLine line following).bind fun passes =>
        if passes then .ok (some offset) else scanLines (offset + line.length + 1) following := rfl

/-- The search returns the first line that passes, unless a line in front of it raises. -/
theorem scanLines_some {offset found : Nat} {lines : List Text} :
    scanLines offset lines = .ok (some found) ↔ ∃ i line, lines[i]? = some line ∧
      testLine line (lines.drop (i + 1)) = .ok true ∧
      (∀ k < i, ∀ line, lines[k]? = some line → testLine line (lines.drop (k + 1)) = .ok false) ∧
      found = offset + (unlines (lines.take i)).length := by
  induction lines generalizing offset with
  | nil => simp [scanLines]
  | cons line following ih =>
    -- a result behind the first line needs the first line to be passed over
    have first {i : Nat} (hi : i ≠ 0) (hbefore : ∀ k < i, ∀ l, (line :: following)[k]? = some l →
        testLine l ((line :: following).drop (k + 1)) = .ok false) :
        testLine line following = .ok false := hbefore 0 (by omega) line rfl
    rw [scanLines_cons]
    cases htest : testLine line following with
    | error =>
      refine ⟨nofun, ?_⟩
      rintro ⟨i, l, hl, hpass, hbefore, -⟩
      cases i with
      | zero =>
        obtain rfl := Option.some.inj hl
        rw [List.drop_one, List.tail_cons, htest] at hpass
        cases hpass
      | succ i =>
        have := first (Nat.succ_ne_zero i) hbefore
        rw [htest] at this
        cases this
    | ok passes =>
      cases passes with
      | true =>
        simp only [Except.bind, ite_true, Except.ok.injEq, Option.some.injEq]
        constructor
        · rintro rfl
          exact ⟨0, line, rfl, htest, by simp, rfl⟩
        · rintro ⟨i, l, -, -, hbefore, rfl⟩
          cases i with
          | zero => rfl
          | succ i =>
            have := first (Nat.succ_ne_zero i) hbefore
            rw [htest] at this
            cases this
      | false =>
        simp only [Except.bind, Bool.false_eq_true, ite_false]
        rw [ih]
        constructor
        · rintro ⟨i, l, hl, hpass, hbefore, rfl⟩
          refine ⟨i + 1, l, hl, hpass, ?_, ?_⟩
          · intro k hk l hl
            cases k with
            | zero =>
              obtain rfl := Option.some.inj hl
              exact htest
            | succ k => exact hbefore k (by omega) l hl
          · simp only [List.take_succ_cons, unlines, List.flatMap_cons, List.length_append,
              List.length_singleton]
            omega
        · rintro ⟨i, l, hl, hpass, hbefore, rfl⟩
          cases i with
          | zero =>
            obtain rfl := Option.some.inj hl
            rw [List.drop_one, List.tail_cons, htest] at hpass
            cases hpass
          | succ i =>
            refine ⟨i, l, hl, hpass, fun k hk => hbefore (k + 1) (by omega), ?_⟩
            simp only [List.take_succ_cons, unlines, List.flatMap_cons, List.length_append,
              List.length_singleton]
            omega

theorem scanLines_none {offset : Nat} {lines : List Text} :
    scanLines offset lines = .ok none ↔ ∀ (i : Nat) line, lines[i]? = some line →
      testLine line (lines.drop (i + 1)) = .ok false := by
  induction lines generalizing offset with
  | nil => simp [scanLines]
  | cons line following ih =>
    rw [scanLines_cons]
    cases htest : testLine line following with
    | error =>
      refine ⟨nofun, fun h => ?_⟩
      have := h 0 line rfl
      rw [List.drop_one, List.tail_cons, htest] at this
      cases this
    | ok passes =>
      cases passes with
      | true =>
        refine ⟨nofun, fun h => ?_⟩
        have := h 0 line rfl
        rw [List.drop_one, List.tail_cons, htest] at this
        cases this
      | false =>
        simp only [Except.bind, Bool.false_eq_true, ite_false]
        rw [ih]
        constructor
        · intro h i l hl
          cases i with
          | zero =>
            obtain rfl := Option.some.inj hl
            exact htest
          | succ i => exact h i l hl
        · exact fun h i => h (i + 1)

section
variable {source : Text}

theorem testLine_false {line : Text} {following : List Text} : testLine line following = .ok false ↔
    (strip line).head? ≠ some '(' ∧ looksLikeFunction line following ≠ true := by
  rw [Ne, Ne, ← testLine_true, ← @testLine_error line following]
  cases testLine line following with
  | error raised =>
    cases raised
    simp
  | ok passes => cases passes <;> simp

/-- The lines that are passed over. -/
theorem passed_iff {i : Nat} : ¬ OpensParen source i ∧ ¬ Passes source i ↔
    ∀ line, (source.splitOn '\n')[i]? = some line →
      testLine line ((source.splitOn '\n').drop (i + 1)) = .ok false := by
  constructor
  · rintro ⟨hparen, hpass⟩ line hline
    exact testLine_false.mpr ⟨fun h => hparen ⟨line, hline, h⟩, fun h => hpass ⟨line, hline, h⟩⟩
  · intro h
    refine ⟨?_, ?_⟩
    · rintro ⟨line, hline, hhead⟩
      exact (testLine_false.mp (h line hline)).1 hhead
    · rintro ⟨line, hline, hlooks⟩
      exact (testLine_false.mp (h line hline)).2 hlooks

/-- The search finds the first definition just when the definition is recognized and nothing in
front of it is taken for one. -/
theorem findInsertPosition_correct_iff : Correct source ↔ Recognized source := by
  constructor
  · rintro ⟨found, hfound, hcorrect⟩
    cases found with
    | none =>
      exact .inr ⟨hcorrect, fun i => passed_iff.mpr (scanLines_none.mp hfound i)⟩
    | some offset =>
      obtain ⟨n, hn, hstarts, hleast⟩ := hcorrect
      obtain ⟨i, line, hline, hpass, hbefore, hoffset⟩ := scanLines_some.mp hfound
      have hi : i < (source.splitOn '\n').length := (List.getElem?_eq_some_iff.mp hline).1
      -- the offset is where line `i` starts, so the definition begins there
      rw [Nat.zero_add, ← lineStart] at hoffset
      have hsame : n = i := by
        rw [← hstarts.newlines, hoffset, (startsLine_lineStart source hi).newlines]
      subst hsame
      exact .inl ⟨n, hn, hleast, ⟨line, hline, testLine_true.mp hpass⟩,
        fun k hk => passed_iff.mpr (hbefore k hk)⟩
  · rintro (⟨n, hn, hleast, ⟨line, hline, hlooks⟩, hbefore⟩ | ⟨hnil, hall⟩)
    · have hi : n < (source.splitOn '\n').length := (List.getElem?_eq_some_iff.mp hline).1
      refine ⟨some (lineStart source n), scanLines_some.mpr ⟨n, line, hline,
        testLine_true.mpr hlooks, fun k hk => passed_iff.mp (hbefore k hk), ?_⟩, n, hn,
        startsLine_lineStart source hi, hleast⟩
      rw [Nat.zero_add, lineStart]
    · exact ⟨none, scanLines_none.mpr fun i => passed_iff.mp (hall i), hnil⟩

/-- A text with a helper that orders constants. -/
def helperSource : Text :=
  "static void sdata2_order(void)\n\x7b\n    (void) 1.0f;\n\x7d\n\nvoid f(void)\n\x7b\n\x7d\n".toList

/-- The body of the helper has a line that begins with a parenthesis. -/
theorem helperSource_raises : ¬ Correct helperSource := by
  rintro ⟨found, hfound, -⟩
  have hok : (findInsertPosition helperSource).isOk = true := congrArg Except.isOk hfound
  revert hok
  decide +kernel

end

end MeleeHarness.GenItemStateTable
