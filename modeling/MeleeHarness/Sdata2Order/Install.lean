import MeleeHarness.Lib.Regex
import MeleeHarness.Lib.Splice

/-!
# Installing the helper that orders constants

`install_helper` takes the definitions of earlier helpers out of a source text and puts a
new block in the place of the first one. The definitions are found by their signature and
the brace that matches.

* `orderFunctionSpans_starting`: the spans come by where they start;
* `installHelper_eq`: when exactly the spans are removed.
-/

namespace MeleeHarness.Sdata2Order

open Lib

/-! ## Matching braces -/

inductive ScanState where
  | code
  | lineComment
  | blockComment
  | string (quote : Char) (escaped : Bool)
  deriving DecidableEq, Repr

/-- The loop of `find_matching_brace`, at index `i` with the rest of the text. -/
def scanBrace : ScanState → Int → Nat → Text → Option Nat
  | _, _, _, [] => none
  | .lineComment, depth, i, c :: rest =>
    scanBrace (if c = '\n' then .code else .lineComment) depth (i + 1) rest
  | .blockComment, depth, i, '*' :: '/' :: rest => scanBrace .code depth (i + 2) rest
  | .blockComment, depth, i, _ :: rest => scanBrace .blockComment depth (i + 1) rest
  | .string quote escaped, depth, i, c :: rest =>
    if escaped then scanBrace (.string quote false) depth (i + 1) rest
    else if c = '\\' then scanBrace (.string quote true) depth (i + 1) rest
    else if c = quote then scanBrace .code depth (i + 1) rest
    else scanBrace (.string quote false) depth (i + 1) rest
  | .code, depth, i, '/' :: '/' :: rest => scanBrace .lineComment depth (i + 2) rest
  | .code, depth, i, '/' :: '*' :: rest => scanBrace .blockComment depth (i + 2) rest
  | .code, depth, i, c :: rest =>
    if c = '\'' ∨ c = '"' then scanBrace (.string c false) depth (i + 1) rest
    else if c = '{' then scanBrace .code (depth + 1) (i + 1) rest
    else if c = '}' then
      if depth - 1 = 0 then some i else scanBrace .code (depth - 1) (i + 1) rest
    else scanBrace .code depth (i + 1) rest

def findMatchingBrace (text : Text) (openBrace : Nat) : Option Nat :=
  scanBrace .code 0 openBrace (text.drop openBrace)

/-! ## Spans -/

def blank (c : Char) : Bool := c = ' ' || c = '\t'

/-- Lines of white space behind `stop`; each takes one unit of fuel. -/
def skipBlankLines (text : Text) : Nat → Nat → Nat
  | 0, stop => stop
  | fuel + 1, stop =>
    let line := (text.drop stop).takeWhile (· ≠ '\n')
    if text.length ≤ stop ∨ strip line ≠ [] then stop
    else if stop + line.length < text.length then skipBlankLines text fuel (stop + line.length + 1)
    else skipBlankLines text fuel (stop + line.length)

def expandRemovalEnd (text : Text) (stop : Nat) : Nat :=
  let stop := stop + ((text.drop stop).takeWhile blank).length
  let stop := if text[stop]? = some '\n' then stop + 1 else stop
  skipBlankLines text (text.length + 1) stop

def typeStart (c : Char) : Bool := c.isAlpha || c = '_'

def typeChar (c : Char) : Bool := c.isAlphanum || c = '_' || isSpace c || c = '*'

def orderName : Regex :=
  .alt (.seq (.word "sdata2_order") (.opt (.word "ing")))
    (.seq (.word "order_sdata2") (.opt (.seq (.word "_") (.many1 Char.isDigit))))

/-- `ORDER_FUNC_RE`. -/
def orderFuncRe : Regex :=
  .seq .lineStart <| .seq (.many blank) <| .seq (.word "static") <| .seq (.many1 isSpace) <|
  .seq (.opt (.seq (.word "inline") (.many1 isSpace))) <|
  .seq (.one typeStart) <| .seq (.few typeChar) <| .seq .wordEdge <| .seq orderName <|
  .seq (.many isSpace) <| .seq (.one (· = '(')) <|
  .seq (.many fun c => !(c = ';' || c = '{' || c = '}')) <|
  .seq (.one (· = ')')) <| .seq (.many isSpace) (.one (· = '{'))

def orderFunctionSpans (text : Text) : List (Nat × Nat) :=
  (orderFuncRe.finditer text).filterMap fun span =>
    (findMatchingBrace text (span.2 - 1)).map fun closeBrace =>
      (span.1, expandRemovalEnd text (closeBrace + 1))

/-! ## The new text -/

/-- `(?m)^#include[^\n]*(?:\n|$)`. -/
def includeRe : Regex :=
  .seq .lineStart <| .seq (.word "#include") <| .seq (.many (· ≠ '\n')) <|
  .alt (.one (· = '\n')) .lineEnd

def insertionPoint (text : Text) : Nat :=
  match (includeRe.finditer text).getLast? with
  | some span => span.2 + ((text.drop span.2).takeWhile (· = '\n')).length
  | none => 0

def installHelper (text helper : Text) : Text × Bool :=
  let block := helper ++ ['\n']
  let spans := orderFunctionSpans text
  if spans = [] then
    let pos := insertionPoint text
    (text.take pos ++ block ++ text.drop pos, false)
  else
    (spans.reverse.zipIdx.foldl
      (fun out (span, i) =>
        if i = spans.length - 1 then out.take span.1 ++ block ++ out.drop span.2
        else out.take span.1 ++ out.drop span.2)
      text, true)

/-! ## Where spans lie -/

theorem scanBrace_range {st : ScanState} {depth : Int} {i j : Nat} {rest : Text}
    (h : scanBrace st depth i rest = some j) : i ≤ j ∧ j < i + rest.length := by
  fun_induction scanBrace st depth i rest <;> simp_all <;> omega

theorem findMatchingBrace_range {text : Text} {openBrace closeBrace : Nat}
    (hopen : openBrace ≤ text.length) (h : findMatchingBrace text openBrace = some closeBrace) :
    openBrace ≤ closeBrace ∧ closeBrace < text.length := by
  have hrange := scanBrace_range h
  simp only [List.length_drop] at hrange
  omega

theorem skipBlankLines_range {text : Text} {fuel stop : Nat} (hstop : stop ≤ text.length) :
    stop ≤ skipBlankLines text fuel stop ∧ skipBlankLines text fuel stop ≤ text.length := by
  induction fuel generalizing stop with
  | zero => exact ⟨le_rfl, hstop⟩
  | succ fuel ih =>
    have hline : ((text.drop stop).takeWhile (· ≠ '\n')).length ≤ text.length - stop := by
      rw [← List.length_drop]
      exact (List.takeWhile_prefix _).length_le
    rw [skipBlankLines]
    split_ifs with hblank hmore
    · exact ⟨le_rfl, hstop⟩
    · obtain ⟨hle, hsize⟩ := @ih (stop + ((text.drop stop).takeWhile (· ≠ '\n')).length + 1) (by omega)
      exact ⟨by omega, hsize⟩
    · obtain ⟨hle, hsize⟩ := @ih (stop + ((text.drop stop).takeWhile (· ≠ '\n')).length) (by omega)
      exact ⟨by omega, hsize⟩

theorem expandRemovalEnd_range {text : Text} {stop : Nat} (hstop : stop ≤ text.length) :
    stop ≤ expandRemovalEnd text stop ∧ expandRemovalEnd text stop ≤ text.length := by
  have hblank : ((text.drop stop).takeWhile blank).length ≤ text.length - stop := by
    rw [← List.length_drop]
    exact (List.takeWhile_prefix _).length_le
  rw [expandRemovalEnd]
  split_ifs with hnewline
  · have hlt := (List.getElem?_eq_some_iff.1 hnewline).1
    obtain ⟨hle, hsize⟩ := @skipBlankLines_range text (text.length + 1)
      (stop + ((text.drop stop).takeWhile blank).length + 1) (by omega)
    exact ⟨by omega, hsize⟩
  · obtain ⟨hle, hsize⟩ := @skipBlankLines_range text (text.length + 1)
      (stop + ((text.drop stop).takeWhile blank).length) (by omega)
    exact ⟨by omega, hsize⟩

/-- The spans come by where they start, and each takes something. -/
theorem orderFunctionSpans_starting (text : Text) :
    Starting text.length (orderFunctionSpans text) := by
  obtain ⟨hspaced, hrange⟩ := Regex.finditer_spaced orderFuncRe text
  have hpairwise : (orderFuncRe.finditer text).Pairwise fun a b => a.1 < b.1 := by
    refine hspaced.imp_of_mem ?_
    intro a b ha _ hab
    exact (hrange a ha).2.1.trans_le hab
  refine ⟨?_, ?_⟩
  · refine hpairwise.filterMap _ ?_
    intro a b hab a' ha' b' hb'
    obtain ⟨-, -, rfl⟩ := Option.map_eq_some_iff.1 ha'
    obtain ⟨-, -, rfl⟩ := Option.map_eq_some_iff.1 hb'
    exact hab
  · intro span hspan
    obtain ⟨found, hfound, hmap⟩ := List.mem_filterMap.1 hspan
    obtain ⟨closeBrace, hclose, rfl⟩ := Option.map_eq_some_iff.1 hmap
    obtain ⟨-, hlt, hsize⟩ := hrange found hfound
    obtain ⟨hopen, hend⟩ := findMatchingBrace_range (by omega) hclose
    obtain ⟨hle, hstop⟩ := @expandRemovalEnd_range text (closeBrace + 1) (by omega)
    exact ⟨by simp only; omega, hstop⟩

/-! ## What is removed -/

/-- The spans are taken out and the block stands where the first one started. -/
def replaced (text block : Text) : List (Nat × Nat) → Text
  | [] => text.take (insertionPoint text) ++ block ++ text.drop (insertionPoint text)
  | first :: spans =>
    (outside text (first :: spans)).take first.1 ++ block ++
      (outside text (first :: spans)).drop first.1

/-- The loop cuts the later spans, and puts the block in the place of the first one. -/
theorem foldl_cutAll (text block : Text) (first : Nat × Nat) (spans : List (Nat × Nat)) :
    (first :: spans).reverse.zipIdx.foldl
      (fun out (span, i) =>
        if i = (first :: spans).length - 1 then out.take span.1 ++ block ++ out.drop span.2
        else out.take span.1 ++ out.drop span.2) text =
      (cutAll text spans).take first.1 ++ block ++ (cutAll text spans).drop first.2 := by
  have hlater : ∀ later : List (Nat × Nat), later.length ≤ spans.length →
      later.reverse.zipIdx.foldl
        (fun out (span, i) =>
          if i = (first :: spans).length - 1 then out.take span.1 ++ block ++ out.drop span.2
          else out.take span.1 ++ out.drop span.2) text = cutAll text later := by
    intro later hlength
    induction later with
    | nil => rfl
    | cons span later ih =>
      have hlast : later.length ≠ spans.length := by
        simp only [List.length_cons] at hlength
        omega
      rw [List.reverse_cons, List.zipIdx_append, List.foldl_append,
        ih (by simp only [List.length_cons] at hlength; omega)]
      simp [hlast, cutAll]
  rw [List.reverse_cons, List.zipIdx_append, List.foldl_append, hlater spans le_rfl]
  simp

/-- **Installing the helper.** Exactly the spans are removed, and the block stands in the
place of the first, if and only if no span starts before the one before it ends, up to one
behind which nothing is left over. -/
theorem installHelper_eq (text helper : Text) :
    (installHelper text helper).1 = replaced text (helper ++ ['\n']) (orderFunctionSpans text) ↔
      Apart text.length (orderFunctionSpans text) := by
  have hstarting := orderFunctionSpans_starting text
  rw [installHelper]
  cases hspans : orderFunctionSpans text with
  | nil => simp [replaced, Apart]
  | cons first spans =>
    obtain ⟨start, stop⟩ := first
    rw [hspans] at hstarting
    obtain ⟨hspan, hsize⟩ : start < stop ∧ stop ≤ text.length :=
      hstarting.2 (start, stop) List.mem_cons_self
    have hoff : outside text ((start, stop) :: spans) =
        text.take start ++ outsideFrom text stop spans := by
      have hbefore := @outsideFrom_before _ text 0 start ((start, stop) :: spans) (Nat.zero_le _)
        (by omega) ?_
      · rw [outsideFrom_cons hspan.le hsize] at hbefore
        exact hbefore
      · intro span hmem
        rcases List.mem_cons.1 hmem with rfl | hmem
        · exact le_rfl
        · exact ((List.pairwise_cons.1 hstarting.1).1 span hmem).le
    have htake : (cutAll text spans).take start = text.take start := by
      apply take_cutAll
      · exact fun span hmem => (hstarting.tail.2 span hmem).1.le
      · exact fun span hmem => ((List.pairwise_cons.1 hstarting.1).1 span hmem).le
    have hlength : (text.take start).length = start := by
      simp
      omega
    simp only [List.cons_ne_nil, ↓reduceIte]
    rw [foldl_cutAll, replaced, hoff, htake, List.take_left' hlength, List.drop_left' hlength,
      List.append_right_inj]
    exact (drop_cutAll hstarting).2

/-- An old helper whose body has another one in a comment. -/
def nested : Text :=
  "static int sdata2_order() \x7b/*\nstatic int order_sdata2() \x7b\x7d\n*/\x7d\nint x;\n".toList

/-- What stands behind the outer helper is lost. -/
theorem nested_loses_text :
    (installHelper nested []).1 ≠ replaced nested ['\n'] (orderFunctionSpans nested) := by
  have hspans : orderFunctionSpans nested = [(0, 63), (30, 59)] := by decide +kernel
  have hinstall : (installHelper nested []).1 = ['\n'] := by decide +kernel
  rw [hspans, hinstall]
  decide +kernel

end MeleeHarness.Sdata2Order
