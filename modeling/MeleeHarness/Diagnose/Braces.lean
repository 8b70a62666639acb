import MeleeHarness.Lib.Braces
import MeleeHarness.Sdata2Order.Install

/-!
# Two brace matchers

`find_matching_brace` of `tools/mwcc_diagnose.py` knows literals, that of
`tools/sdata2_order.py` literals and comments.

`matchers_agree_iff`: on C text, when both find the brace that closes the first one.
-/

namespace MeleeHarness.Diagnose

open Lib Lib.Braces

/-- The loop, at index `i` with the rest of the text. -/
def scanMatching : Option Char → Bool → Int → Nat → Text → Option Nat
  | _, _, _, _, [] => none
  | some quote, escaped, depth, i, c :: rest =>
    if escaped then scanMatching (some quote) false depth (i + 1) rest
    else if c = '\\' then scanMatching (some quote) true depth (i + 1) rest
    else if c = quote then scanMatching none escaped depth (i + 1) rest
    else scanMatching (some quote) escaped depth (i + 1) rest
  | none, escaped, depth, i, c :: rest =>
    if c = '"' ∨ c = '\'' then scanMatching (some c) escaped depth (i + 1) rest
    else if c = '{' then scanMatching none escaped (depth + 1) (i + 1) rest
    else if c = '}' then
      if depth - 1 = 0 then some i else scanMatching none escaped (depth - 1) (i + 1) rest
    else scanMatching none escaped depth (i + 1) rest

def findMatchingBrace (text : Text) (openIdx : Nat) : Option Nat :=
  scanMatching none false 0 openIdx (text.drop openIdx)

/-- The brace at `openIdx` is closed by the one at `closeIdx`, when the text is read with the
given rule for comments. -/
def Closes (rule : Comments) (text : Text) (openIdx closeIdx : Nat) : Prop :=
  ∃ front body back, text = front ++ '{' :: (body ++ '}' :: back) ∧ openIdx = front.length ∧
    closeIdx = front.length + 1 + body.length ∧ Within rule 0 body

theorem scanMatching_literal (quote : Char) (escaped : Bool) (depth : Int) (i : Nat) (rest : Text)
    (hcode : ∀ depth i t, t.length < rest.length →
      scanMatching none false depth i t = scanFrom false .code depth i t) :
    scanMatching (some quote) escaped depth i rest =
      scanFrom false (.literal quote escaped) depth i rest := by
  induction rest generalizing escaped i with
  | nil => simp [scanMatching, scanFrom]
  | cons c rest ih =>
    have ih' := fun escaped i => ih escaped i fun depth i t ht =>
      hcode depth i t (ht.trans (Nat.lt_succ_self _))
    rw [scanMatching, scanFrom]
    cases escaped <;> simp [ih', hcode]

theorem scanMatching_eq (depth : Int) (i : Nat) (rest : Text) :
    scanMatching none false depth i rest = scanFrom false .code depth i rest := by
  induction hn : rest.length using Nat.strong_induction_on generalizing depth i rest with
  | _ n ih =>
    subst hn
    cases rest with
    | nil => simp [scanMatching, scanFrom]
    | cons c rest =>
      have hcode := fun depth i => ih rest.length (by simp) depth i rest rfl
      have hliteral := scanMatching_literal c false depth (i + 1) rest fun depth i t ht =>
        ih t.length (by simp only [List.length_cons]; omega) depth i t rfl
      rw [scanMatching, scan_code (.inl rfl), hliteral]
      simp only [hcode, isQuote, Bool.or_eq_true, decide_eq_true_eq, or_comm]

def scanMode : Sdata2Order.ScanState → Mode
  | .code => .code
  | .lineComment => .line
  | .blockComment => .block
  | .string quote escaped => .literal quote escaped

theorem scanBrace_eq (st : Sdata2Order.ScanState) (depth : Int) (i : Nat) (rest : Text) :
    Sdata2Order.scanBrace st depth i rest = scanFrom true (scanMode st) depth i rest := by
  fun_induction Sdata2Order.scanBrace st depth i rest <;> simp_all [scanMode, scanFrom, isQuote]
  -- what is left is the end of a line comment
  split_ifs <;> rfl

/-- A matcher that scans by a rule finds the brace if and only if the text is closed there by
that rule. -/
theorem scan_closes_iff (comments : Bool) {front body back : Text} :
    scanFrom comments .code 0 front.length ('{' :: (body ++ '}' :: back)) =
        some (front.length + 1 + body.length) ↔
      Closes (ruleOf comments) (front ++ '{' :: (body ++ '}' :: back)) front.length
        (front.length + 1 + body.length) := by
  rw [scan_code (by simp [opensComment]), if_neg (by decide), if_pos rfl]
  refine (scanFrom_eq_iff comments 0 body (front.length + 1) back).trans ?_
  constructor
  · intro h
    exact ⟨front, body, back, rfl, rfl, rfl, h⟩
  · rintro ⟨front', body', back', htext, hopen, hclose, h⟩
    obtain ⟨rfl, hrest⟩ := List.append_inj htext hopen
    obtain ⟨rfl, -⟩ := List.append_inj (List.cons.inj hrest).2 (by omega)
    exact h

/-- **Two matchers.** Both find the brace that closes the first one in C text, if and only if
it also closes it when no comments are known, and when a line comment ends with its line. -/
theorem matchers_agree_iff {text : Text} {openIdx closeIdx : Nat}
    (h : Closes .spliced text openIdx closeIdx) :
    (findMatchingBrace text openIdx = some closeIdx ∧
        Sdata2Order.findMatchingBrace text openIdx = some closeIdx) ↔
      Closes .none text openIdx closeIdx ∧ Closes .plain text openIdx closeIdx := by
  obtain ⟨front, body, back, rfl, rfl, rfl, -⟩ := h
  rw [findMatchingBrace, Sdata2Order.findMatchingBrace, List.drop_left, scanMatching_eq, scanBrace_eq]
  exact and_congr (scan_closes_iff false) (scan_closes_iff true)

/-- A brace in a character literal. -/
theorem literal_brace_found :
    findMatchingBrace ['{', '\'', '}', '\'', '}'] 0 = some 4 ∧
      Sdata2Order.findMatchingBrace ['{', '\'', '}', '\'', '}'] 0 = some 4 := by
  have hcloses (rule : Comments) : Closes rule ['{', '\'', '}', '\'', '}'] 0 4 :=
    ⟨[], ['\'', '}', '\''], [], rfl, rfl, rfl,
      @Within.literal rule 0 '\'' ['}'] [] rfl rfl .nil⟩
  exact (matchers_agree_iff (hcloses .spliced)).2 ⟨hcloses .none, hcloses .plain⟩

/-- A brace in a comment is taken for the one that closes. -/
theorem comment_brace_mistaken :
    Closes .spliced "\x7b/*\x7d*/\x7d".toList 0 6 ∧
      findMatchingBrace "\x7b/*\x7d*/\x7d".toList 0 = some 3 ∧
      Sdata2Order.findMatchingBrace "\x7b/*\x7d*/\x7d".toList 0 = some 6 := by
  refine ⟨⟨[], "/*\x7d*/".toList, [], rfl, rfl, rfl, ?_⟩, by decide, by decide⟩
  exact @Within.block .spliced 0 ['}'] [] (by decide) rfl .nil

end MeleeHarness.Diagnose
