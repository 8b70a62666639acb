import MeleeHarness.Lib.C.Evaluate
import MeleeHarness.SrcMutate.Operators
import MeleeHarness.SrcMutate.Tree

/-!
# Conditions

`p_condition` writes a comparison with zero out, or leaves it out. What is appended to a
condition goes with its last operand.

* `tests_withNotZero`: that does no harm if only `,`, `?:`, `&&` and `||` stand between
  the operand and the whole;
* `condition_tests`: all other rewrites keep the truth value and the state.
-/

namespace MeleeHarness.SrcMutate

open Lib Lib.C

def zero : Element := .token (.literal (.int 0))

/-- ` op 0` -/
def comparedWithZero (op : ArithOp) : List Element :=
  [.white ' ', .token (.binary (.arith op)), .white ' ', zero]

def parenArg (e : Expr) (text : List Element) : List Element :=
  if nodeType e ∈ [.identifier, .parenthesizedExpression, .callExpression, .fieldExpression] then text
  else .token .lparen :: (text ++ [.token .rparen])

def compareOps : List BinaryOp :=
  commOps.map .arith ++ [.arith .lt, .arith .gt, .arith .le, .arith .ge] ++ [.logAnd, .logOr]

/-- What is written in the place of a condition. -/
def conditionEdit (inner : Expr) (text : List Element) : Option (List Element) :=
  match inner with
  | .node (.binary op) [a, b] =>
    match parts [a.print.length, 1, b.print.length] text with
    | [l, _, r] =>
      if op = .arith .ne ∧ r.text = [zero] then some l.text
      else if op = .arith .eq ∧ r.text = [zero] then some (.token .bang :: parenArg a l.text)
      else if op ∈ compareOps then none
      else some (text ++ comparedWithZero .ne)
    | _ => none
  | .node (.unary .not) [a] =>
    match parts [1, a.print.length] text with
    | [_, arg] => some (arg.text ++ comparedWithZero .eq)
    | _ => none
  | _ => some (text ++ comparedWithZero .ne)

/-- The first comment of a gap. -/
def splitComment : List Element → Option (List Element × Element × List Element)
  | [] => none
  | .comment body :: rest => some ([], .comment body, rest)
  | x :: rest => (splitComment rest).map fun (pre, c, post) => (x :: pre, c, post)

/-- The site is the expression between the parentheses of an `if`, `while` or `do`. Of
the named children of the parentheses the first is taken, be it a comment. -/
def pCondition (site : Site) : Option (List Element) :=
  match splitComment site.before with
  | some (pre, c, post) =>
    some (pre ++ c :: (comparedWithZero .ne ++ post ++ site.text ++ site.after))
  | none => (conditionEdit site.expr site.text).map site.edited

/-! ## What is appended -/

/-- The condition is one that ` != 0` is appended to. -/
def wraps : Expr → Bool
  | .node (.binary op) [_, _] => op ∉ compareOps
  | .node (.unary .not) [_] => false
  | _ => true

/-- The tree of a condition with ` != 0` behind it. -/
def withNotZero : Expr → Expr
  | .node .comma [a, b] => .node .comma [a, withNotZero b]
  | .node .conditional [c, a, b] => .node .conditional [c, a, withNotZero b]
  | .node (.binary .logAnd) [a, b] => .node (.binary .logAnd) [a, withNotZero b]
  | .node (.binary .logOr) [a, b] => .node (.binary .logOr) [a, withNotZero b]
  | e => .node (.binary (.arith .ne)) [e, .val (.int 0)]

/-- The last operand of `,`, `?:`, `&&` and `||`, and so on down, binds at least as
tightly as `!=`. -/
def endsTight : Expr → Bool
  | .node .comma [_, b] | .node .conditional [_, _, b] | .node (.binary .logAnd) [_, b]
  | .node (.binary .logOr) [_, b] => endsTight b
  | e => (BinaryOp.arith .ne).level ≤ e.level

theorem withNotZero_print (e : Expr) :
    (withNotZero e).print = e.print ++ [.binary (.arith .ne), .literal (.int 0)] := by
  fun_induction withNotZero e with
  | case1 a b ih | case3 a b ih | case4 a b ih =>
    simp [Expr.print, Expr.printAll, Kind.arrange, ih]
  | case2 c a b ih => simp [Expr.print, Expr.printAll, Kind.arrange, ih]
  | case5 e => rfl

theorem withNotZero_level {m : Nat} {e : Expr} (h : m ≤ e.level)
    (hm : m ≤ (BinaryOp.arith .ne).level) : m ≤ (withNotZero e).level := by
  fun_cases withNotZero e with
  | case1 | case2 | case3 | case4 => exact h
  | case5 => exact hm

theorem withNotZero_written {e : Expr} (h : e.written = true) (htight : endsTight e = true) :
    (withNotZero e).written = true := by
  fun_induction withNotZero e with
  | case1 a b ih | case3 a b ih | case4 a b ih =>
    rw [endsTight] at htight
    rw [written_two] at h ⊢
    exact ⟨h.1, h.2.1, withNotZero_level h.2.2.1 (by decide), ih h.2.2.2 htight⟩
  | case2 c a b ih =>
    rw [endsTight] at htight
    rw [written_three] at h ⊢
    exact ⟨h.1, h.2.1, h.2.2.1, withNotZero_level h.2.2.2.1 (by decide), ih h.2.2.2.2 htight⟩
  | case5 e hcomma hcond hand hor =>
    have hlevel : (BinaryOp.arith .ne).level ≤ e.level := by
      rw [endsTight] at htight
      · exact of_decide_eq_true htight
      all_goals assumption
    rw [written_binary]
    exact ⟨⟨hlevel, h⟩, (by decide : (9 : Nat) < 17), rfl⟩

/-- What is appended to a condition does not change its truth value. -/
theorem tests_withNotZero {M : Machine} (hM : M.Truthful) (e : Expr) {s s' : State} {t : Bool} :
    Tests M (withNotZero e) s t s' ↔ Tests M e s t s' := by
  fun_induction withNotZero e generalizing s with
  | case1 a b ih => simp only [tests_comma_iff, ih]
  | case2 c a b ih =>
    simp only [tests_conditional_iff]
    refine exists_congr fun r => exists_congr fun s₁ => and_congr_right fun _ => ?_
    cases r with
    | true => exact Iff.rfl
    | false => exact ih
  | case3 a b ih => simp only [tests_logAnd_iff hM, ih]
  | case4 a b ih => simp only [tests_logOr_iff hM, ih]
  | case5 e => exact tests_ne_zero_iff hM

/-! ## The condition in its parentheses -/

/-- The frame of an expression in parentheses. -/
def parens : Frame := ⟨.parenthesized, [], []⟩

section
variable {site : Site} {new : List Element} {e : Expr}

theorem enclosed_tokens (h : site.parents = [parens]) :
    tokens site.before = [.lparen] ∧ tokens site.after = [.rparen] := by
  have hname := site.surrounds (.ident [])
  rw [h] at hname
  change [Token.lparen, .name [], .rparen] = tokens site.before ++ [.name []] ++ tokens site.after at hname
  match hbefore : tokens site.before, hname with
  | [], hname => cases hname
  | [_], hname =>
    simp only [List.cons_append, List.nil_append, List.cons.injEq, true_and] at hname
    exact ⟨by rw [hname.1], hname.2.symm⟩
  | [_, _], hname => simp at hname
  | _ :: _ :: _ :: _, hname => simp at hname

/-- Anything that ends like an expression may stand in parentheses. -/
theorem enclosed_apart (h : site.parents = [parens]) (hnew : Apart new)
    (hlast : ∃ rest t, new = rest ++ [.token t] ∧ t.ends = true) :
    Apart (site.head ++ site.edited new ++ site.tail) := by
  obtain ⟨hbefore, hafter⟩ := enclosed_tokens h
  obtain ⟨rest, t, hsplit, ht⟩ := hlast
  have hne : new ≠ [] := by simp [hsplit]
  apply Site.apart_between hne hnew
  · intro x hx y _
    rw [last_append (by simp [hbefore])] at hx
    cases x with
    | token u =>
      have hu := token_mem (List.mem_of_getLast? hx)
      rw [hbefore, List.mem_singleton] at hu
      rw [hu]
      exact apart_lparen y
    | white | comment => rfl
  · intro x hx y hy
    rw [head_append (by simp [hafter])] at hy
    rw [hsplit, List.getLast?_concat] at hx
    obtain rfl := Option.some.inj hx
    cases y with
    | token u =>
      have hu := token_mem (List.mem_of_head? hy)
      rw [hafter, List.mem_singleton] at hu
      rw [hu, Element.apart, fuses_rparen ht]
      rfl
    | white => rfl
    | comment =>
      rw [Element.apart, decide_eq_true_eq]
      rintro rfl
      cases ht

theorem reads_enclosed (h : site.parents = [parens]) (hspelled : tokens new = e.print)
    (hwritten : e.written = true) (hapart : Apart (site.head ++ site.edited new ++ site.tail)) :
    site.ReadsAs new (.node .parenthesized [e]) where
  written := written_parenthesized.mpr hwritten
  spelled := by
    obtain ⟨hbefore, hafter⟩ := enclosed_tokens h
    rw [Site.edited, tokens_append, tokens_append, hbefore, hafter, hspelled]
    rfl
  apart := hapart

/-- The new text reads as a condition of the same truth value. -/
def SameTest (site : Site) (new : List Element) : Prop :=
  ∃ e, Reads site.head new site.tail (.node .parenthesized [e]) ∧
    ∀ M : Machine, M.Truthful → ∀ s t s', Tests M e s t s' ↔ Tests M site.expr s t s'

theorem append_tests (h : site.parents = [parens]) (htight : endsTight site.expr = true) :
    SameTest site (site.edited (site.text ++ comparedWithZero .ne)) := by
  have hwritten := site.expr_written.2
  refine ⟨withNotZero site.expr, reads_enclosed h ?_ (withNotZero_written hwritten htight)
    (enclosed_apart h ?_ ?_), fun M hM s t s' => tests_withNotZero hM site.expr⟩
  · rw [withNotZero_print, tokens_append, site.spelled]
    rfl
  · have hzero : Apart [zero] := .singleton _
    have hspaced := apart_spaced site.apart_text (.binary (.arith .ne)) hzero
    simpa [comparedWithZero] using hspaced
  · exact ⟨site.text ++ [.white ' ', .token (.binary (.arith .ne)), .white ' '], .literal (.int 0),
      by simp [comparedWithZero, zero], rfl⟩

/-- The operand that is compared with zero, in the text. -/
theorem compared_operands {op : ArithOp} {a b : Expr}
    (h : site.expr = .node (.binary (.arith op)) [a, b]) {l g' r : List Element}
    {o : Part} (hparts : parts [a.print.length, 1, b.print.length] site.text =
      [⟨[], l⟩, o, ⟨g', r⟩]) (hr : r = [zero]) :
    b = .val (.int 0) ∧ a.written = true ∧ tokens l = a.print ∧ Tight l ∧ Apart l := by
  obtain ⟨l', g, g'', r', hparts', htext, ⟨hl, hlt⟩, ⟨hrt, -⟩, -, -⟩ :=
    Site.joined (t := .binary (.arith op)) h rfl
  rw [hparts] at hparts'
  simp only [List.cons.injEq, C.Part.mk.injEq, true_and, and_true] at hparts'
  obtain ⟨rfl, -, -, rfl⟩ := hparts'
  have hwritten := h ▸ site.expr_written.2
  rw [written_binary] at hwritten
  have hapart := site.apart_text
  rw [htext, apart_append] at hapart
  refine ⟨print_inj hwritten.2.2 rfl ?_, hwritten.1.2, hl, hlt, hapart.1⟩
  rw [← hrt, hr]
  rfl

theorem ends_of_spelled {l : List Element} {a : Expr} (hl : tokens l = a.print) (hlt : Tight l)
    (ha : a.written = true) : ∃ rest t, l = rest ++ [.token t] ∧ t.ends = true := by
  obtain ⟨ts, t, hprint, ht⟩ := print_ends ha
  obtain ⟨rest, hrest, -⟩ := hlt.last_eq (hl.trans hprint)
  exact ⟨rest, t, hrest, ht⟩

theorem unwrap_tests (h : site.parents = [parens]) {a b : Expr}
    (hexpr : site.expr = .node (.binary (.arith .ne)) [a, b]) {l g' : List Element} {o : Part}
    (hparts : parts [a.print.length, 1, b.print.length] site.text =
      [⟨[], l⟩, o, ⟨g', [zero]⟩]) : SameTest site (site.edited l) := by
  obtain ⟨rfl, ha, hl, hlt, hapart⟩ := compared_operands hexpr hparts rfl
  refine ⟨a, reads_enclosed h hl ha (enclosed_apart h hapart (ends_of_spelled hl hlt ha)), ?_⟩
  intro M hM s t s'
  rw [hexpr]
  exact (tests_ne_zero_iff hM).symm

theorem bare_level {a : Expr} (h : nodeType a ∈
    [.identifier, .parenthesizedExpression, .callExpression, .fieldExpression]) :
    Level.postfixed ≤ a.level := by
  have hprimary : Level.postfixed ≤ Level.primary := by decide
  cases a with
  | val => simp [nodeType] at h
  | ident => exact hprimary
  | node k children =>
    cases k with
    | parenthesized => exact hprimary
    | call | field | arrow => exact Nat.le_refl Level.postfixed
    | unary | binary | conditional | comma | assignment | update | addressOf | deref | subscript
    | cast | sizeof => simp [nodeType, kindType] at h

theorem fuses_bang {t : Token} (h : t.starts = true) : Token.bang.fuses t = false := by
  cases t with
  | binary op =>
    cases op with
    | arith op => cases op <;> first | rfl | cases h
    | logAnd | logOr => cases h
  | update op => cases op <;> rfl
  | literal | name | sizeofType | lparen | tilde | bang | sizeof => rfl
  | keyword | type | rparen | lbracket | rbracket | lbrace | rbrace | semicolon | dot | arrow
  | comma | question | colon | assign => cases h

/-- What `parenArg` makes of an operand binds tightly enough for `!`. -/
theorem parenArg_reads {a : Expr} {l : List Element} (hl : tokens l = a.print) (hlt : Tight l)
    (ha : a.written = true) (hapart : Apart l) :
    ∃ a', tokens (parenArg a l) = a'.print ∧ a'.written = true ∧ Level.cast ≤ a'.level ∧
      Apart (.token .bang :: parenArg a l) ∧
      (∃ rest t, parenArg a l = rest ++ [.token t] ∧ t.ends = true) ∧
      ∀ (M : Machine) s t s', Tests M a' s t s' ↔ Tests M a s t s' := by
  by_cases hbare : nodeType a ∈
      [.identifier, .parenthesizedExpression, .callExpression, .fieldExpression]
  · rw [parenArg, if_pos hbare]
    refine ⟨a, hl, ha, (by decide : Level.cast ≤ Level.postfixed).trans (bare_level hbare), ?_, ends_of_spelled hl hlt ha, fun _ _ _ _ => Iff.rfl⟩
    obtain ⟨t, ts, hprint, ht⟩ := print_starts ha
    obtain ⟨rest, rfl, -⟩ := hlt.head_eq (hl.trans hprint)
    rw [apart_cons]
    refine ⟨?_, hapart⟩
    intro y hy
    obtain rfl := Option.some.inj hy
    rw [Element.apart, fuses_bang ht]
    rfl
  · rw [parenArg, if_neg hbare]
    refine ⟨.node .parenthesized [a], ?_, written_parenthesized.mpr ha,
      (by decide : Level.cast ≤ Level.primary), ?_, ?_,
      fun _ _ _ _ => tests_parenthesized_iff⟩
    · rw [tokens_token, tokens_append, hl]
      rfl
    · rw [apart_cons]
      refine ⟨?_, apart_parenthesized hapart hlt hl ha⟩
      intro y hy
      obtain rfl := Option.some.inj hy
      rfl
    · exact ⟨.token .lparen :: l, .rparen, rfl, rfl⟩

theorem negate_tests (h : site.parents = [parens]) {a b : Expr}
    (hexpr : site.expr = .node (.binary (.arith .eq)) [a, b]) {l g' : List Element} {o : Part}
    (hparts : parts [a.print.length, 1, b.print.length] site.text =
      [⟨[], l⟩, o, ⟨g', [zero]⟩]) :
    SameTest site (site.edited (.token .bang :: parenArg a l)) := by
  obtain ⟨rfl, ha, hl, hlt, hapart⟩ := compared_operands hexpr hparts rfl
  obtain ⟨a', hprint, hwritten, hlevel, hbang, ⟨rest, t, hends, ht⟩, htests⟩ :=
    parenArg_reads hl hlt ha hapart
  refine ⟨.node (.unary .not) [a'], reads_enclosed h ?_ (written_one.mpr ⟨rfl, hlevel, hwritten⟩)
    (enclosed_apart h hbang ⟨.token .bang :: rest, t, by rw [hends]; rfl, ht⟩), ?_⟩
  · rw [tokens_token, hprint]
    rfl
  · intro M hM s t s'
    rw [hexpr, tests_not_iff hM, htests, tests_eq_zero_iff hM]

theorem unnegate_tests (h : site.parents = [parens]) {a : Expr}
    (hexpr : site.expr = .node (.unary .not) [a]) {r : List Element} {o : Part} {g : List Element}
    (hparts : parts [1, a.print.length] site.text = [o, ⟨g, r⟩]) :
    SameTest site (site.edited (r ++ comparedWithZero .eq)) := by
  obtain ⟨g', r', hparts', htext, hr, hrt, -⟩ := Site.prefixed (t := .bang) hexpr rfl
  rw [hparts] at hparts'
  simp only [List.cons.injEq, C.Part.mk.injEq, and_true] at hparts'
  obtain ⟨-, -, rfl⟩ := hparts'
  have hwritten := hexpr ▸ site.expr_written.2
  rw [written_one] at hwritten
  have hapart := site.apart_text
  rw [htext, apart_cons, apart_append] at hapart
  refine ⟨.node (.binary (.arith .eq)) [a, .val (.int 0)], reads_enclosed h ?_ ?_
    (enclosed_apart h ?_ ?_), ?_⟩
  · rw [tokens_append, hr]
    rfl
  · rw [written_binary]
    exact ⟨⟨le_trans (by decide) hwritten.2.1, hwritten.2.2⟩, (by decide : (9 : Nat) < 17), rfl⟩
  · have hzero : Apart [zero] := .singleton _
    have hspaced := apart_spaced hapart.2.2.1 (.binary (.arith .eq)) hzero
    simpa [comparedWithZero] using hspaced
  · exact ⟨r ++ [.white ' ', .token (.binary (.arith .eq)), .white ' '], .literal (.int 0),
      by simp [comparedWithZero, zero], rfl⟩
  · intro M hM s t s'
    rw [hexpr, tests_not_iff hM, tests_eq_zero_iff hM]

end

/-- **Conditions.** With no comment before it in the parentheses, and with an operand at
its end that binds tightly enough where ` != 0` is appended, the new condition has the
truth value of the old one and leaves the same state. -/
theorem condition_tests (site : Site) {new : List Element} (hparens : site.parents = [parens])
    (h : pCondition site = some new) (hcomment : splitComment site.before = none)
    (htight : wraps site.expr = true → endsTight site.expr = true) :
    ∃ e, Reads site.head new site.tail (.node .parenthesized [e]) ∧
      ∀ M : Machine, M.Truthful → ∀ s t s', Tests M e s t s' ↔ Tests M site.expr s t s' := by
  change SameTest site new
  rw [pCondition, hcomment] at h
  obtain ⟨text, hedit, rfl⟩ := Option.map_eq_some_iff.mp h
  unfold conditionEdit at hedit
  split at hedit
  · rename_i op a b hexpr
    obtain ⟨l, g, g', r, hparts, -⟩ := Site.joined (t := .binary op) hexpr rfl
    simp only [hparts] at hedit
    by_cases hne : op = .arith .ne ∧ r = [zero]
    · rw [if_pos hne] at hedit
      obtain ⟨rfl, rfl⟩ := hne
      cases hedit
      exact unwrap_tests hparens hexpr hparts
    · rw [if_neg hne] at hedit
      by_cases heq : op = .arith .eq ∧ r = [zero]
      · rw [if_pos heq] at hedit
        obtain ⟨rfl, rfl⟩ := heq
        cases hedit
        exact negate_tests hparens hexpr hparts
      · rw [if_neg heq] at hedit
        by_cases hskip : op ∈ compareOps
        · rw [if_pos hskip] at hedit
          cases hedit
        · rw [if_neg hskip] at hedit
          cases hedit
          refine append_tests hparens (htight ?_)
          rw [hexpr]
          exact decide_eq_true hskip
  · rename_i a hexpr
    obtain ⟨g, r, hparts, -⟩ := Site.prefixed (t := .bang) hexpr rfl
    simp only [hparts] at hedit
    cases hedit
    exact unnegate_tests hparens hexpr hparts
  · rename_i hbinary hnot
    cases hedit
    refine append_tests hparens (htight ?_)
    unfold wraps
    split
    · rename_i op a b hexpr
      exact absurd hexpr (hbinary op a b)
    · rename_i a hexpr
      exact absurd hexpr (hnot a)
    · rfl

/-- `if (c ? p : q)` -/
def choiceSite : Site where
  head := [.token (.keyword ['i', 'f']), .white ' ']
  before := [.token .lparen]
  text := spaced [.name ['c'], .question, .name ['p'], .colon, .name ['q']]
  after := [.token .rparen]
  tail := []
  parents := [parens]
  expr := .node .conditional [.ident ['c'], .ident ['p'], .ident ['q']]
  written := by decide
  surrounds := fun _ => rfl
  spelled := rfl
  tight := by constructor <;> decide
  apart := by decide

theorem choice_tests : ∃ e, Reads choiceSite.head
      (choiceSite.edited (choiceSite.text ++ comparedWithZero .ne)) choiceSite.tail
      (.node .parenthesized [e]) ∧
    ∀ M : Machine, M.Truthful → ∀ s t s', Tests M e s t s' ↔ Tests M choiceSite.expr s t s' :=
  condition_tests choiceSite rfl rfl rfl fun _ => rfl

/-- Any value may be compared with zero. -/
def comparingMachine : Machine :=
  { plainMachine noGlobals with
    unary := fun op v =>
      match op with
      | .not => (plainTruth v).map fun t => .int (if t then 0 else 1)
      | op => plainUnary op v
    binary := fun op v w =>
      match op, w with
      | .ne, .int 0 => (plainTruth v).map fun t => .int (if t then 1 else 0)
      | .eq, .int 0 => (plainTruth v).map fun t => .int (if t then 0 else 1)
      | op, w => plainBinary op v w }

theorem comparingMachine_truthful : comparingMachine.Truthful where
  one := rfl
  zero := rfl
  ne_zero v := by
    change ((plainTruth v).map _).bind plainTruth = plainTruth v
    cases plainTruth v with
    | none => rfl
    | some t => cases t <;> rfl
  eq_zero v := by
    change ((plainTruth v).map _).bind plainTruth = (plainTruth v).map _
    cases plainTruth v with
    | none => rfl
    | some t => cases t <;> rfl
  not v := by
    change ((plainTruth v).map _).bind plainTruth = (plainTruth v).map _
    cases plainTruth v with
    | none => rfl
    | some t => cases t <;> rfl

/-- `if (a = b)` -/
def storeSite : Site where
  head := [.token (.keyword ['i', 'f']), .white ' ']
  before := [.token .lparen]
  text := spaced [.name ['a'], .assign none, .name ['b']]
  after := [.token .rparen]
  tail := []
  parents := [parens]
  expr := .node (.assignment none) [.ident ['a'], .ident ['b']]
  written := by decide
  surrounds := fun _ => rfl
  spelled := rfl
  tight := by constructor <;> decide
  apart := by decide

/-- The state in which `a` is as given and `b` is 5. -/
def storeState (a : Int) : State where
  locals := [[(['a'], .reg ⟨"int".toList, Function.update (fun _ => none) 0 (some (.int a))⟩),
    (['b'], .reg (scalar "int" (.int 5)))]]
  mem _ := none

theorem storeState_stored (n : Int) : (⟨[[(['a'], .reg ⟨"int".toList, Function.update
    (Function.update (fun _ => none) 0 (some (.int 0))) 0 (some (.int n))⟩),
    (['b'], .reg (scalar "int" (.int 5)))]], (storeState 0).mem⟩ : State) = storeState n := by
  rw [Function.update_idem]
  rfl

theorem store_steps : Tests comparingMachine storeSite.expr (storeState 0) true (storeState 5) := by
  have hb : Step comparingMachine .value (.ident ['b']) (storeState 0) (.val (.int 5))
      (storeState 0) := .read rfl rfl
  have hstore : Step comparingMachine .value
      (.node (.assignment none) [.ident ['a'], .val (.int 5)]) (storeState 0) (.val (.int 5))
      (storeState 5) := by
    rw [← storeState_stored 5]
    exact .reduce rfl
  exact ⟨.int 5, steps_head (step_second rfl hb) (.single hstore), rfl⟩

theorem store_compared {t : Bool} {s' : State} (h : Tests comparingMachine
    (.node (.assignment none) [.ident ['a'],
      .node (.binary (.arith .ne)) [.ident ['b'], .val (.int 0)]]) (storeState 0) t s') :
    s' = storeState 1 := by
  obtain ⟨u, hsteps, -⟩ := h
  have honly : Only comparingMachine (.assignment none) [.ident ['a']] [] := by
    refine ⟨rfl, ?_, fun _ _ => rfl, by simp⟩
    intro b i d hi _ hget
    match i with
    | 0 =>
      obtain rfl := Option.some.inj hget
      exact idle_ident _
    | 1 => exact absurd rfl hi
  obtain ⟨r, s₁, e₂, s₂, hr, hred, hafter⟩ := (steps_only_iff honly).mp hsteps
  obtain ⟨v, hv, hred⟩ := Option.bind_eq_some_iff.mp hred
  rw [val?_eq_some] at hv
  subst hv
  obtain ⟨w, hw, hne⟩ := steps_literal_iff.mp hr
  obtain ⟨rfl, p, hplace, hload⟩ := steps_ident_iff.mp hw
  cases hplace
  cases hload
  cases hne
  cases hred
  obtain ⟨-, rfl⟩ := steps_val_iff.mp hafter
  exact storeState_stored 1

/-- Of `a = b` the comparison is stored: `if (a = b != 0)` stores 1, not 5. -/
theorem assigned_comparison : ∃ site new, site.parents = [parens] ∧ pCondition site = some new ∧
    ¬∃ e, Reads site.head new site.tail (.node .parenthesized [e]) ∧
      ∀ M : Machine, M.Truthful → ∀ s t s', Tests M e s t s' ↔ Tests M site.expr s t s' := by
  refine ⟨storeSite, storeSite.edited (storeSite.text ++ comparedWithZero .ne), rfl, rfl, ?_⟩
  rintro ⟨e, hreads, hsame⟩
  have hstored : Reads storeSite.head (storeSite.edited (storeSite.text ++ comparedWithZero .ne))
      storeSite.tail (.node .parenthesized [.node (.assignment none) [.ident ['a'],
        .node (.binary (.arith .ne)) [.ident ['b'], .val (.int 0)]]]) :=
    ⟨by decide, rfl, by decide⟩
  cases hreads.unique hstored
  have htests := (hsame _ comparingMachine_truthful _ _ _).mpr store_steps
  have hlocals := congrArg State.locals (store_compared htests)
  simp only [storeState, List.cons.injEq, Prod.mk.injEq, Binding.reg.injEq, Obj.mk.injEq] at hlocals
  have hcell := congrFun hlocals.1.1.2.2 0
  simp at hcell

end MeleeHarness.SrcMutate
