import MeleeHarness.Lib.Text

/-!
# Matching braces in C-like text

Braces count where they are code, not in literals and comments. `Within` reads a text by
its lexical elements; `scanFrom` goes through it character by character.

* `scanFrom_eq_iff`: a scan ends at the brace behind a text if and only if the braces of
  the text balance when it is read by its elements.
-/

namespace MeleeHarness.Lib.Braces

/-! ## Lexical elements -/

/-- What is read as a comment: nothing, or line and block comments, where a line comment may
go on over a newline that stands behind a backslash. -/
inductive Comments where
  | none
  | plain
  | spliced
  deriving DecidableEq

def isQuote (c : Char) : Bool := c = '\'' || c = '"'

/-- The inside of a literal: no quote that is not behind a backslash. -/
def literalText (quote : Char) : Text → Bool
  | [] => true
  | '\\' :: _ :: rest => literalText quote rest
  | c :: rest => c ≠ '\\' && c ≠ quote && literalText quote rest

def lineText : Text → Bool
  | [] => true
  | c :: rest => c ≠ '\n' && lineText rest

def splicedText : Text → Bool
  | [] => true
  | '\\' :: '\n' :: rest => splicedText rest
  | ['\\'] => false
  | c :: rest => c ≠ '\n' && splicedText rest

def blockText : Text → Bool
  | [] => true
  | '*' :: '/' :: _ => false
  | _ :: rest => blockText rest

def Comments.line : Comments → Text → Bool
  | .none, _ => false
  | .plain, s => lineText s
  | .spliced, s => splicedText s

def opensComment (c : Char) (rest : Text) : Bool :=
  c = '/' && (rest.head? = some '/' || rest.head? = some '*')

/-- Reading a text inside `d` open braces closes these and no others. -/
inductive Within (rule : Comments) : Nat → Text → Prop
  | nil : Within rule 0 []
  | char {d : Nat} {c : Char} {t : Text} : isQuote c = false → c ≠ '{' → c ≠ '}' →
      (rule = .none ∨ opensComment c t = false) → Within rule d t → Within rule d (c :: t)
  | opening {d : Nat} {t : Text} : Within rule (d + 1) t → Within rule d ('{' :: t)
  | closing {d : Nat} {t : Text} : Within rule d t → Within rule (d + 1) ('}' :: t)
  | literal {d : Nat} {q : Char} {s t : Text} : isQuote q = true → literalText q s = true →
      Within rule d t → Within rule d (q :: (s ++ q :: t))
  | line {d : Nat} {s t : Text} : rule.line s = true → Within rule d t →
      Within rule d ('/' :: '/' :: (s ++ '\n' :: t))
  | block {d : Nat} {s t : Text} : rule ≠ .none → blockText s = true → Within rule d t →
      Within rule d ('/' :: '*' :: (s ++ '*' :: '/' :: t))

/-! ## Character by character -/

inductive Mode where
  | code
  | line
  | block
  | literal (quote : Char) (escaped : Bool)
  deriving DecidableEq

/-- The index of the brace that closes the first one, from index `i` on. -/
def scanFrom (comments : Bool) : Mode → Int → Nat → Text → Option Nat
  | _, _, _, [] => none
  | .line, depth, i, c :: rest =>
    scanFrom comments (if c = '\n' then .code else .line) depth (i + 1) rest
  | .block, depth, i, '*' :: '/' :: rest => scanFrom comments .code depth (i + 2) rest
  | .block, depth, i, _ :: rest => scanFrom comments .block depth (i + 1) rest
  | .literal quote escaped, depth, i, c :: rest =>
    if escaped then scanFrom comments (.literal quote false) depth (i + 1) rest
    else if c = '\\' then scanFrom comments (.literal quote true) depth (i + 1) rest
    else if c = quote then scanFrom comments .code depth (i + 1) rest
    else scanFrom comments (.literal quote false) depth (i + 1) rest
  | .code, depth, i, c :: rest =>
    match comments, c, rest with
    | true, '/', '/' :: rest => scanFrom comments .line depth (i + 2) rest
    | true, '/', '*' :: rest => scanFrom comments .block depth (i + 2) rest
    | _, c, rest =>
      if isQuote c then scanFrom comments (.literal c false) depth (i + 1) rest
      else if c = '{' then scanFrom comments .code (depth + 1) (i + 1) rest
      else if c = '}' then
        if depth - 1 = 0 then some i else scanFrom comments .code (depth - 1) (i + 1) rest
      else scanFrom comments .code depth (i + 1) rest

theorem scanFrom_range {comments : Bool} {mode : Mode} {depth : Int} {i j : Nat} {rest : Text}
    (h : scanFrom comments mode depth i rest = some j) : i ≤ j ∧ j < i + rest.length := by
  fun_induction scanFrom comments mode depth i rest <;> simp_all <;> omega

section
variable {comments : Bool} {depth : Int}

attribute [local simp] scanFrom

theorem scan_literal {q : Char} {s : Text} (h : literalText q s = true) (hq : isQuote q = true)
    (i : Nat) (t : Text) :
    scanFrom comments (.literal q false) depth i (s ++ q :: t) =
      scanFrom comments .code depth (i + s.length + 1) t := by
  have hback : q ≠ '\\' := by
    rintro rfl
    exact absurd hq (by decide)
  fun_induction literalText q s generalizing i with
  | case1 => simp [scanFrom, hback]
  | case2 c rest ih =>
    simp only [List.cons_append, scanFrom, Bool.false_eq_true, ↓reduceIte, List.length_cons]
    rw [ih h]
    congr 1
    omega
  | case3 c rest hne ih =>
    simp only [Bool.and_eq_true, ne_eq, decide_not, Bool.not_eq_true', decide_eq_false_iff_not] at h
    simp only [List.cons_append, scanFrom, Bool.false_eq_true, ↓reduceIte, List.length_cons,
      h.1.1, h.1.2]
    rw [ih h.2]
    congr 1
    omega

theorem scan_line {s : Text} (h : lineText s = true) (i : Nat) (t : Text) :
    scanFrom comments .line depth i (s ++ '\n' :: t) =
      scanFrom comments .code depth (i + s.length + 1) t := by
  induction s generalizing i with
  | nil => simp [scanFrom]
  | cons c rest ih =>
    simp only [lineText, Bool.and_eq_true, decide_eq_true_eq] at h
    simp only [List.cons_append, scanFrom, h.1, ↓reduceIte, List.length_cons]
    rw [ih h.2]
    congr 1
    omega

theorem scan_block {s : Text} (h : blockText s = true) (i : Nat) (t : Text) :
    scanFrom comments .block depth i (s ++ '*' :: '/' :: t) =
      scanFrom comments .code depth (i + s.length + 2) t := by
  fun_induction blockText s generalizing i with
  | case1 => simp [scanFrom]
  | case2 => cases h
  | case3 c rest hne ih =>
    rw [List.cons_append, scanFrom]
    · rw [ih h, List.length_cons]
      congr 1
      omega
    · rintro rest' rfl hrest
      cases rest with
      | nil => simp at hrest
      | cons c rest =>
        obtain ⟨rfl, -⟩ := List.cons.inj hrest
        exact hne rest rfl rfl

/-- Behind a quote the literal ends, or the scan stays in it. -/
theorem literal_ends_or {q : Char} (r : Text) :
    (∃ s t, r = s ++ q :: t ∧ literalText q s = true) ∨
      ∀ (depth : Int) (i : Nat) (back : Text), ∃ escaped,
        scanFrom comments (.literal q false) depth i (r ++ back) =
          scanFrom comments (.literal q escaped) depth (i + r.length) back := by
  fun_induction literalText q r with
  | case1 => exact .inr fun depth i back => ⟨false, rfl⟩
  | case2 c rest ih =>
    rcases ih with ⟨s, t, rfl, hs⟩ | hstay
    · exact .inl ⟨'\\' :: c :: s, t, rfl, by simpa [literalText] using hs⟩
    · refine .inr fun depth i back => ?_
      obtain ⟨escaped, h⟩ := hstay depth (i + 2) back
      refine ⟨escaped, ?_⟩
      simp only [List.cons_append, scanFrom, Bool.false_eq_true, ↓reduceIte, List.length_cons]
      rw [h]
      congr 1
      omega
  | case3 c rest hne ih =>
    by_cases hback : c = '\\'
    · subst hback
      cases rest with
      | nil => exact .inr fun depth i back => ⟨true, by simp [scanFrom]⟩
      | cons d rest => exact absurd rfl (hne d rest rfl)
    by_cases hq : c = q
    · exact .inl ⟨[], rest, by rw [hq]; rfl, rfl⟩
    rcases ih with ⟨s, t, rfl, hs⟩ | hstay
    · refine .inl ⟨c :: s, t, rfl, ?_⟩
      rw [literalText]
      · simp [hback, hq, hs]
      · exact fun d rest' hc => absurd hc hback
    · refine .inr fun depth i back => ?_
      obtain ⟨escaped, h⟩ := hstay depth (i + 1) back
      refine ⟨escaped, ?_⟩
      simp only [List.cons_append, scanFrom, Bool.false_eq_true, ↓reduceIte, List.length_cons, hback,
        hq]
      rw [h]
      congr 1
      omega

theorem line_ends_or (r : Text) :
    (∃ s t, r = s ++ '\n' :: t ∧ lineText s = true) ∨
      ∀ (depth : Int) (i : Nat) (back : Text),
        scanFrom comments .line depth i (r ++ back) =
          scanFrom comments .line depth (i + r.length) back := by
  induction r with
  | nil => exact .inr fun depth i back => rfl
  | cons c rest ih =>
    by_cases hnewline : c = '\n'
    · exact .inl ⟨[], rest, by rw [hnewline]; rfl, rfl⟩
    rcases ih with ⟨s, t, rfl, hs⟩ | hstay
    · exact .inl ⟨c :: s, t, rfl, by simp [lineText, hnewline, hs]⟩
    · refine .inr fun depth i back => ?_
      simp only [List.cons_append, scanFrom, hnewline, ↓reduceIte, List.length_cons]
      rw [hstay]
      congr 1
      omega

theorem block_ends_or (r : Text) :
    (∃ s t, r = s ++ '*' :: '/' :: t ∧ blockText s = true) ∨
      ∀ (depth : Int) (i : Nat) (back : Text), back.head? ≠ some '/' →
        scanFrom comments .block depth i (r ++ back) =
          scanFrom comments .block depth (i + r.length) back := by
  fun_induction blockText r with
  | case1 => exact .inr fun depth i back _ => rfl
  | case2 rest => exact .inl ⟨[], rest, rfl, rfl⟩
  | case3 c rest hne ih =>
    rcases ih with ⟨s, t, rfl, hs⟩ | hstay
    · refine .inl ⟨c :: s, t, rfl, ?_⟩
      rw [blockText]
      · exact hs
      · rintro rest' rfl rfl
        exact hne (rest' ++ '*' :: '/' :: t) rfl rfl
    · refine .inr fun depth i back hback => ?_
      rw [List.cons_append, scanFrom]
      · rw [hstay _ _ _ hback, List.length_cons]
        congr 1
        omega
      · rintro rest' rfl hrest
        cases rest with
        | nil => exact hback (by simpa using congrArg List.head? hrest)
        | cons d rest =>
          obtain ⟨rfl, -⟩ := List.cons.inj hrest
          exact hne rest rfl rfl

theorem scan_code_line (i : Nat) (t : Text) :
    scanFrom true .code depth i ('/' :: '/' :: t) = scanFrom true .line depth (i + 2) t := by
  rw [scanFrom]

theorem scan_code_block (i : Nat) (t : Text) :
    scanFrom true .code depth i ('/' :: '*' :: t) = scanFrom true .block depth (i + 2) t := by
  rw [scanFrom]

theorem scan_code {c : Char} {rest : Text} (h : comments = false ∨ opensComment c rest = false)
    (i : Nat) :
    scanFrom comments .code depth i (c :: rest) =
      if isQuote c then scanFrom comments (.literal c false) depth (i + 1) rest
      else if c = '{' then scanFrom comments .code (depth + 1) (i + 1) rest
      else if c = '}' then
        if depth - 1 = 0 then some i else scanFrom comments .code (depth - 1) (i + 1) rest
      else scanFrom comments .code depth (i + 1) rest := by
  rw [scanFrom]
  · rintro rest' rfl rfl rfl
    simp [opensComment] at h
  · rintro rest' rfl rfl rfl
    simp [opensComment] at h

theorem opensComment_append {c : Char} {t back : Text} (hback : back.head? = some '}') :
    opensComment c (t ++ back) = opensComment c t := by
  cases t with
  | nil => simp [opensComment, hback]
  | cons d t => simp [opensComment]

/-- Inside a literal or a comment a brace is passed over. -/
theorem scan_passes {mode : Mode} (hmode : mode ≠ .code) {i : Nat} {back : Text} :
    scanFrom comments mode depth i ('}' :: back) ≠ some i := by
  intro h
  have hpast : ∃ mode', scanFrom comments mode depth i ('}' :: back) =
      scanFrom comments mode' depth (i + 1) back := by
    cases mode with
    | code => exact absurd rfl hmode
    | line => exact ⟨.line, by simp [scanFrom]⟩
    | block => exact ⟨.block, by simp [scanFrom]⟩
    | literal q escaped =>
      simp only [scanFrom]
      split_ifs <;> exact ⟨_, rfl⟩
  obtain ⟨mode', hmode'⟩ := hpast
  have := (scanFrom_range (hmode' ▸ h)).1
  omega

end

/-- The rule of a scan with or without comments. -/
def ruleOf (comments : Bool) : Comments := if comments then .plain else .none

/-- The elements of a text lead to the brace behind it. -/
theorem scanFrom_within {comments : Bool} {d : Nat} {body : Text}
    (h : Within (ruleOf comments) d body) (i : Nat) (back : Text) :
    scanFrom comments .code (d + 1) i (body ++ '}' :: back) = some (i + body.length) := by
  induction h generalizing i with
  | nil =>
    rw [List.nil_append, scan_code (by simp [opensComment])]
    simp [isQuote]
  | @char d c t hquote hopen hclose hcomment _ ih =>
    have hcode : comments = false ∨ opensComment c (t ++ '}' :: back) = false := by
      rcases hcomment with hrule | hcomment
      · left
        cases comments <;> simp_all [ruleOf]
      · right
        rw [opensComment_append rfl, hcomment]
    rw [List.cons_append, scan_code hcode, if_neg (by simp [hquote]), if_neg hopen, if_neg hclose, ih,
      List.length_cons]
    congr 1
    omega
  | @opening d t _ ih =>
    rw [List.cons_append, scan_code (by simp [opensComment]), if_neg (by decide), if_pos rfl]
    have := ih (i + 1)
    push_cast at this
    rw [this, List.length_cons]
    congr 1
    omega
  | @closing d t _ ih =>
    rw [List.cons_append, scan_code (by simp [opensComment]), if_neg (by decide), if_neg (by decide),
      if_pos rfl, if_neg (by push_cast; omega)]
    have hdepth : ((d + 1 : Nat) : Int) + 1 - 1 = d + 1 := by
      push_cast
      omega
    rw [hdepth, ih, List.length_cons]
    congr 1
    omega
  | @literal d q s t hq hs _ ih =>
    have hcode : opensComment q ((s ++ q :: t) ++ '}' :: back) = false := by
      have : q ≠ '/' := by
        rintro rfl
        exact absurd hq (by decide)
      simp [opensComment, this]
    rw [List.cons_append, scan_code (.inr hcode), if_pos hq, List.append_assoc, List.cons_append,
      scan_literal hs hq, ih]
    simp only [List.length_cons, List.length_append]
    congr 1
    omega
  | @line d s t hs _ ih =>
    cases comments with
    | false => simp [ruleOf, Comments.line] at hs
    | true =>
      rw [List.cons_append, List.cons_append, scan_code_line, List.append_assoc, List.cons_append,
        scan_line hs, ih]
      simp only [List.length_cons, List.length_append]
      congr 1
      omega
  | @block d s t hrule hs _ ih =>
    cases comments with
    | false => simp [ruleOf] at hrule
    | true =>
      rw [List.cons_append, List.cons_append, scan_code_block, List.append_assoc, List.cons_append,
        List.cons_append, scan_block hs, ih]
      simp only [List.length_cons, List.length_append]
      congr 1
      omega

/-- A scan that reaches the brace behind a text has read the text by its elements. -/
theorem within_of_scanFrom {comments : Bool} {d : Nat} {body : Text} {i : Nat} {back : Text}
    (h : scanFrom comments .code (d + 1) i (body ++ '}' :: back) = some (i + body.length)) :
    Within (ruleOf comments) d body := by
  induction hn : body.length using Nat.strong_induction_on generalizing d i body with
  | _ n ih =>
    subst hn
    cases body with
    | nil =>
      rw [List.nil_append, scan_code (by simp [opensComment]), if_neg (by decide),
        if_neg (by decide), if_pos rfl] at h
      split_ifs at h with hdepth
      · obtain rfl : d = 0 := by omega
        exact .nil
      · have := (scanFrom_range h).1
        simp only [List.length_nil] at this
        omega
    | cons c rest =>
      have hstep {d' k : Nat} {t : Text} (hk : k + t.length = i + (c :: rest).length)
          (hik : i < k)
          (hscan : scanFrom comments .code (d' + 1) k (t ++ '}' :: back) =
            some (i + (c :: rest).length)) : Within (ruleOf comments) d' t :=
        ih t.length (by omega) (hscan.trans (congrArg some hk.symm)) rfl
      have hinside {mode : Mode} (hmode : mode ≠ .code) {k : Nat}
          (hk : k = i + (c :: rest).length) :
          scanFrom comments mode (d + 1) k ('}' :: back) ≠ some (i + (c :: rest).length) :=
        hk ▸ scan_passes hmode
      by_cases hcomment : comments = true ∧ opensComment c rest = true
      · obtain ⟨rfl, hcomment⟩ := hcomment
        cases rest with
        | nil => simp [opensComment] at hcomment
        | cons e rest =>
          simp only [opensComment, List.head?_cons, Option.some.injEq, Bool.and_eq_true,
            Bool.or_eq_true, decide_eq_true_eq] at hcomment
          obtain ⟨rfl, rfl | rfl⟩ := hcomment
          · rw [List.cons_append, List.cons_append, scan_code_line] at h
            rcases @line_ends_or true rest with ⟨s, t, rfl, hs⟩ | hstay
            · rw [List.append_assoc, List.cons_append, scan_line hs] at h
              exact .line hs (hstep (by simp only [List.length_cons, List.length_append]; omega)
                (by omega) h)
            · rw [hstay] at h
              exact absurd h (hinside (by simp) (by simp only [List.length_cons]; omega))
          · rw [List.cons_append, List.cons_append, scan_code_block] at h
            rcases @block_ends_or true rest with ⟨s, t, rfl, hs⟩ | hstay
            · rw [List.append_assoc, List.cons_append, List.cons_append, scan_block hs] at h
              exact .block (by simp [ruleOf]) hs (hstep
                (by simp only [List.length_cons, List.length_append]; omega) (by omega) h)
            · rw [hstay _ _ _ (by simp)] at h
              exact absurd h (hinside (by simp) (by simp only [List.length_cons]; omega))
      · have hcode : comments = false ∨ opensComment c (rest ++ '}' :: back) = false := by
          rw [opensComment_append rfl]
          cases comments <;> simp_all
        have hrule : ruleOf comments = .none ∨ opensComment c rest = false := by
          cases comments <;> simp_all [ruleOf]
        rw [List.cons_append, scan_code hcode] at h
        split_ifs at h with hquote hopen hclose hdepth
        · rcases @literal_ends_or comments c rest with ⟨s, t, rfl, hs⟩ | hstay
          · rw [List.append_assoc, List.cons_append, scan_literal hs hquote] at h
            exact .literal hquote hs (hstep
              (by simp only [List.length_cons, List.length_append]; omega) (by omega) h)
          · obtain ⟨escaped, heq⟩ := hstay (d + 1) (i + 1) ('}' :: back)
            rw [heq] at h
            exact absurd h (hinside (by simp) (by simp only [List.length_cons]; omega))
        · subst hopen
          refine .opening (hstep (by simp only [List.length_cons]; omega) (Nat.lt_succ_self i) ?_)
          rw [← h]
          push_cast
          rfl
        · have := Option.some.inj h
          simp only [List.length_cons] at this
          omega
        · subst hclose
          obtain ⟨e, rfl⟩ : ∃ e, d = e + 1 := Nat.exists_eq_succ_of_ne_zero (by omega)
          refine .closing (hstep (by simp only [List.length_cons]; omega) (Nat.lt_succ_self i) ?_)
          rw [← h]
          congr 1
          push_cast
          omega
        · exact .char (by simpa using hquote) hopen hclose hrule
            (hstep (by simp only [List.length_cons]; omega) (Nat.lt_succ_self i) h)

theorem scanFrom_eq_iff (comments : Bool) (d : Nat) (body : Text) (i : Nat) (back : Text) :
    scanFrom comments .code (d + 1) i (body ++ '}' :: back) = some (i + body.length) ↔
      Within (ruleOf comments) d body :=
  ⟨within_of_scanFrom, fun h => scanFrom_within h i back⟩

end MeleeHarness.Lib.Braces
