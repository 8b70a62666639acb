import Mathlib.Algebra.Ring.Int.Defs
import Mathlib.Algebra.Ring.Nat
import Mathlib.Data.List.DropRight
import Mathlib.Data.List.Induction
import Mathlib.Data.List.Infix
import Mathlib.Data.List.TakeWhile
import Mathlib.Tactic.Common

/-!
# Text as lists of characters

The `str` operations a line-oriented reader is written with (`splitlines`,
`strip`, `split`, `int(s, 16)`), and the padding a column printer uses, over
lists of Unicode characters.

* `splitlines_append_boundary`: a line boundary separates what comes before it
  from what comes after it, whatever other boundaries occur on either side;
* `splitlines_unbroken_append`: text without a boundary only extends the first
  line of what follows;
* `words_append_space`, `words_token`: `split()` of blank-separated tokens;
* `intBase10_decimal`, `intBase16_hex`: a printed number reads back as itself.
-/

namespace MeleeHarness.Lib

abbrev Text := List Char

instance lawfulBEqText : LawfulBEq Text := inferInstance

-- A property of every character of a text is decided along the text, never along
-- the whole character set.
instance (priority := high) decidableForallMem {α : Type} (p : α → Prop) [DecidablePred p]
    (l : List α) : Decidable (∀ x ∈ l, p x) := List.decidableBAll p l

/-- The letters of a literal, without decoding it. -/
theorem toList_literal {s : String} {l : Text} (h : String.ofList l = s) : s.toList = l := by
  rw [← h, String.toList_ofList]

theorem nodup_literals (ss : List String) (h : ss.Nodup) : (ss.map String.toList).Nodup :=
  List.Pairwise.map String.toList (fun _ _ hne heq => hne (String.toList_injective heq)) h

theorem forall_literal_cons {P : Text → Prop} {s : String} {ss : List String} {l : Text}
    (h : String.ofList l = s) (hl : P l) (hs : ∀ t ∈ ss, P t.toList) : ∀ t ∈ s :: ss, P t.toList :=
  List.forall_mem_cons.mpr ⟨toList_literal h ▸ hl, hs⟩

/-- The code points at which `str.splitlines` ends a line. -/
def lineBoundaries : List Nat := [10, 11, 12, 13, 28, 29, 30, 133, 8232, 8233]

def isLineBoundary (c : Char) : Bool := lineBoundaries.contains c.toNat

/-- The code points for which `str.isspace` holds. -/
def whitespace : List Nat :=
  [9, 10, 11, 12, 13, 28, 29, 30, 31, 32, 133, 160, 5760, 8192, 8193, 8194, 8195, 8196, 8197,
    8198, 8199, 8200, 8201, 8202, 8232, 8233, 8239, 8287, 12288]

def isSpace (c : Char) : Bool := whitespace.contains c.toNat

/-! ## Lines -/

/-- `str.splitlines()`: a carriage return and the newline after it end one line,
and no empty line follows the last boundary. -/
def splitlines : Text → List Text
  | [] => []
  | '\r' :: '\n' :: rest => [] :: splitlines rest
  | c :: rest =>
    if isLineBoundary c then [] :: splitlines rest
    else
      match splitlines rest with
      | [] => [[c]]
      | line :: lines => (c :: line) :: lines

theorem splitlines_crlf (rest : Text) :
    splitlines ('\r' :: '\n' :: rest) = [] :: splitlines rest := by
  rw [splitlines]

theorem splitlines_boundary {c : Char} {rest : Text} (hb : isLineBoundary c = true)
    (hn : ¬(c = '\r' ∧ ∃ t, rest = '\n' :: t)) :
    splitlines (c :: rest) = [] :: splitlines rest := by
  rw [splitlines]
  · simp [hb]
  · rintro t rfl rfl
    exact hn ⟨rfl, t, rfl⟩

theorem splitlines_boundary_cons {c d : Char} {rest : Text} (hb : isLineBoundary c = true)
    (hn : ¬(c = '\r' ∧ d = '\n')) :
    splitlines (c :: d :: rest) = [] :: splitlines (d :: rest) := by
  apply splitlines_boundary hb
  rintro ⟨h, t, ht⟩
  exact hn ⟨h, (List.cons.inj ht).1⟩

/-- A character that ends no line extends the first line of the rest. -/
def extendFirst (c : Char) : List Text → List Text
  | [] => [[c]]
  | line :: lines => (c :: line) :: lines

theorem splitlines_ordinary {c : Char} {rest : Text} (hb : isLineBoundary c = false) :
    splitlines (c :: rest) = extendFirst c (splitlines rest) := by
  rw [splitlines]
  · simp only [hb, Bool.false_eq_true, ↓reduceIte, extendFirst]
  · rintro t rfl rfl
    simp [isLineBoundary, lineBoundaries] at hb

theorem splitlines_newline (rest : Text) :
    splitlines ('\n' :: rest) = [] :: splitlines rest := by
  apply splitlines_boundary (by decide)
  rintro ⟨h, -⟩
  exact absurd h (by decide)

theorem splitlines_ne_nil (c : Char) (rest : Text) : splitlines (c :: rest) ≠ [] := by
  cases hb : isLineBoundary c with
  | false =>
    rw [splitlines_ordinary hb]
    cases splitlines rest <;> simp [extendFirst]
  | true =>
    by_cases hn : c = '\r' ∧ ∃ t, rest = '\n' :: t
    · obtain ⟨rfl, t, rfl⟩ := hn
      simp [splitlines_crlf]
    · simp [splitlines_boundary hb hn]

theorem extendFirst_append (c : Char) {xs : List Text} (ys : List Text) (h : xs ≠ []) :
    extendFirst c (xs ++ ys) = extendFirst c xs ++ ys := by
  cases xs with
  | nil => exact absurd rfl h
  | cons x xs => rfl

/-- Lines are judged on each side of a boundary separately. -/
theorem splitlines_append_boundary {c : Char} (hc : isLineBoundary c = true) (a : Text) {b : Text}
    (hcb : ¬(c = '\r' ∧ ∃ t, b = '\n' :: t)) :
    splitlines (a ++ c :: b) = splitlines (a ++ [c]) ++ splitlines b := by
  have single : splitlines (c :: b) = [] :: splitlines b ∧ splitlines [c] = [[]] := by
    refine ⟨splitlines_boundary hc hcb, ?_⟩
    rw [splitlines_boundary hc (by simp), splitlines]
  -- two characters at a time, because a carriage return may absorb the next character
  induction a using List.twoStepInduction with
  | nil => simp [single]
  | singleton d =>
    cases hd : isLineBoundary d with
    | false =>
      simp only [List.cons_append, List.nil_append, splitlines_ordinary hd, single]
      rfl
    | true =>
      by_cases hdc : d = '\r' ∧ c = '\n'
      · obtain ⟨rfl, rfl⟩ := hdc
        simp [splitlines_crlf, splitlines]
      · simp [splitlines_boundary_cons hd hdc, single]
  | cons_cons d e ds ih₀ ih₁ =>
    simp only [List.cons_append] at ih₀ ih₁ ⊢
    cases hd : isLineBoundary d with
    | false =>
      rw [splitlines_ordinary hd, splitlines_ordinary hd, ih₁,
        extendFirst_append d _ (splitlines_ne_nil _ _)]
    | true =>
      by_cases hde : d = '\r' ∧ e = '\n'
      · obtain ⟨rfl, rfl⟩ := hde
        rw [splitlines_crlf, splitlines_crlf, ih₀, List.cons_append]
      · rw [splitlines_boundary_cons hd hde, splitlines_boundary_cons hd hde, ih₁,
          List.cons_append]

theorem splitlines_append_newline (a b : Text) :
    splitlines (a ++ '\n' :: b) = splitlines (a ++ ['\n']) ++ splitlines b := by
  apply splitlines_append_boundary (by decide)
  rintro ⟨h, -⟩
  exact absurd h (by decide)

/-- Text with no line boundary in it. -/
def Unbroken (t : Text) : Prop := ∀ c ∈ t, isLineBoundary c = false

instance (t : Text) : Decidable (Unbroken t) := inferInstanceAs (Decidable (∀ c ∈ t, _))

theorem Unbroken.append {a b : Text} (ha : Unbroken a) (hb : Unbroken b) : Unbroken (a ++ b) := by
  intro c hc
  rcases List.mem_append.mp hc with h | h
  · exact ha c h
  · exact hb c h

theorem unbroken_replicate_space (n : Nat) : Unbroken (List.replicate n ' ') := by
  intro c hc
  rw [List.eq_of_mem_replicate hc]
  decide

theorem splitlines_unbroken_append {a : Text} (ha : Unbroken a) {b line : Text}
    {lines : List Text} (hb : splitlines b = line :: lines) :
    splitlines (a ++ b) = (a ++ line) :: lines := by
  induction a with
  | nil => simpa using hb
  | cons c cs ih =>
    have hc : isLineBoundary c = false := ha c List.mem_cons_self
    rw [List.cons_append, splitlines_ordinary hc, ih (fun d hd => ha d (List.mem_cons_of_mem c hd))]
    rfl

theorem splitlines_unbroken_newline {a : Text} (ha : Unbroken a) (b : Text) :
    splitlines (a ++ '\n' :: b) = a :: splitlines b := by
  simpa using splitlines_unbroken_append ha (splitlines_newline b)

/-! ## Stripping and words -/

def lstrip (t : Text) : Text := t.dropWhile isSpace

def rstrip (t : Text) : Text := t.rdropWhile isSpace

/-- `str.strip()`. -/
def strip (t : Text) : Text := lstrip (rstrip t)

/-- The code points with the Unicode property `White_Space`. -/
def unicodeWhitespace : List Nat :=
  [9, 10, 11, 12, 13, 32, 133, 160, 5760, 8192, 8193, 8194, 8195, 8196, 8197, 8198, 8199, 8200,
    8201, 8202, 8232, 8233, 8239, 8287, 12288]

/-- `str::trim` of Rust. -/
def trim (t : Text) : Text :=
  (t.rdropWhile fun c => unicodeWhitespace.contains c.toNat).dropWhile
    fun c => unicodeWhitespace.contains c.toNat

theorem trim_newline (t : Text) : trim (t ++ ['\n']) = trim t := by
  have hdrop : (t ++ ['\n']).rdropWhile (fun c => unicodeWhitespace.contains c.toNat) =
      t.rdropWhile fun c => unicodeWhitespace.contains c.toNat :=
    List.rdropWhile_concat_pos _ _ _ (by decide)
  rw [trim, hdrop, trim]

/-- `str.split(sep, 1)` for text that contains `sep`. -/
def splitOnce (sep : Char) (t : Text) : Text × Text :=
  (t.takeWhile (· != sep), (t.dropWhile (· != sep)).drop 1)

theorem splitOnce_append {sep : Char} {a : Text} (h : sep ∉ a) (b : Text) :
    splitOnce sep (a ++ sep :: b) = (a, b) := by
  have ha : ∀ c ∈ a, (c != sep) = true := by
    intro c hc
    simp only [bne_iff_ne, ne_eq]
    rintro rfl
    exact h hc
  simp [splitOnce, List.takeWhile_append_of_pos ha, List.dropWhile_append_of_pos ha]

/-- `str.split()`: the maximal runs of characters that are not white space. -/
def words : Text → List Text
  | [] => []
  | c :: cs =>
    if isSpace c then words cs
    else if (cs.head?.map isSpace).getD true then [c] :: words cs
    else
      match words cs with
      | [] => [[c]]
      | w :: ws => (c :: w) :: ws

theorem words_space {c : Char} (h : isSpace c = true) (cs : Text) : words (c :: cs) = words cs := by
  simp [words, h]

theorem words_ne_nil {c : Char} (h : isSpace c = false) {cs : Text} : words (c :: cs) ≠ [] := by
  rw [words]
  simp only [h, Bool.false_eq_true, ↓reduceIte]
  split
  · simp
  · split <;> simp

theorem words_append_whitespace {sep : Char} (hsp : isSpace sep = true) (a b : Text) :
    words (a ++ sep :: b) = words a ++ words b := by
  induction a with
  | nil => simp [words_space hsp, words]
  | cons c cs ih =>
    rw [List.cons_append]
    cases hc : isSpace c with
    | true => rw [words_space hc, words_space hc, ih]
    | false =>
      cases cs with
      | nil => simp [words, hc, hsp]
      | cons d ds =>
        simp only [List.cons_append] at ih ⊢
        rw [words, words.eq_2 c (d :: ds)]
        simp only [hc, Bool.false_eq_true, ↓reduceIte, List.head?_cons, Option.map_some,
          Option.getD_some, ih]
        split
        · rename_i hd
          simp only [hd, ↓reduceIte, List.cons_append]
        · rename_i hd
          simp only [hd]
          -- the next character starts a word, so there is one to extend
          cases hw : words (d :: ds) with
          | nil => exact absurd hw (words_ne_nil (by simpa using hd))
          | cons w ws => rfl

theorem words_append_space (a b : Text) : words (a ++ ' ' :: b) = words a ++ words b :=
  words_append_whitespace (by decide) a b

theorem words_token {t : Text} (hne : t ≠ []) (h : ∀ c ∈ t, isSpace c = false) : words t = [t] := by
  induction t with
  | nil => exact absurd rfl hne
  | cons c cs ih =>
    have hc := h c List.mem_cons_self
    cases cs with
    | nil => simp [words, hc]
    | cons d ds =>
      have hd := h d (List.mem_cons_of_mem c List.mem_cons_self)
      have ih := ih (by simp) (fun e he => h e (List.mem_cons_of_mem c he))
      rw [words]
      simp [hc, hd, ih]

theorem words_replicate_space (n : Nat) : words (List.replicate n ' ') = [] := by
  induction n with
  | zero => rfl
  | succ n ih => rw [List.replicate_succ, words_space (by decide), ih]

theorem words_lstrip (t : Text) : words (lstrip t) = words t := by
  induction t with
  | nil => rfl
  | cons c cs ih =>
    cases hc : isSpace c with
    | true => simpa [lstrip, hc, words_space hc] using ih
    | false => simp [lstrip, hc]

/-! ## Columns -/

/-- `{:<width$}`: pad on the right with spaces, counting characters. -/
def padRight (width : Nat) (t : Text) : Text := t ++ List.replicate (width - t.length) ' '

/-- `String::len`: the number of UTF-8 bytes. -/
def utf8Len (t : Text) : Nat := (t.map Char.utf8Size).sum

/-! ## Decimal -/

def decimalAlphabet : Text := ['0', '1', '2', '3', '4', '5', '6', '7', '8', '9']

theorem mem_decimalAlphabet {c : Char} (h : c.isDigit = true) : c ∈ decimalAlphabet := by
  have hbounds : 48 ≤ c.toNat ∧ c.toNat ≤ 57 := by
    simpa [Char.isDigit, UInt32.le_iff_toNat_le] using h
  have hall : ∀ n < 58, 48 ≤ n → Char.ofNat n ∈ decimalAlphabet := by decide
  rw [← Char.ofNat_toNat c]
  exact hall c.toNat (by omega) hbounds.1

theorem mem_decimal {c : Char} {n : Nat} (h : c ∈ Nat.toDigits 10 n) : c ∈ decimalAlphabet :=
  mem_decimalAlphabet (Nat.isDigit_of_mem_toDigits (by decide) (by decide) h)

/-- Digits with single underscores between them, after a first digit. -/
def decimalTail (acc : Nat) : Text → Option Nat
  | [] => some acc
  | '_' :: c :: cs => if c.isDigit then decimalTail (10 * acc + (c.toNat - 48)) cs else none
  | c :: cs => if c.isDigit then decimalTail (10 * acc + (c.toNat - 48)) cs else none

def decimalNumeral : Text → Option Nat
  | [] => none
  | c :: cs => if c.isDigit then decimalTail (c.toNat - 48) cs else none

/-- `int(t)`, `none` where it raises `ValueError`. -/
def intBase10 (t : Text) : Option Int :=
  match strip t with
  | '-' :: u => (decimalNumeral u).map fun n => -(n : Int)
  | '+' :: u => (decimalNumeral u).map Int.ofNat
  | u => (decimalNumeral u).map Int.ofNat

theorem decimalTail_digits {cs : Text} (h : ∀ c ∈ cs, c.isDigit = true) (acc : Nat) :
    decimalTail acc cs = some (Nat.ofDigitChars 10 cs acc) := by
  induction cs generalizing acc with
  | nil => simp [decimalTail]
  | cons c cs ih =>
    have hc := h c List.mem_cons_self
    rw [decimalTail, if_pos hc, ih fun d hd => h d (List.mem_cons_of_mem c hd),
      Nat.ofDigitChars_cons]
    · rfl
    · rintro d ds rfl
      exact absurd hc (by decide)

theorem decimalNumeral_digits {cs : Text} (hne : cs ≠ []) (h : ∀ c ∈ cs, c.isDigit = true) :
    decimalNumeral cs = some (Nat.ofDigitChars 10 cs 0) := by
  cases cs with
  | nil => exact absurd rfl hne
  | cons c cs =>
    rw [decimalNumeral, if_pos (h c List.mem_cons_self),
      decimalTail_digits fun d hd => h d (List.mem_cons_of_mem c hd), Nat.ofDigitChars_cons]
    simp

theorem decimalAlphabet_plain {c : Char} (h : c ∈ decimalAlphabet) :
    isSpace c = false ∧ c.isDigit = true ∧ c ≠ '-' ∧ c ≠ '+' ∧ c ≠ '\n' ∧ c ≠ '\r' := by
  revert c
  decide

/-! ## Hexadecimal -/

/-- `{:x}`. -/
def hex (n : Nat) : Text := Nat.toDigits 16 n

def hexDigit (c : Char) : Option Nat :=
  if '0' ≤ c ∧ c ≤ '9' then some (c.toNat - 48)
  else if 'a' ≤ c ∧ c ≤ 'f' then some (c.toNat - 87)
  else if 'A' ≤ c ∧ c ≤ 'F' then some (c.toNat - 55)
  else none

/-- Digits with single underscores between them, after a first digit. -/
def hexTail (acc : Nat) : Text → Option Nat
  | [] => some acc
  | '_' :: c :: cs => (hexDigit c).bind fun d => hexTail (16 * acc + d) cs
  | c :: cs => (hexDigit c).bind fun d => hexTail (16 * acc + d) cs

def hexNumeral : Text → Option Nat
  | [] => none
  | c :: cs => (hexDigit c).bind fun d => hexTail d cs

/-- An unsigned base-16 literal, with or without its `0x`. -/
def hexLiteral : Text → Option Nat
  | '0' :: 'x' :: '_' :: cs => hexNumeral cs
  | '0' :: 'X' :: '_' :: cs => hexNumeral cs
  | '0' :: 'x' :: cs => hexNumeral cs
  | '0' :: 'X' :: cs => hexNumeral cs
  | cs => hexNumeral cs

/-- `int(t, 16)`, `none` where it raises `ValueError`. -/
def intBase16 (t : Text) : Option Int :=
  match strip t with
  | '-' :: u => (hexLiteral u).map fun n => -(n : Int)
  | '+' :: u => (hexLiteral u).map Int.ofNat
  | u => (hexLiteral u).map Int.ofNat

/-- The digits `{:x}` prints. -/
def hexAlphabet : Text :=
  ['0', '1', '2', '3', '4', '5', '6', '7', '8', '9', 'a', 'b', 'c', 'd', 'e', 'f']

theorem digitChar_hex {d : Nat} (h : d < 16) :
    d.digitChar ∈ hexAlphabet ∧ hexDigit d.digitChar = some d := by
  revert d
  decide

theorem hexAlphabet_plain {c : Char} (h : c ∈ hexAlphabet) :
    isSpace c = false ∧ isLineBoundary c = false ∧ c ≠ ':' ∧ c ≠ '|' ∧ c ≠ '_' ∧ c ≠ 'x' ∧
      c ≠ 'X' ∧ c ≠ '-' ∧ c ≠ '+' := by
  revert c
  decide

theorem hexTail_cons {c : Char} (hc : c ∈ hexAlphabet) (acc : Nat) (cs : Text) :
    hexTail acc (c :: cs) = (hexDigit c).bind fun d => hexTail (16 * acc + d) cs := by
  rw [hexTail]
  rintro d ds rfl
  exact absurd rfl (hexAlphabet_plain hc).2.2.2.2.1

theorem hex_ne_nil (n : Nat) : hex n ≠ [] := Nat.toDigits_ne_nil

theorem hex_step {n : Nat} (h : 16 ≤ n) : hex n = hex (n / 16) ++ [(n % 16).digitChar] :=
  Nat.toDigits_of_base_le (by decide) h

theorem hex_small {n : Nat} (h : n < 16) : hex n = [n.digitChar] :=
  Nat.toDigits_of_lt_base h

theorem mem_hex {c : Char} {n : Nat} (h : c ∈ hex n) : c ∈ hexAlphabet := by
  induction n using Nat.strongRecOn with
  | ind n ih =>
    by_cases hn : n < 16
    · rw [hex_small hn, List.mem_singleton] at h
      exact h ▸ (digitChar_hex hn).1
    · rw [hex_step (by omega), List.mem_append, List.mem_singleton] at h
      rcases h with h | h
      · exact ih (n / 16) (by omega) h
      · exact h ▸ (digitChar_hex (by omega)).1

theorem hexTail_append {cs : Text} (hcs : ∀ c ∈ cs, c ∈ hexAlphabet) (acc : Nat) {d : Nat}
    (hd : d < 16) :
    hexTail acc (cs ++ [d.digitChar]) = (hexTail acc cs).map (fun n => 16 * n + d) := by
  induction cs generalizing acc with
  | nil =>
    rw [List.nil_append, hexTail_cons (digitChar_hex hd).1, (digitChar_hex hd).2]
    rfl
  | cons c cs ih =>
    have hc := hcs c List.mem_cons_self
    rw [List.cons_append, hexTail_cons hc, hexTail_cons hc]
    cases hexDigit c with
    | none => rfl
    | some e => exact ih (fun c hc => hcs c (List.mem_cons_of_mem _ hc)) _

theorem hexNumeral_hex (n : Nat) : hexNumeral (hex n) = some n := by
  induction n using Nat.strongRecOn with
  | ind n ih =>
    by_cases hn : n < 16
    · simp [hex_small hn, hexNumeral, (digitChar_hex hn).2, hexTail]
    · have ih := ih (n / 16) (by omega)
      have hmem : ∀ c ∈ hex (n / 16), c ∈ hexAlphabet := fun c hc => mem_hex hc
      rw [hex_step (by omega)]
      cases hq : hex (n / 16) with
      | nil => exact absurd hq (hex_ne_nil _)
      | cons c cs =>
        rw [hq] at ih hmem
        simp only [List.cons_append, hexNumeral] at ih ⊢
        cases hd : hexDigit c with
        | none => simp [hd] at ih
        | some d =>
          simp only [hd, Option.bind_some] at ih ⊢
          rw [hexTail_append (fun c hc => hmem c (List.mem_cons_of_mem _ hc)) _ (by omega), ih]
          simp only [Option.map_some, Option.some.injEq]
          omega

theorem strip_of_no_space {t : Text} (h : ∀ c ∈ t, isSpace c = false) : strip t = t := by
  have hr : rstrip t = t := by
    rw [rstrip, List.rdropWhile_eq_self_iff]
    intro hne
    simp [h _ (List.getLast_mem hne)]
  rw [strip, hr, lstrip, List.dropWhile_eq_self_iff]
  intro hl
  simp [h _ (List.getElem_mem hl)]

/-- A printed decimal number reads back as itself. -/
theorem intBase10_decimal (n : Nat) : intBase10 (Nat.toDigits 10 n) = some (n : Int) := by
  have hp : ∀ c ∈ Nat.toDigits 10 n, _ := fun c hc => decimalAlphabet_plain (mem_decimal hc)
  rw [intBase10, strip_of_no_space fun c hc => (hp c hc).1]
  have hl : decimalNumeral (Nat.toDigits 10 n) = some n := by
    rw [decimalNumeral_digits Nat.toDigits_ne_nil fun c hc => (hp c hc).2.1,
      Nat.ofDigitChars_ten_toDigits]
  split
  · rename_i u hu
    exact absurd rfl (hp '-' (hu ▸ List.mem_cons_self)).2.2.1
  · rename_i u hu
    exact absurd rfl (hp '+' (hu ▸ List.mem_cons_self)).2.2.2.1
  · rw [hl]
    rfl

theorem hexLiteral_of_no_x {t : Text} (h : ∀ c ∈ t, c ≠ 'x' ∧ c ≠ 'X') :
    hexLiteral t = hexNumeral t := by
  unfold hexLiteral
  split <;> simp_all

theorem intBase16_hex (n : Nat) : intBase16 (hex n) = some (n : Int) := by
  have hp : ∀ c ∈ hex n, _ := fun c hc => hexAlphabet_plain (mem_hex hc)
  rw [intBase16, strip_of_no_space fun c hc => (hp c hc).1]
  have hl : hexLiteral (hex n) = some n := by
    rw [hexLiteral_of_no_x fun c hc => ⟨(hp c hc).2.2.2.2.2.1, (hp c hc).2.2.2.2.2.2.1⟩,
      hexNumeral_hex]
  split
  · rename_i u hu
    exact absurd rfl (hp '-' (hu ▸ List.mem_cons_self)).2.2.2.2.2.2.2.1
  · rename_i u hu
    exact absurd rfl (hp '+' (hu ▸ List.mem_cons_self)).2.2.2.2.2.2.2.2
  · rw [hl]
    rfl

end MeleeHarness.Lib
