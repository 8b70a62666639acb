import MeleeHarness.Lib.C.Parse
import Mathlib.Data.List.Chain

/-!
# A subset of C: the text of an expression

Source text as its lexical elements: tokens, and the white space and comments between
them. Tokens that would be read as something else without a gap must have one.

* `parts_flatten`: a text is the texts of its parts and the gaps before them;
* `Reads.unique`: a text has one reading at most;
* `exists_site`: every node of every text is a site.
-/

namespace MeleeHarness.Lib.C

inductive Element where
  | token (t : Token)
  | white (c : Char)
  | comment (body : Text)
  deriving DecidableEq, Repr

def Element.token? : Element → Option Token
  | .token t => some t
  | .white _ | .comment _ => none

def tokens (text : List Element) : List Token := text.filterMap Element.token?

@[simp]
theorem tokens_nil : tokens [] = [] := rfl

@[simp]
theorem tokens_append (a b : List Element) : tokens (a ++ b) = tokens a ++ tokens b :=
  List.filterMap_append

@[simp]
theorem tokens_token (t : Token) (text : List Element) :
    tokens (.token t :: text) = t :: tokens text := rfl

@[simp]
theorem tokens_white (c : Char) (text : List Element) :
    tokens (.white c :: text) = tokens text := rfl

@[simp]
theorem tokens_comment (body : Text) (text : List Element) :
    tokens (.comment body :: text) = tokens text := rfl

theorem token_mem {t : Token} {text : List Element} (h : .token t ∈ text) : t ∈ tokens text :=
  List.mem_filterMap.mpr ⟨_, h, rfl⟩

/-- Tokens with a space between any two. -/
def spaced (ts : List Token) : List Element := (ts.map Element.token).intersperse (.white ' ')

/-! ## Tokens side by side -/

/-- What an operator is spelled like. -/
def ArithOp.mark : ArithOp → Text
  | .add => ['+']
  | .sub => ['-']
  | .mul => ['*']
  | .div => ['/']
  | .mod => ['%']
  | .shl => ['<', '<']
  | .shr => ['>', '>']
  | .bitAnd => ['&']
  | .bitOr => ['|']
  | .bitXor => ['^']
  | .lt => ['<']
  | .le => ['<', '=']
  | .gt => ['>']
  | .ge => ['>', '=']
  | .eq => ['=', '=']
  | .ne => ['!', '=']

/-- What a punctuator is spelled like; words have no mark. -/
def Token.mark : Token → Text
  | .literal _ | .name _ | .keyword _ | .type _ | .sizeof _ | .sizeofType _ => []
  | .lparen => ['(']
  | .rparen => [')']
  | .lbracket => ['[']
  | .rbracket => [']']
  | .lbrace => ['\x7b']
  | .rbrace => ['\x7d']
  | .semicolon => [';']
  | .dot => ['.']
  | .arrow => ['-', '>']
  | .comma => [',']
  | .question => ['?']
  | .colon => [':']
  | .binary (.arith op) => op.mark
  | .binary .logAnd => ['&', '&']
  | .binary .logOr => ['|', '|']
  | .assign none => ['=']
  | .assign (some op) => op.mark ++ ['=']
  | .update .sub => ['-', '-']
  | .update _ => ['+', '+']
  | .tilde => ['~']
  | .bang => ['!']

/-- The longer punctuators, and the signs that open a comment. -/
def marks : List Text :=
  [['-', '>'], ['+', '+'], ['-', '-'], ['<', '<'], ['>', '>'], ['<', '='], ['>', '='], ['=', '='],
    ['!', '='], ['&', '&'], ['|', '|'], ['*', '='], ['/', '='], ['%', '='], ['+', '='], ['-', '='],
    ['&', '='], ['^', '='], ['|', '='], ['<', '<', '='], ['>', '>', '='], ['.', '.', '.'],
    ['/', '/'], ['/', '*']]

def Token.startsWord : Token → Bool
  | .literal _ | .name _ | .keyword _ | .type _ | .sizeof _ | .sizeofType _ => true
  | _ => false

def Token.endsWord : Token → Bool
  | .literal _ | .name _ | .keyword _ | .type _ | .sizeof _ => true
  | _ => false

/-- The longest token that can be read of the two is longer than the first of them. -/
def Token.fuses (a b : Token) : Bool :=
  (a.endsWord && b.startsWord) ||
  (match a with
  | .literal _ => b = .dot
  | _ => false) ||
  (!a.mark.isEmpty && marks.any fun m => a.mark.length < m.length && m.isPrefixOf (a.mark ++ b.mark))

/-- The two are read as what they are. -/
def Element.apart : Element → Element → Bool
  | .token a, .token b => !a.fuses b
  | .token a, .comment _ => a ≠ .binary (.arith .div)
  | .token _, .white _ | .white _, _ | .comment _, _ => true

def Apart (text : List Element) : Prop := text.IsChain fun a b => a.apart b = true

instance (text : List Element) : Decidable (Apart text) :=
  inferInstanceAs (Decidable (text.IsChain _))

theorem apart_append {a b : List Element} : Apart (a ++ b) ↔
    Apart a ∧ Apart b ∧ ∀ x ∈ a.getLast?, ∀ y ∈ b.head?, x.apart y = true :=
  List.isChain_append

theorem apart_of_blank {x : Element} (h : x.token? = none) (y : Element) : x.apart y = true := by
  cases x with
  | token => cases h
  | white | comment => rfl

/-- A closing parenthesis is read as such before anything. -/
theorem apart_rparen (y : Element) : (Element.token .rparen).apart y = true := by
  cases y with
  | token t => rfl
  | white | comment => rfl

theorem apart_lparen (y : Element) : (Element.token .lparen).apart y = true := by
  cases y with
  | token t => rfl
  | white | comment => rfl

/-- Nothing runs into an opening parenthesis. -/
theorem apart_before_lparen (x : Element) : x.apart (.token .lparen) = true := by
  cases x with
  | token t =>
    cases t with
    | binary op =>
      cases op with
      | arith op => cases op <;> rfl
      | logAnd | logOr => rfl
    | assign op =>
      cases op with
      | none => rfl
      | some op => cases op <;> rfl
    | update op => cases op <;> rfl
    | literal | name | keyword | type | sizeof | sizeofType | lparen | rparen | lbracket | rbracket
    | lbrace | rbrace | semicolon | dot | arrow | comma | question | colon | tilde | bang => rfl
  | white | comment => rfl

theorem apart_white (x : Element) (c : Char) : x.apart (.white c) = true := by
  cases x <;> rfl

theorem apart_cons {x : Element} {text : List Element} :
    Apart (x :: text) ↔ (∀ y ∈ text.head?, x.apart y = true) ∧ Apart text :=
  List.isChain_cons

/-- Between the same neighbours another text is apart if it is so from them. -/
theorem apart_replace {a b text new : List Element} (h : Apart (a ++ text ++ b))
    (hne : new ≠ []) (hnew : Apart new)
    (hhead : ∀ x ∈ a.getLast?, ∀ y ∈ new.head?, x.apart y = true)
    (hlast : ∀ x ∈ new.getLast?, ∀ y ∈ b.head?, x.apart y = true) : Apart (a ++ new ++ b) := by
  rw [apart_append, apart_append] at h ⊢
  obtain ⟨⟨ha, -, -⟩, hb, -⟩ := h
  rw [List.getLast?_append_of_ne_nil a hne]
  exact ⟨⟨ha, hnew, hhead⟩, hb, hlast⟩

/-! ## Parts -/

/-- The elements up to the `n`th token. -/
def takeTokens : Nat → List Element → List Element
  | 0, _ | _, [] => []
  | n + 1, .token t :: text => .token t :: takeTokens n text
  | n + 1, x :: text => x :: takeTokens (n + 1) text

def dropTokens : Nat → List Element → List Element
  | 0, text => text
  | _, [] => []
  | n + 1, .token _ :: text => dropTokens n text
  | n + 1, _ :: text => dropTokens (n + 1) text

def Element.blank (x : Element) : Bool := x.token?.isNone

/-- A part of a node's text and the gap before it. -/
structure Part where
  gap : List Element
  text : List Element
  deriving DecidableEq, Repr

/-- The parts of a text that have so many tokens each. -/
def parts : List Nat → List Element → List Part
  | [], _ => []
  | n :: ns, text =>
    let rest := text.dropWhile Element.blank
    ⟨text.takeWhile Element.blank, takeTokens n rest⟩ :: parts ns (dropTokens n rest)

def joinParts (ps : List Part) : List Element := ps.flatMap fun p => p.gap ++ p.text

theorem head_append {l : List Element} (h : tokens l ≠ []) (text : List Element) :
    (l ++ text).head? = l.head? := by
  apply List.head?_append_of_ne_nil
  rintro rfl
  exact h rfl

theorem last_append {r : List Element} (h : tokens r ≠ []) (text : List Element) :
    (text ++ r).getLast? = r.getLast? := by
  apply List.getLast?_append_of_ne_nil
  rintro rfl
  exact h rfl

theorem takeTokens_append_dropTokens (n : Nat) (text : List Element) :
    takeTokens n text ++ dropTokens n text = text := by
  fun_induction takeTokens n text with
  | case1 => rw [dropTokens, List.nil_append]
  | case2 n => cases n <;> rfl
  | case3 n t text ih => rw [dropTokens, List.cons_append, ih]
  | case4 n x text hx ih =>
    have hdrop : dropTokens (n + 1) (x :: text) = dropTokens (n + 1) text := by
      cases x with
      | token t => exact absurd rfl (hx t)
      | white | comment => rfl
    rw [hdrop, List.cons_append, ih]

theorem tokens_takeTokens (n : Nat) (text : List Element) :
    tokens (takeTokens n text) = (tokens text).take n := by
  fun_induction takeTokens n text with
  | case1 => simp
  | case2 => simp
  | case3 n t text ih => rw [tokens_token, tokens_token, ih, List.take_succ_cons]
  | case4 n x text hx ih =>
    cases x with
    | token t => exact absurd rfl (hx t)
    | white | comment => exact ih

theorem tokens_dropTokens (n : Nat) (text : List Element) :
    tokens (dropTokens n text) = (tokens text).drop n := by
  have h := congrArg tokens (takeTokens_append_dropTokens n text)
  rw [tokens_append, tokens_takeTokens] at h
  exact List.append_cancel_left (h.trans (List.take_append_drop n _).symm)

theorem tokens_blank {text : List Element} (h : ∀ x ∈ text, x.blank = true) : tokens text = [] := by
  rw [tokens, List.filterMap_eq_nil_iff]
  exact fun x hx => Option.isNone_iff_eq_none.mp (h x hx)

theorem tokens_dropBlank (text : List Element) :
    tokens (text.dropWhile Element.blank) = tokens text := by
  have h := congrArg tokens (List.takeWhile_append_dropWhile (p := Element.blank) (l := text))
  rw [tokens_append, tokens_blank fun x hx => List.mem_takeWhile_imp hx, List.nil_append] at h
  exact h

/-- A text that begins and ends with a token. -/
structure Tight (text : List Element) : Prop where
  head : ∀ x ∈ text.head?, x.blank = false
  last : ∀ x ∈ text.getLast?, x.blank = false

theorem tight_around {l r : List Element} (hl : Tight l) (hlne : tokens l ≠ []) (hr : Tight r)
    (hrne : tokens r ≠ []) (text : List Element) : Tight (l ++ text ++ r) where
  head := by
    rw [List.append_assoc, head_append hlne]
    exact hl.head
  last := by
    rw [last_append hrne]
    exact hr.last

/-- The first element of a tight text is its first token. -/
theorem Tight.head_eq {text : List Element} (h : Tight text) {t : Token} {ts : List Token}
    (htokens : tokens text = t :: ts) : ∃ rest, text = .token t :: rest ∧ tokens rest = ts := by
  cases text with
  | nil => cases htokens
  | cons x rest =>
    cases x with
    | token u =>
      obtain ⟨rfl, hrest⟩ := List.cons.inj htokens
      exact ⟨rest, rfl, hrest⟩
    | white | comment => exact nomatch h.head _ rfl

theorem Tight.last_eq {text : List Element} (h : Tight text) {t : Token} {ts : List Token}
    (htokens : tokens text = ts ++ [t]) : ∃ rest, text = rest ++ [.token t] ∧ tokens rest = ts := by
  obtain rfl | ⟨rest, x, rfl⟩ := text.eq_nil_or_concat
  · simp at htokens
  · cases x with
    | token u =>
      rw [List.concat_eq_append, tokens_append] at htokens
      obtain ⟨hrest, ht⟩ := List.append_inj' htokens rfl
      obtain rfl : u = t := List.singleton_inj.mp ht
      exact ⟨rest, List.concat_eq_append, hrest⟩
    | white | comment =>
      rw [List.concat_eq_append] at h
      exact nomatch h.last _ List.getLast?_concat

theorem blank_of_tokens_nil {text : List Element} (h : tokens text = []) :
    ∀ x ∈ text, x.blank = true := by
  intro x hx
  rw [tokens, List.filterMap_eq_nil_iff] at h
  exact Option.isNone_iff_eq_none.mpr (h x hx)

theorem takeTokens_last {n : Nat} {text : List Element} (h : n ≤ (tokens text).length) :
    ∀ x ∈ (takeTokens n text).getLast?, x.blank = false := by
  fun_induction takeTokens n text with
  | case1 => simp
  | case2 => simp
  | case3 n t text ih =>
    have hrest := ih (Nat.le_of_succ_le_succ h)
    intro x hx
    rw [List.getLast?_cons] at hx
    cases hlast : (takeTokens n text).getLast? with
    | none =>
      rw [hlast] at hx
      obtain rfl := Option.some.inj hx
      rfl
    | some y =>
      rw [hlast] at hx
      obtain rfl := Option.some.inj hx
      exact hrest _ hlast
  | case4 n x text hx ih =>
    have htokens : tokens (x :: text) = tokens text := by
      cases x with
      | token t => exact absurd rfl (hx t)
      | white | comment => rfl
    rw [htokens] at h
    have hrest := ih h
    intro y hy
    rw [List.getLast?_cons] at hy
    cases hlast : (takeTokens (n + 1) text).getLast? with
    | none =>
      -- a token is still to come, so the rest is not empty
      rw [List.getLast?_eq_none_iff] at hlast
      have hlength := congrArg (fun l => (tokens l).length) hlast
      simp only [tokens_takeTokens, List.length_take, tokens_nil, List.length_nil] at hlength
      omega
    | some z =>
      rw [hlast] at hy
      obtain rfl := Option.some.inj hy
      exact hrest _ hlast

theorem takeTokens_head {n : Nat} {text : List Element} (h : ∀ x ∈ text.head?, x.blank = false) :
    ∀ x ∈ (takeTokens n text).head?, x.blank = false := by
  cases text with
  | nil => cases n <;> simp [takeTokens]
  | cons y text =>
    cases n with
    | zero => simp [takeTokens]
    | succ n =>
      cases y with
      | token t => exact fun x hx => h x hx
      | white | comment => exact fun x hx => h x hx

theorem dropBlank_head (text : List Element) :
    ∀ x ∈ (text.dropWhile Element.blank).head?, x.blank = false := by
  intro x hx
  have h := List.head?_dropWhile_not Element.blank text
  rw [Option.mem_def.mp hx] at h
  exact h

/-- Where a text with these tokens ends, if its last element is one of them. -/
theorem split_last {a b a' b' : List Element} (h : a ++ b = a' ++ b') (htokens : tokens a = tokens a')
    (ha : ∀ x ∈ a.getLast?, x.blank = false) (ha' : ∀ x ∈ a'.getLast?, x.blank = false) :
    a = a' ∧ b = b' := by
  have hnil : ∀ {l c : List Element}, tokens (l ++ c) = tokens l →
      (∀ x ∈ (l ++ c).getLast?, x.blank = false) → c = [] := by
    intro l c hc hlast
    rw [tokens_append, List.append_right_eq_self] at hc
    obtain rfl | ⟨c, x, rfl⟩ := c.eq_nil_or_concat
    · rfl
    · have hblank := blank_of_tokens_nil hc x (by simp)
      have hx := hlast x (by simp)
      exact absurd hblank (by simp [hx])
  obtain ⟨c, rfl, rfl⟩ | ⟨c, rfl, rfl⟩ := List.append_eq_append_iff.mp h
  · obtain rfl := hnil htokens.symm ha'
    exact ⟨(List.append_nil a).symm, rfl⟩
  · obtain rfl := hnil htokens ha
    exact ⟨List.append_nil a', rfl⟩

/-- Where a text begins with its first token, behind these tokens. -/
theorem split_head {a b a' b' : List Element} (h : a ++ b = a' ++ b') (htokens : tokens a = tokens a')
    (hb : ∀ x ∈ b.head?, x.blank = false) (hb' : ∀ x ∈ b'.head?, x.blank = false) :
    a = a' ∧ b = b' := by
  have hnil : ∀ {l c r : List Element}, tokens (l ++ c) = tokens l →
      (∀ x ∈ (c ++ r).head?, x.blank = false) → c = [] := by
    intro l c r hc hhead
    rw [tokens_append, List.append_right_eq_self] at hc
    cases c with
    | nil => rfl
    | cons x c =>
      have hblank := blank_of_tokens_nil hc x List.mem_cons_self
      exact absurd hblank (by simp [hhead x rfl])
  obtain ⟨c, rfl, rfl⟩ | ⟨c, rfl, rfl⟩ := List.append_eq_append_iff.mp h
  · obtain rfl := hnil htokens.symm hb
    exact ⟨(List.append_nil a).symm, rfl⟩
  · obtain rfl := hnil htokens hb'
    exact ⟨List.append_nil a', rfl⟩

/-- The first part of a text that begins with one. -/
theorem parts_cons {text : List Element} (h : Tight text) (hne : tokens text ≠ []) (ns : List Nat)
    (rest : List Element) :
    parts ((tokens text).length :: ns) (text ++ rest) = ⟨[], text⟩ :: parts ns rest := by
  have hhead : ∀ x ∈ (text ++ rest).head?, x.blank = false := by
    rw [head_append hne]
    exact h.head
  have hblank : (text ++ rest).takeWhile Element.blank = [] ∧
      (text ++ rest).dropWhile Element.blank = text ++ rest := by
    cases hsplit : text ++ rest with
    | nil => exact ⟨rfl, rfl⟩
    | cons x l =>
      rw [hsplit] at hhead
      rw [List.takeWhile_cons, List.dropWhile_cons, hhead x rfl]
      exact ⟨rfl, rfl⟩
  obtain ⟨htake, hdrop⟩ := split_last (takeTokens_append_dropTokens (tokens text).length (text ++ rest))
    (by rw [tokens_takeTokens, tokens_append, List.take_left])
    (takeTokens_last (by simp)) h.last
  rw [parts, hblank.1, hblank.2, htake, hdrop]

/-- The parts of a text are its tokens in their order, with the gaps between them. -/
theorem parts_spec {xss : List (List Token)} {text : List Element}
    (hlast : ∀ x ∈ text.getLast?, x.blank = false) (htokens : tokens text = xss.flatten) :
    joinParts (parts (xss.map List.length) text) = text ∧
    List.Forall₂ (fun p xs => tokens p.text = xs ∧ Tight p.text ∧ ∀ x ∈ p.gap, x.blank = true)
      (parts (xss.map List.length) text) xss := by
  induction xss generalizing text with
  | nil =>
    refine ⟨?_, .nil⟩
    have hblank := blank_of_tokens_nil htokens
    cases hx : text.getLast? with
    | none => exact (List.getLast?_eq_none_iff.mp hx).symm
    | some x => exact absurd (hblank x (List.mem_of_getLast? hx)) (by simp [hlast x hx])
  | cons xs xss ih =>
    have hrest : tokens (text.dropWhile Element.blank) = xs ++ xss.flatten :=
      (tokens_dropBlank text).trans htokens
    have hdrop : tokens (dropTokens xs.length (text.dropWhile Element.blank)) = xss.flatten := by
      rw [tokens_dropTokens, hrest, List.drop_left]
    have hsplit : text = (text.takeWhile Element.blank ++
        takeTokens xs.length (text.dropWhile Element.blank)) ++
        dropTokens xs.length (text.dropWhile Element.blank) := by
      rw [List.append_assoc, takeTokens_append_dropTokens, List.takeWhile_append_dropWhile]
    have hlast' : ∀ x ∈ (dropTokens xs.length (text.dropWhile Element.blank)).getLast?,
        x.blank = false := by
      intro x hx
      apply hlast x
      rw [hsplit, Option.mem_def, List.getLast?_append, Option.mem_def.mp hx]
      rfl
    obtain ⟨hjoin, hparts⟩ := ih hlast' hdrop
    refine ⟨?_, ?_⟩
    · rw [List.map_cons, parts, joinParts, List.flatMap_cons]
      change _ ++ joinParts _ = _
      rw [hjoin]
      exact hsplit.symm
    · rw [List.map_cons, parts]
      refine .cons ⟨?_, ⟨takeTokens_head (dropBlank_head text), takeTokens_last ?_⟩, ?_⟩ hparts
      · rw [tokens_takeTokens, hrest, List.take_left]
      · rw [hrest, List.length_append]
        exact Nat.le_add_right _ _
      · exact fun x hx => List.mem_takeWhile_imp hx

theorem tight_singleton {text : List Element} (h : Tight text) {t : Token}
    (htokens : tokens text = [t]) : text = [.token t] := by
  obtain ⟨rest, rfl, hrest⟩ := h.head_eq htokens
  obtain rfl | ⟨rest, x, rfl⟩ := rest.eq_nil_or_concat
  · rfl
  · have hblank := blank_of_tokens_nil hrest x (by simp)
    have hlast := h.last x (by simp [List.getLast?_cons])
    exact absurd hblank (by simp [hlast])

/-- No gap stands before the first part of a node. -/
theorem parts_first {text : List Element} (h : Tight text) {t : Token} {ts : List Token}
    (htokens : tokens text = t :: ts) (n : Nat) (ns : List Nat) :
    (parts (n :: ns) text).head?.map Part.gap = some [] := by
  obtain ⟨rest, rfl, -⟩ := h.head_eq htokens
  rfl

/-- The operands of a node and the token between them. -/
theorem parts_joined {text : List Element} (h : Tight text) {xs ys : List Token} {t : Token}
    (htokens : tokens text = xs ++ t :: ys) (hxs : xs ≠ []) :
    ∃ l g g' r, parts [xs.length, 1, ys.length] text = [⟨[], l⟩, ⟨g, [.token t]⟩, ⟨g', r⟩] ∧
      text = l ++ (g ++ .token t :: (g' ++ r)) ∧ (tokens l = xs ∧ Tight l) ∧
      (tokens r = ys ∧ Tight r) ∧ (∀ x ∈ g, x.blank = true) ∧ ∀ x ∈ g', x.blank = true := by
  have hflat : tokens text = [xs, [t], ys].flatten := by simp [htokens]
  obtain ⟨hjoin, hparts⟩ := parts_spec h.last hflat
  obtain ⟨u, us, rfl⟩ := List.exists_cons_of_ne_nil hxs
  have hfirst := parts_first h htokens (u :: us).length [1, ys.length]
  change joinParts (parts [(u :: us).length, 1, ys.length] text) = text at hjoin
  change List.Forall₂ _ (parts [(u :: us).length, 1, ys.length] text) _ at hparts
  generalize parts [(u :: us).length, 1, ys.length] text = ps at hfirst hjoin hparts
  obtain _ | ⟨⟨hl, hlt, -⟩, _ | ⟨⟨ht, htt, hg⟩, _ | ⟨⟨hr, hrt, hg'⟩, _ | _⟩⟩⟩ := hparts
  rename_i p q r
  obtain ⟨gp, l⟩ := p
  obtain ⟨g, m⟩ := q
  obtain ⟨g', r⟩ := r
  obtain rfl : gp = [] := Option.some.inj hfirst
  obtain rfl : m = [.token t] := tight_singleton htt ht
  refine ⟨l, g, g', r, rfl, ?_, ⟨hl, hlt⟩, ⟨hr, hrt⟩, hg, hg'⟩
  rw [← hjoin]
  simp [joinParts]

/-- Texts with a space on either side of the operator between them. -/
theorem apart_spaced {l r : List Element} (hl : Apart l) (t : Token) (hr : Apart r) :
    Apart (l ++ [.white ' ', .token t, .white ' '] ++ r) := by
  have hmiddle : Apart [.white ' ', .token t, .white ' '] := .cons_cons rfl (.cons_cons rfl (.singleton _))
  rw [apart_append, apart_append]
  refine ⟨⟨hl, hmiddle, ?_⟩, hr, ?_⟩
  · intro x _ y hy
    obtain rfl := Option.some.inj hy
    exact apart_white x ' '
  · intro x hx y _
    rw [List.getLast?_append_of_ne_nil _ (by simp)] at hx
    obtain rfl := Option.some.inj hx
    rfl

/-- Behind an operand and a gap another token is apart as well. -/
theorem apart_operator {l g rest rest' : List Element} {t u : Token} {e : Expr}
    (h : Apart (l ++ (g ++ .token t :: rest))) (hl : Tight l) (hspelled : tokens l = e.print)
    (hwritten : e.written = true) (hg : ∀ x ∈ g, x.blank = true)
    (hfuses : ∀ v : Token, v.ends = true → v.fuses u = false)
    (hrest : Apart (.token u :: rest')) : Apart (l ++ (g ++ .token u :: rest')) := by
  rw [apart_append, apart_append] at h ⊢
  obtain ⟨hlapart, ⟨hgapart, -, -⟩, hseam⟩ := h
  refine ⟨hlapart, ⟨hgapart, hrest, ?_⟩, ?_⟩
  · intro x hx y _
    exact apart_of_blank (Option.isNone_iff_eq_none.mp (hg x (List.mem_of_getLast? hx))) y
  · cases g with
    | cons y g => exact hseam
    | nil =>
      obtain ⟨ts, v, hprint, hv⟩ := print_ends hwritten
      obtain ⟨l', rfl, -⟩ := hl.last_eq (hspelled.trans hprint)
      intro x hx y hy
      rw [List.getLast?_concat] at hx
      obtain rfl := Option.some.inj hx
      obtain rfl := Option.some.inj hy
      simp [Element.apart, hfuses v hv]

/-! ## Sites -/

/-- Between what stands around it, the text of an expression reads as `e`. -/
structure Reads (head text tail : List Element) (e : Expr) : Prop where
  written : e.written = true
  spelled : tokens text = e.print
  apart : Apart (head ++ text ++ tail)

theorem Reads.unique {head text tail : List Element} {e e' : Expr} (h : Reads head text tail e)
    (h' : Reads head text tail e') : e = e' :=
  print_inj h.written h'.written (h.spelled.symm.trans h'.spelled)

/-- A node in the text of an expression, in the text of a function. -/
structure Site where
  head : List Element
  before : List Element
  text : List Element
  after : List Element
  tail : List Element
  parents : List Frame
  expr : Expr
  written : (plug parents expr).written = true
  surrounds : ∀ e, (plug parents e).print = tokens before ++ e.print ++ tokens after
  spelled : tokens text = expr.print
  tight : Tight text
  apart : Apart (head ++ (before ++ text ++ after) ++ tail)

namespace Site
variable (site : Site)

/-- The expression that the node is part of. -/
def whole : Expr := plug site.parents site.expr

/-- The text of that expression with another text in place of the node. -/
def edited (new : List Element) : List Element := site.before ++ new ++ site.after

/-- With that text in place of the node, the expression reads as `e`. -/
abbrev ReadsAs (new : List Element) (e : Expr) : Prop :=
  Reads site.head (site.edited new) site.tail e

variable {site} {new : List Element} {e e' : Expr}

theorem text_ne_nil : site.text ≠ [] := by
  intro hnil
  have hne := print_ne_nil ((written_plug_iff site.written).mp site.written).2
  rw [← site.spelled, hnil] at hne
  exact hne rfl

theorem apart_split (new : List Element) : site.head ++ site.edited new ++ site.tail =
    (site.head ++ site.before) ++ new ++ (site.after ++ site.tail) := by
  simp [edited]

/-- A text may stand in the place of the node if it is apart from what is around it. -/
theorem apart_between (hne : new ≠ []) (hnew : Apart new)
    (hhead : ∀ x ∈ (site.head ++ site.before).getLast?, ∀ y ∈ new.head?, x.apart y = true)
    (hlast : ∀ x ∈ new.getLast?, ∀ y ∈ (site.after ++ site.tail).head?, x.apart y = true) :
    Apart (site.head ++ site.edited new ++ site.tail) := by
  have h : Apart (site.head ++ site.edited site.text ++ site.tail) := site.apart
  rw [apart_split] at h ⊢
  exact apart_replace h hne hnew hhead hlast

/-- A text that begins and ends like that of the node may stand in its place. -/
theorem apart_edited (hnew : Apart new) (hhead : new.head? = site.text.head?)
    (hlast : ∀ x ∈ new.getLast?, x ∈ site.text.getLast? ∨ ∀ y, x.apart y = true) :
    Apart (site.head ++ site.edited new ++ site.tail) := by
  have h : Apart (site.head ++ site.edited site.text ++ site.tail) := site.apart
  have hne : new ≠ [] := by
    intro hnil
    rw [hnil, List.head?_nil] at hhead
    exact text_ne_nil (List.head?_eq_none_iff.mp hhead.symm)
  rw [apart_split, apart_append, apart_append,
    List.getLast?_append_of_ne_nil _ text_ne_nil] at h
  obtain ⟨⟨-, -, hseam⟩, -, hseam'⟩ := h
  refine apart_between hne hnew (hhead ▸ hseam) ?_
  intro x hx y hy
  rcases hlast x hx with hx | hall
  · exact hseam' x hx y hy
  · exact hall y

/-- A text that ends like that of the node may stand in its place if it is apart from what
is before it. -/
theorem apart_ending (hnew : Apart new)
    (hhead : ∀ x ∈ (site.head ++ site.before).getLast?, ∀ y ∈ new.head?, x.apart y = true)
    (hlast : new.getLast? = site.text.getLast?) :
    Apart (site.head ++ site.edited new ++ site.tail) := by
  have h : Apart (site.head ++ site.edited site.text ++ site.tail) := site.apart
  have hne : new ≠ [] := by
    intro hnil
    rw [hnil, List.getLast?_nil] at hlast
    exact text_ne_nil (List.getLast?_eq_none_iff.mp hlast.symm)
  rw [apart_split, apart_append, List.getLast?_append_of_ne_nil _ text_ne_nil, ← hlast] at h
  exact apart_between hne hnew hhead h.2.2

theorem apart_text : Apart site.text := by
  have h := site.apart
  rw [apart_append, apart_append, apart_append, apart_append] at h
  exact h.1.2.1.1.2.1

theorem expr_written : holeDemands site.parents ≤ site.expr.level ∧ site.expr.written = true :=
  (written_plug_iff site.written).mp site.written

/-- The new text stands for a node that may stand there. -/
theorem readsAs_plug (hspelled : tokens new = e.print) (hlevel : site.expr.level ≤ e.level)
    (hwritten : e.written = true) (hapart : Apart (site.head ++ site.edited new ++ site.tail)) :
    site.ReadsAs new (plug site.parents e) where
  written := (written_plug_iff site.written).mpr ⟨expr_written.1.trans hlevel, hwritten⟩
  spelled := by
    rw [edited, tokens_append, tokens_append, hspelled]
    exact (site.surrounds e).symm
  apart := hapart

/-- The site of the new node. -/
def replace (site : Site) {new : List Element} {e : Expr}
    (h : site.ReadsAs new (plug site.parents e)) (hspelled : tokens new = e.print)
    (htight : Tight new) : Site where
  head := site.head
  before := site.before
  text := new
  after := site.after
  tail := site.tail
  parents := site.parents
  expr := e
  written := h.written
  surrounds := site.surrounds
  spelled := hspelled
  tight := htight
  apart := h.apart

/-- The text of a node with an operator between its operands. -/
theorem joined {t : Token} {k : Kind} {a b : Expr} (h : site.expr = .node k [a, b])
    (ht : t.infixes = some k) :
    ∃ l g g' r, parts [a.print.length, 1, b.print.length] site.text =
        [⟨[], l⟩, ⟨g, [.token t]⟩, ⟨g', r⟩] ∧
      site.text = l ++ (g ++ .token t :: (g' ++ r)) ∧ (tokens l = a.print ∧ Tight l) ∧
      (tokens r = b.print ∧ Tight r) ∧ (∀ x ∈ g, x.blank = true) ∧ ∀ x ∈ g', x.blank = true := by
  have hspelled := site.spelled
  rw [h, Expr.print, Expr.printAll, Expr.printAll, Expr.printAll, arrange_joined ht] at hspelled
  exact parts_joined site.tight hspelled (print_ne_nil (left_written (h ▸ expr_written.2)))

/-- The text of a node with an operator before its operand. -/
theorem prefixed {t : Token} {k : Kind} {a : Expr} (h : site.expr = .node k [a])
    (ht : t.prefixes = some k) :
    ∃ g r, parts [1, a.print.length] site.text = [⟨[], [.token t]⟩, ⟨g, r⟩] ∧
      site.text = .token t :: (g ++ r) ∧ tokens r = a.print ∧ Tight r ∧
      ∀ x ∈ g, x.blank = true := by
  have hspelled := site.spelled
  rw [h, Expr.print, Expr.printAll, Expr.printAll, arrange_prefixed ht] at hspelled
  have hflat : tokens site.text = [[t], a.print].flatten := by simp [hspelled]
  obtain ⟨hjoin, hparts⟩ := parts_spec site.tight.last hflat
  have hfirst := parts_first site.tight hspelled 1 [a.print.length]
  change joinParts (parts [1, a.print.length] site.text) = site.text at hjoin
  change List.Forall₂ _ (parts [1, a.print.length] site.text) _ at hparts
  generalize parts [1, a.print.length] site.text = ps at hfirst hjoin hparts
  obtain _ | ⟨⟨hu, hut, -⟩, _ | ⟨⟨hr, hrt, hg⟩, _ | _⟩⟩ := hparts
  rename_i p q
  obtain ⟨gp, u⟩ := p
  obtain ⟨g, r⟩ := q
  obtain rfl : gp = [] := Option.some.inj hfirst
  obtain rfl : u = [.token t] := tight_singleton hut hu
  refine ⟨g, r, rfl, ?_, hr, hrt, hg⟩
  rw [← hjoin]
  simp [joinParts]

end Site

/-- What stands on either side of a hole that takes more than one value. -/
theorem hole_unique {α : Type*} {l r l' r' : List α} {a b : α} (hab : a ≠ b)
    (ha : l ++ a :: r = l' ++ a :: r') (hb : l ++ b :: r = l' ++ b :: r') : l = l' ∧ r = r' := by
  have hnil : ∀ {l c r r' : List α}, a :: r = c ++ a :: r' → l ++ b :: r = l ++ c ++ b :: r' →
      c = [] := by
    intro l c r r' ha hb
    cases c with
    | nil => rfl
    | cons d c =>
      rw [List.append_assoc, List.append_cancel_left_eq] at hb
      exact absurd ((List.cons.inj ha).1.trans (List.cons.inj hb).1.symm) hab
  obtain ⟨c, rfl, hc⟩ | ⟨c, rfl, hc⟩ := List.append_eq_append_iff.mp ha
  · obtain rfl := hnil hc hb
    exact ⟨(List.append_nil l).symm, (List.cons.inj hc).2⟩
  · obtain rfl := hnil hc hb.symm
    exact ⟨List.append_nil l', (List.cons.inj hc).2.symm⟩

/-- The parents of a node lead to one place in a text. -/
theorem Site.unique {s s' : Site} (hhead : s.head = s'.head) (htail : s.tail = s'.tail)
    (hparents : s.parents = s'.parents) (htext : s.edited s.text = s'.edited s'.text) : s = s' := by
  have hplug : ∀ e : Expr, tokens s.before ++ e.print ++ tokens s.after =
      tokens s'.before ++ e.print ++ tokens s'.after := by
    intro e
    rw [← s.surrounds e, hparents, s'.surrounds e]
  obtain ⟨hbefore, hafter⟩ : tokens s.before = tokens s'.before ∧ tokens s.after = tokens s'.after := by
    have hname := fun x => hplug (.ident x)
    simp only [Expr.print, List.append_assoc, List.singleton_append] at hname
    exact hole_unique (by simp) (hname []) (hname ['x'])
  have hexpr : tokens s.text = tokens s'.text := by
    have htokens := congrArg tokens htext
    simp only [edited, tokens_append, hbefore, hafter, List.append_cancel_right_eq,
      List.append_cancel_left_eq] at htokens
    exact htokens
  have hne : ∀ t : Site, tokens t.text ≠ [] := fun t => t.spelled ▸ print_ne_nil expr_written.2
  rw [edited, edited, List.append_assoc, List.append_assoc] at htext
  obtain ⟨h₁, hrest⟩ := split_head htext hbefore
    (by rw [head_append (hne s)]; exact s.tight.head)
    (by rw [head_append (hne s')]; exact s'.tight.head)
  obtain ⟨h₂, h₃⟩ := split_last hrest hexpr s.tight.last s'.tight.last
  have h₄ : s.expr = s'.expr :=
    print_inj expr_written.2 expr_written.2 (s.spelled.symm.trans (hexpr.trans s'.spelled))
  cases s
  cases s'
  congr

/-- Every node of an expression is a site in its text. -/
theorem exists_site {parents : List Frame} {e : Expr} {head text tail : List Element}
    (hwritten : (plug parents e).written = true) (hspelled : tokens text = (plug parents e).print)
    (htight : Tight text) (hapart : Apart (head ++ text ++ tail)) :
    ∃ site : Site, site.parents = parents ∧ site.expr = e ∧ site.head = head ∧ site.tail = tail ∧
      site.edited site.text = text := by
  obtain ⟨left, right, hplug⟩ := print_plug hwritten
  have hflat : tokens text = [left, e.print, right].flatten := by simp [hspelled, hplug]
  obtain ⟨hjoin, hparts⟩ := parts_spec htight.last hflat
  generalize parts ([left, e.print, right].map List.length) text = ps at hjoin hparts
  obtain _ | ⟨⟨hl, -, hg⟩, _ | ⟨⟨he, het, hg'⟩, _ | ⟨⟨hr, -, hg''⟩, _ | _⟩⟩⟩ := hparts
  rename_i p q r
  have htext : p.gap ++ p.text ++ q.gap ++ q.text ++ (r.gap ++ r.text) = text := by
    rw [← hjoin]
    simp [joinParts]
  refine ⟨⟨head, p.gap ++ p.text ++ q.gap, q.text, r.gap ++ r.text, tail, parents, e, hwritten, ?_,
    he, het, ?_⟩, rfl, rfl, rfl, rfl, htext⟩
  · intro e'
    simp [hplug, tokens_blank hg, tokens_blank hg', tokens_blank hg'', hl, hr]
  · rw [htext]
    exact hapart

end MeleeHarness.Lib.C
