import MeleeHarness.Lib.C.Syntax

/-!
# A subset of C: expressions as they are written

The tokens of an expression, and the trees that the grammar gives them. A tree is
written if every operand binds at least as tightly as the grammar asks at its place.

* `written_induct`: induction over written trees;
* `written_plug_iff`: whether an operand may stand at a place depends on its level only.
-/

namespace MeleeHarness.Lib.C

/-- Tokens. A literal is decimal, a type is one token, and `sizeof` has its value with
it, with the type if it is that of a type. -/
inductive Token where
  | literal (v : Val)
  | name (x : Name)
  | keyword (w : Text)
  | type (ty : Text)
  | sizeof (size : Val)
  | sizeofType (size : Val)
  | lparen | rparen | lbracket | rbracket | lbrace | rbrace | semicolon
  | dot | arrow | comma | question | colon
  | binary (op : BinaryOp)
  | assign (op : Option ArithOp)
  | update (op : ArithOp)
  | tilde
  | bang
  deriving DecidableEq, Repr

/-! ## Levels -/

namespace Level

def comma : Nat := 1
def assignment : Nat := 2
def conditional : Nat := 3
def cast : Nat := 14
def unary : Nat := 15
def postfixed : Nat := 16
def primary : Nat := 17

end Level

/-- How tightly a binary operator binds. -/
def BinaryOp.level : BinaryOp → Nat
  | .logOr => 4
  | .logAnd => 5
  | .arith .bitOr => 6
  | .arith .bitXor => 7
  | .arith .bitAnd => 8
  | .arith .eq | .arith .ne => 9
  | .arith .lt | .arith .le | .arith .gt | .arith .ge => 10
  | .arith .shl | .arith .shr => 11
  | .arith .add | .arith .sub => 12
  | .arith .mul | .arith .div | .arith .mod => 13

def Kind.level : Kind → Nat
  | .comma => Level.comma
  | .assignment _ => Level.assignment
  | .conditional => Level.conditional
  | .binary op => op.level
  | .cast _ => Level.cast
  | .unary _ | .addressOf | .deref | .sizeof _ | .update true _ => Level.unary
  | .call | .subscript | .field _ | .arrow _ | .update false _ => Level.postfixed
  | .parenthesized => Level.primary

def Expr.level : Expr → Nat
  | .val _ | .ident _ => Level.primary
  | .node k _ => k.level

/-- The least level of an operand at its place. -/
def Kind.demands : Kind → Nat → Nat
  | .comma, 0 => Level.comma
  | .comma, _ => Level.assignment
  | .assignment _, 0 => Level.unary
  | .assignment _, _ => Level.assignment
  | .conditional, 0 => 4
  | .conditional, 1 => Level.comma
  | .conditional, _ => Level.conditional
  | .binary op, 0 => op.level
  | .binary op, _ => op.level + 1
  | .cast _, _ | .unary _, _ | .addressOf, _ | .deref, _ => Level.cast
  | .sizeof _, _ | .update true _, _ => Level.unary
  | .update false _, _ | .field _, _ | .arrow _, _ => Level.postfixed
  | .subscript, 0 | .call, 0 => Level.postfixed
  | .subscript, _ | .parenthesized, _ => Level.comma
  | .call, _ => Level.assignment

/-- The operators of compound assignments. -/
def ArithOp.compounds : ArithOp → Bool
  | .add | .sub | .mul | .div | .mod | .shl | .shr | .bitAnd | .bitOr | .bitXor => true
  | .lt | .le | .gt | .ge | .eq | .ne => false

/-- How many operands a node may have. -/
def Kind.takes : Kind → Nat → Bool
  | .unary _, n | .addressOf, n | .deref, n | .field _, n | .arrow _, n | .cast _, n
  | .parenthesized, n => n = 1
  | .update _ op, n => n = 1 && (op = .add || op = .sub)
  | .sizeof _, n => n ≤ 1
  | .binary _, n | .comma, n | .subscript, n => n = 2
  | .assignment op, n => n = 2 && op.all ArithOp.compounds
  | .conditional, n => n = 3
  | .call, n => 1 ≤ n

def Val.literal : Val → Bool
  | .int n => 0 ≤ n
  | .ptr _ _ | .fn _ => false

mutual

/-- The tree is one that the grammar gives: every operand binds tightly enough. -/
def Expr.written : Expr → Bool
  | .val v => v.literal
  | .ident _ => true
  | .node k children =>
    k.takes children.length && childrenWritten k 0 children

def Expr.childrenWritten (k : Kind) (i : Nat) : List Expr → Bool
  | [] => true
  | e :: rest => k.demands i ≤ e.level && e.written && childrenWritten k (i + 1) rest

end

/-! ## Tokens of a tree -/

def UnaryOp.token : UnaryOp → Token
  | .plus => .binary (.arith .add)
  | .minus => .binary (.arith .sub)
  | .bitNot => .tilde
  | .not => .bang

/-- Arguments with commas between them. -/
def commaSeparated : List (List Token) → List Token
  | [] => []
  | [a] => a
  | a :: rest => a ++ .comma :: commaSeparated rest

/-- The tokens of a node, from those of its operands. -/
def Kind.arrange : Kind → List (List Token) → List Token
  | .unary op, [a] => op.token :: a
  | .addressOf, [a] => .binary (.arith .bitAnd) :: a
  | .deref, [a] => .binary (.arith .mul) :: a
  | .sizeof size, [a] => .sizeof size :: a
  | .sizeof size, [] => [.sizeofType size]
  | .update true op, [a] => .update op :: a
  | .update false op, [a] => a ++ [.update op]
  | .cast ty, [a] => .lparen :: .type ty :: .rparen :: a
  | .parenthesized, [a] => .lparen :: (a ++ [.rparen])
  | .field f, [a] => a ++ [.dot, .name f]
  | .arrow f, [a] => a ++ [.arrow, .name f]
  | .subscript, [a, i] => a ++ .lbracket :: (i ++ [.rbracket])
  | .call, f :: args => f ++ .lparen :: (commaSeparated args ++ [.rparen])
  | .binary op, [a, b] => a ++ .binary op :: b
  | .assignment op, [a, b] => a ++ .assign op :: b
  | .comma, [a, b] => a ++ .comma :: b
  | .conditional, [c, a, b] => c ++ .question :: (a ++ .colon :: b)
  | _, _ => []

mutual

def Expr.print : Expr → List Token
  | .val v => [.literal v]
  | .ident x => [.name x]
  | .node k children => k.arrange (printAll children)

def Expr.printAll : List Expr → List (List Token)
  | [] => []
  | e :: rest => e.print :: printAll rest

end

/-- The node that a token begins, with one operand behind it. -/
def Token.prefixes : Token → Option Kind
  | .binary (.arith .add) => some (.unary .plus)
  | .binary (.arith .sub) => some (.unary .minus)
  | .binary (.arith .mul) => some .deref
  | .binary (.arith .bitAnd) => some .addressOf
  | .tilde => some (.unary .bitNot)
  | .bang => some (.unary .not)
  | .sizeof size => some (.sizeof size)
  | .update op => some (.update true op)
  | _ => none

/-- The node that a token makes of the operands on either side. -/
def Token.infixes : Token → Option Kind
  | .binary op => some (.binary op)
  | .assign op => some (.assignment op)
  | .comma => some .comma
  | _ => none

/-- The tokens that stand behind the only operand. -/
def Kind.suffix : Kind → Option (List Token)
  | .update false op => some [.update op]
  | .field f => some [.dot, .name f]
  | .arrow f => some [.arrow, .name f]
  | _ => none

/-! ## Written trees -/

theorem binary_level_bounds (op : BinaryOp) :
    Level.conditional < op.level ∧ op.level < Level.cast := by
  cases op with
  | arith op => cases op <;> decide
  | logAnd | logOr => decide

theorem comma_le_level (e : Expr) : Level.comma ≤ e.level := by
  cases e with
  | val | ident => exact Nat.le_add_left 1 _
  | node k children =>
    change Level.comma ≤ k.level
    cases k with
    | binary op => exact le_trans (by decide) (binary_level_bounds op).1.le
    | update before op => cases before <;> exact Nat.le_add_left 1 _
    | unary | conditional | comma | assignment | addressOf | deref | field | arrow | subscript
    | cast | sizeof | parenthesized | call => exact Nat.le_add_left 1 _

theorem childrenWritten_one {k : Kind} {a : Expr} :
    Expr.childrenWritten k 0 [a] = true ↔ k.demands 0 ≤ a.level ∧ a.written = true := by
  simp [Expr.childrenWritten]

theorem childrenWritten_two {k : Kind} {a b : Expr} :
    Expr.childrenWritten k 0 [a, b] = true ↔ (k.demands 0 ≤ a.level ∧ a.written = true) ∧
      k.demands 1 ≤ b.level ∧ b.written = true := by
  simp [Expr.childrenWritten]

theorem childrenWritten_three {k : Kind} {a b c : Expr} :
    Expr.childrenWritten k 0 [a, b, c] = true ↔ (k.demands 0 ≤ a.level ∧ a.written = true) ∧
      (k.demands 1 ≤ b.level ∧ b.written = true) ∧ k.demands 2 ≤ c.level ∧ c.written = true := by
  simp [Expr.childrenWritten]

theorem argsWritten_level {i : Nat} (hi : 0 < i) {args : List Expr}
    (h : Expr.childrenWritten .call i args = true) : ∀ a ∈ args, Level.assignment ≤ a.level := by
  induction args generalizing i with
  | nil => simp
  | cons a rest ih =>
    obtain ⟨i, rfl⟩ := Nat.exists_eq_succ_of_ne_zero hi.ne'
    rw [Expr.childrenWritten, Bool.and_eq_true, Bool.and_eq_true, decide_eq_true_eq] at h
    exact List.forall_mem_cons.mpr ⟨h.1.1, ih (Nat.succ_pos _) h.2⟩

theorem childrenWritten_mem {k : Kind} {i : Nat} {children : List Expr}
    (h : Expr.childrenWritten k i children = true) : ∀ c ∈ children, c.written = true := by
  induction children generalizing i with
  | nil => simp
  | cons e rest ih =>
    rw [Expr.childrenWritten, Bool.and_eq_true, Bool.and_eq_true] at h
    exact List.forall_mem_cons.mpr ⟨h.1.2, ih h.2⟩

theorem written_one {k : Kind} {a : Expr} : (Expr.node k [a]).written = true ↔
    k.takes 1 = true ∧ k.demands 0 ≤ a.level ∧ a.written = true := by
  rw [Expr.written, Bool.and_eq_true, childrenWritten_one]
  rfl

theorem written_two {k : Kind} {a b : Expr} : (Expr.node k [a, b]).written = true ↔
    k.takes 2 = true ∧ (k.demands 0 ≤ a.level ∧ a.written = true) ∧
      k.demands 1 ≤ b.level ∧ b.written = true := by
  rw [Expr.written, Bool.and_eq_true, childrenWritten_two]
  rfl

theorem written_three {k : Kind} {a b c : Expr} : (Expr.node k [a, b, c]).written = true ↔
    k.takes 3 = true ∧ (k.demands 0 ≤ a.level ∧ a.written = true) ∧
      (k.demands 1 ≤ b.level ∧ b.written = true) ∧ k.demands 2 ≤ c.level ∧ c.written = true := by
  rw [Expr.written, Bool.and_eq_true, childrenWritten_three]
  rfl

theorem written_parenthesized {a : Expr} :
    (Expr.node .parenthesized [a]).written = true ↔ a.written = true := by
  rw [written_one]
  exact ⟨fun h => h.2.2, fun h => ⟨rfl, comma_le_level a, h⟩⟩

theorem left_written {k : Kind} {a : Expr} {rest : List Expr}
    (h : (Expr.node k (a :: rest)).written = true) : a.written = true := by
  rw [Expr.written, Bool.and_eq_true] at h
  exact childrenWritten_mem h.2 a List.mem_cons_self

/-- Induction over written trees. Operators before, behind and between operands are
taken together. -/
@[elab_as_elim]
theorem written_induct {motive : Expr → Prop} (val : ∀ v, v.literal = true → motive (.val v))
    (ident : ∀ x, motive (.ident x))
    (sizeofType : ∀ size, motive (.node (.sizeof size) []))
    (prefixed : ∀ (t : Token) k a, t.prefixes = some k → k.demands 0 ≤ a.level → motive a →
      motive (.node k [a]))
    (cast : ∀ ty a, Level.cast ≤ a.level → motive a → motive (.node (.cast ty) [a]))
    (parenthesized : ∀ a, Level.comma ≤ a.level → a.written = true → motive a →
      motive (.node .parenthesized [a]))
    (suffixed : ∀ (k : Kind) us a, k.suffix = some us → Level.postfixed ≤ a.level → motive a →
      motive (.node k [a]))
    (subscript : ∀ a i, Level.postfixed ≤ a.level → Level.comma ≤ i.level → motive a → motive i →
      motive (.node .subscript [a, i]))
    (call : ∀ g args, Level.postfixed ≤ g.level → motive g →
      (∀ a ∈ args, Level.assignment ≤ a.level ∧ a.written = true ∧ motive a) →
      motive (.node .call (g :: args)))
    (joined : ∀ (t : Token) k a b, t.infixes = some k → k.demands 0 ≤ a.level → k.demands 1 ≤ b.level →
      motive a → motive b → motive (.node k [a, b]))
    (conditional : ∀ c a b, Level.conditional < c.level → Level.comma ≤ a.level →
      Level.conditional ≤ b.level → motive c → motive a → motive b →
      motive (.node .conditional [c, a, b]))
    (e : Expr) (h : e.written = true) : motive e := by
  induction e with
  | val v => exact val v h
  | ident x => exact ident x
  | node k children ih =>
    rw [Expr.written, Bool.and_eq_true] at h
    obtain ⟨htakes, hchildren⟩ := h
    have hmem := childrenWritten_mem hchildren
    have hmotive : ∀ c ∈ children, motive c := fun c hc => ih c hc (hmem c hc)
    cases k with
    | unary op =>
      obtain ⟨a, rfl⟩ := List.length_eq_one_iff.mp (of_decide_eq_true htakes)
      rw [childrenWritten_one] at hchildren
      cases op with
      | plus => exact prefixed (.binary (.arith .add)) _ a rfl hchildren.1 (hmotive a (by simp))
      | minus => exact prefixed (.binary (.arith .sub)) _ a rfl hchildren.1 (hmotive a (by simp))
      | bitNot => exact prefixed .tilde _ a rfl hchildren.1 (hmotive a (by simp))
      | not => exact prefixed .bang _ a rfl hchildren.1 (hmotive a (by simp))
    | addressOf =>
      obtain ⟨a, rfl⟩ := List.length_eq_one_iff.mp (of_decide_eq_true htakes)
      rw [childrenWritten_one] at hchildren
      exact prefixed (.binary (.arith .bitAnd)) _ a rfl hchildren.1 (hmotive a (by simp))
    | deref =>
      obtain ⟨a, rfl⟩ := List.length_eq_one_iff.mp (of_decide_eq_true htakes)
      rw [childrenWritten_one] at hchildren
      exact prefixed (.binary (.arith .mul)) _ a rfl hchildren.1 (hmotive a (by simp))
    | sizeof size =>
      match children with
      | [] => exact sizeofType size
      | [a] =>
        rw [childrenWritten_one] at hchildren
        exact prefixed (.sizeof size) _ a rfl hchildren.1 (hmotive a (by simp))
      | _ :: _ :: _ => simp [Kind.takes] at htakes
    | update before op =>
      simp only [Kind.takes, Bool.and_eq_true, decide_eq_true_eq] at htakes
      obtain ⟨a, rfl⟩ := List.length_eq_one_iff.mp htakes.1
      rw [childrenWritten_one] at hchildren
      cases before with
      | true => exact prefixed (.update op) _ a rfl hchildren.1 (hmotive a (by simp))
      | false => exact suffixed _ _ a rfl hchildren.1 (hmotive a (by simp))
    | field f =>
      obtain ⟨a, rfl⟩ := List.length_eq_one_iff.mp (of_decide_eq_true htakes)
      rw [childrenWritten_one] at hchildren
      exact suffixed _ _ a rfl hchildren.1 (hmotive a (by simp))
    | arrow f =>
      obtain ⟨a, rfl⟩ := List.length_eq_one_iff.mp (of_decide_eq_true htakes)
      rw [childrenWritten_one] at hchildren
      exact suffixed _ _ a rfl hchildren.1 (hmotive a (by simp))
    | cast ty =>
      obtain ⟨a, rfl⟩ := List.length_eq_one_iff.mp (of_decide_eq_true htakes)
      rw [childrenWritten_one] at hchildren
      exact cast ty a hchildren.1 (hmotive a (by simp))
    | parenthesized =>
      obtain ⟨a, rfl⟩ := List.length_eq_one_iff.mp (of_decide_eq_true htakes)
      rw [childrenWritten_one] at hchildren
      exact parenthesized a hchildren.1 hchildren.2 (hmotive a (by simp))
    | subscript =>
      obtain ⟨a, i, rfl⟩ := List.length_eq_two.mp (of_decide_eq_true htakes)
      rw [childrenWritten_two] at hchildren
      exact subscript a i hchildren.1.1 hchildren.2.1 (hmotive a (by simp)) (hmotive i (by simp))
    | comma =>
      obtain ⟨a, b, rfl⟩ := List.length_eq_two.mp (of_decide_eq_true htakes)
      rw [childrenWritten_two] at hchildren
      exact joined .comma _ a b rfl hchildren.1.1 hchildren.2.1 (hmotive a (by simp))
        (hmotive b (by simp))
    | assignment op =>
      simp only [Kind.takes, Bool.and_eq_true, decide_eq_true_eq] at htakes
      obtain ⟨a, b, rfl⟩ := List.length_eq_two.mp htakes.1
      rw [childrenWritten_two] at hchildren
      exact joined (.assign op) _ a b rfl hchildren.1.1 hchildren.2.1 (hmotive a (by simp))
        (hmotive b (by simp))
    | binary op =>
      obtain ⟨a, b, rfl⟩ := List.length_eq_two.mp (of_decide_eq_true htakes)
      rw [childrenWritten_two] at hchildren
      exact joined (.binary op) _ a b rfl hchildren.1.1 hchildren.2.1 (hmotive a (by simp))
        (hmotive b (by simp))
    | conditional =>
      obtain ⟨c, a, b, rfl⟩ := List.length_eq_three.mp (of_decide_eq_true htakes)
      rw [childrenWritten_three] at hchildren
      exact conditional c a b hchildren.1.1 hchildren.2.1.1 hchildren.2.2.1 (hmotive c (by simp))
        (hmotive a (by simp)) (hmotive b (by simp))
    | call =>
      match children with
      | [] => simp [Kind.takes] at htakes
      | g :: args =>
        rw [Expr.childrenWritten, Bool.and_eq_true, Bool.and_eq_true, decide_eq_true_eq] at hchildren
        refine call g args hchildren.1.1 (hmotive g (by simp)) ?_
        intro a ha
        exact ⟨argsWritten_level (by omega) hchildren.2 a ha, hmem a (by simp [ha]), hmotive a (by simp [ha])⟩

section
variable {t : Token} {k : Kind} {us : List Token}

theorem arrange_prefixed (h : t.prefixes = some k) (a : List Token) : k.arrange [a] = t :: a := by
  unfold Token.prefixes at h
  split at h <;> cases h <;> rfl

theorem level_prefixed (h : t.prefixes = some k) : k.level = Level.unary := by
  unfold Token.prefixes at h
  split at h <;> cases h <;> rfl

theorem demands_prefixed (h : t.prefixes = some k) : Level.cast ≤ k.demands 0 := by
  have hunary : Level.cast ≤ Level.unary := by decide
  unfold Token.prefixes at h
  split at h <;> cases h <;> first | exact hunary | exact le_rfl

theorem arrange_suffixed (h : k.suffix = some us) (a : List Token) : k.arrange [a] = a ++ us := by
  unfold Kind.suffix at h
  split at h <;> cases h <;> rfl

theorem level_suffixed (h : k.suffix = some us) : k.level = Level.postfixed := by
  unfold Kind.suffix at h
  split at h <;> cases h <;> rfl

theorem arrange_joined (h : t.infixes = some k) (a b : List Token) :
    k.arrange [a, b] = a ++ t :: b := by
  unfold Token.infixes at h
  split at h <;> cases h <;> rfl

theorem level_le_demands (h : t.infixes = some k) : k.level ≤ k.demands 0 := by
  unfold Token.infixes at h
  split at h
  · cases h
    exact le_rfl
  · cases h
    exact (by decide : Level.assignment ≤ Level.unary)
  · cases h
    exact le_rfl
  · cases h

end

/-- The tokens that an expression may start with. -/
def Token.starts : Token → Bool
  | .literal _ | .name _ | .sizeofType _ | .lparen => true
  | t => t.prefixes.isSome

theorem starts_prefixed {t : Token} {k : Kind} (h : t.prefixes = some k) : t.starts = true := by
  unfold Token.prefixes at h
  split at h <;> cases h <;> rfl

theorem print_starts {e : Expr} (h : e.written = true) :
    ∃ t ts, e.print = t :: ts ∧ t.starts = true := by
  refine written_induct (motive := fun e => ∃ t ts, e.print = t :: ts ∧ t.starts = true)
    ?_ ?_ ?_ ?_ ?_ ?_ ?_ ?_ ?_ ?_ ?_ e h
  · exact fun v _ => ⟨.literal v, [], rfl, rfl⟩
  · exact fun x => ⟨.name x, [], rfl, rfl⟩
  · exact fun size => ⟨.sizeofType size, [], rfl, rfl⟩
  · intro t k a ht _ _
    exact ⟨t, a.print, arrange_prefixed ht a.print, starts_prefixed ht⟩
  · exact fun ty a _ _ => ⟨.lparen, _, rfl, rfl⟩
  · exact fun a _ _ _ => ⟨.lparen, _, rfl, rfl⟩
  · rintro k us a hk _ ⟨t, ts, ha, ht⟩
    refine ⟨t, ts ++ us, ?_, ht⟩
    rw [Expr.print, Expr.printAll, Expr.printAll, arrange_suffixed hk, ha, List.cons_append]
  · rintro a i _ _ ⟨t, ts, ha, ht⟩ _
    exact ⟨t, _, by rw [Expr.print, Expr.printAll, ha]; rfl, ht⟩
  · rintro g args _ ⟨t, ts, hg, ht⟩ _
    exact ⟨t, _, by rw [Expr.print, Expr.printAll, hg]; rfl, ht⟩
  · rintro t k a b hk _ _ ⟨u, ts, ha, hu⟩ _
    refine ⟨u, ts ++ t :: b.print, ?_, hu⟩
    rw [Expr.print, Expr.printAll, Expr.printAll, Expr.printAll, arrange_joined hk, ha,
      List.cons_append]
  · rintro c a b _ _ _ ⟨t, ts, hc, ht⟩ _ _
    exact ⟨t, _, by rw [Expr.print, Expr.printAll, hc]; rfl, ht⟩

theorem print_ne_nil {e : Expr} (h : e.written = true) : e.print ≠ [] := by
  obtain ⟨t, ts, hprint, -⟩ := print_starts h
  rw [hprint]
  exact List.cons_ne_nil t ts

/-- The tokens that an expression may end with. -/
def Token.ends : Token → Bool
  | .literal _ | .name _ | .sizeofType _ | .rparen | .rbracket | .update _ => true
  | _ => false

theorem print_ends {e : Expr} (h : e.written = true) :
    ∃ ts t, e.print = ts ++ [t] ∧ t.ends = true := by
  refine written_induct (motive := fun e => ∃ ts t, e.print = ts ++ [t] ∧ t.ends = true)
    ?_ ?_ ?_ ?_ ?_ ?_ ?_ ?_ ?_ ?_ ?_ e h
  · exact fun v _ => ⟨[], .literal v, rfl, rfl⟩
  · exact fun x => ⟨[], .name x, rfl, rfl⟩
  · exact fun size => ⟨[], .sizeofType size, rfl, rfl⟩
  · rintro t k a hk _ ⟨ts, u, ha, hu⟩
    refine ⟨t :: ts, u, ?_, hu⟩
    rw [Expr.print, Expr.printAll, Expr.printAll, arrange_prefixed hk, ha, List.cons_append]
  · rintro ty a _ ⟨ts, u, ha, hu⟩
    refine ⟨.lparen :: .type ty :: .rparen :: ts, u, ?_, hu⟩
    rw [Expr.print, Expr.printAll, Expr.printAll, ha]
    rfl
  · exact fun a _ _ _ => ⟨.lparen :: a.print, .rparen, rfl, rfl⟩
  · intro k us a hk _ _
    have hprint : (Expr.node k [a]).print = a.print ++ us := arrange_suffixed hk a.print
    rw [hprint]
    unfold Kind.suffix at hk
    split at hk <;> cases hk
    · exact ⟨a.print, _, rfl, rfl⟩
    · rename_i f
      exact ⟨a.print ++ [.dot], .name f, by simp, rfl⟩
    · rename_i f
      exact ⟨a.print ++ [.arrow], .name f, by simp, rfl⟩
  · intro a i _ _ _ _
    refine ⟨a.print ++ .lbracket :: i.print, .rbracket, ?_, rfl⟩
    simp [Expr.print, Expr.printAll, Kind.arrange]
  · intro g args _ _ _
    refine ⟨g.print ++ .lparen :: commaSeparated (Expr.printAll args), .rparen, ?_, rfl⟩
    simp [Expr.print, Expr.printAll, Kind.arrange]
  · rintro t k a b hk _ _ _ ⟨ts, u, hb, hu⟩
    refine ⟨a.print ++ t :: ts, u, ?_, hu⟩
    rw [Expr.print, Expr.printAll, Expr.printAll, Expr.printAll, arrange_joined hk, hb]
    simp
  · rintro c a b _ _ _ _ _ ⟨ts, u, hb, hu⟩
    refine ⟨c.print ++ .question :: (a.print ++ .colon :: ts), u, ?_, hu⟩
    simp [Expr.print, Expr.printAll, Kind.arrange, hb]

/-! ## Places in a tree -/

theorem childrenWritten_split {k : Kind} {i : Nat} {pre post : List Expr} {e : Expr} :
    Expr.childrenWritten k i (pre ++ e :: post) = true ↔
      Expr.childrenWritten k i pre = true ∧
      (k.demands (i + pre.length) ≤ e.level ∧ e.written = true) ∧
      Expr.childrenWritten k (i + pre.length + 1) post = true := by
  induction pre generalizing i with
  | nil => simp [Expr.childrenWritten]
  | cons a pre ih =>
    have hi : i + 1 + pre.length = i + (pre.length + 1) := by omega
    simp only [List.cons_append, Expr.childrenWritten, Bool.and_eq_true, decide_eq_true_eq, ih, hi,
      List.length_cons]
    tauto

/-- The least level of what stands in the parents. -/
def holeDemands : List Frame → Nat
  | [] => Level.comma
  | frame :: _ => frame.kind.demands frame.pre.length

/-- What may stand in the parents is what is written and binds tightly enough. -/
theorem written_plug_iff {parents : List Frame} {e : Expr} (h : (plug parents e).written = true)
    {e' : Expr} : (plug parents e').written = true ↔
      holeDemands parents ≤ e'.level ∧ e'.written = true := by
  induction parents generalizing e e' with
  | nil => exact ⟨fun h => ⟨comma_le_level e', h⟩, fun h => h.2⟩
  | cons frame parents ih =>
    have hnode := ((ih h).mp h).2
    rw [Expr.written, Bool.and_eq_true, childrenWritten_split, Nat.zero_add] at hnode
    obtain ⟨htakes, hpre, -, hpost⟩ := hnode
    rw [plug, ih h, Expr.level, Expr.written, Bool.and_eq_true, childrenWritten_split,
      Nat.zero_add]
    have hlevel := ((ih h).mp h).1
    rw [Expr.level] at hlevel
    rw [List.length_append, List.length_cons] at htakes ⊢
    exact ⟨fun h => h.2.2.2.1, fun h => ⟨hlevel, htakes, hpre, h, hpost⟩⟩

theorem printAll_append (a b : List Expr) :
    Expr.printAll (a ++ b) = Expr.printAll a ++ Expr.printAll b := by
  induction a with
  | nil => rfl
  | cons e a ih => rw [List.cons_append, Expr.printAll, ih, Expr.printAll, List.cons_append]

theorem printAll_length (children : List Expr) :
    (Expr.printAll children).length = children.length := by
  induction children with
  | nil => rfl
  | cons e rest ih => rw [Expr.printAll, List.length_cons, ih, List.length_cons]

theorem commaSeparated_split (pre post : List (List Token)) :
    ∃ left right, ∀ x, commaSeparated (pre ++ x :: post) = left ++ x ++ right := by
  induction pre with
  | nil =>
    cases post with
    | nil => exact ⟨[], [], fun x => by simp [commaSeparated]⟩
    | cons q post => exact ⟨[], .comma :: commaSeparated (q :: post), fun x => by simp [commaSeparated]⟩
  | cons p pre ih =>
    obtain ⟨left, right, h⟩ := ih
    refine ⟨p ++ .comma :: left, right, ?_⟩
    intro x
    have hcons : commaSeparated (p :: (pre ++ x :: post)) =
        p ++ .comma :: commaSeparated (pre ++ x :: post) := by
      cases pre <;> rfl
    rw [List.cons_append, hcons, h]
    simp

theorem arrange_split {k : Kind} {pre post : List (List Token)}
    (h : k.takes (pre.length + (post.length + 1)) = true) :
    ∃ left right, ∀ x, k.arrange (pre ++ x :: post) = left ++ x ++ right := by
  have hone : pre.length + (post.length + 1) = 1 → pre = [] ∧ post = [] := fun h =>
    ⟨List.eq_nil_of_length_eq_zero (by omega), List.eq_nil_of_length_eq_zero (by omega)⟩
  have htwo : pre.length + (post.length + 1) = 2 →
      (pre = [] ∧ ∃ b, post = [b]) ∨ (∃ a, pre = [a]) ∧ post = [] := by
    intro h
    match pre, post, h with
    | [], [b], _ => exact .inl ⟨rfl, b, rfl⟩
    | [a], [], _ => exact .inr ⟨⟨a, rfl⟩, rfl⟩
    | [], [], h | [], _ :: _ :: _, h | [_], _ :: _, h | _ :: _ :: _, _, h =>
      simp only [List.length_cons, List.length_nil] at h
      omega
  cases k with
  | unary op =>
    obtain ⟨rfl, rfl⟩ := hone (of_decide_eq_true h)
    exact ⟨[op.token], [], fun x => by simp [Kind.arrange]⟩
  | addressOf =>
    obtain ⟨rfl, rfl⟩ := hone (of_decide_eq_true h)
    exact ⟨[.binary (.arith .bitAnd)], [], fun x => by simp [Kind.arrange]⟩
  | deref =>
    obtain ⟨rfl, rfl⟩ := hone (of_decide_eq_true h)
    exact ⟨[.binary (.arith .mul)], [], fun x => by simp [Kind.arrange]⟩
  | sizeof size =>
    have hle : pre.length + (post.length + 1) ≤ 1 := of_decide_eq_true h
    obtain ⟨rfl, rfl⟩ := hone (by omega)
    exact ⟨[.sizeof size], [], fun x => by simp [Kind.arrange]⟩
  | update before op =>
    simp only [Kind.takes, Bool.and_eq_true, decide_eq_true_eq] at h
    obtain ⟨rfl, rfl⟩ := hone h.1
    cases before with
    | true => exact ⟨[.update op], [], fun x => by simp [Kind.arrange]⟩
    | false => exact ⟨[], [.update op], fun x => by simp [Kind.arrange]⟩
  | field f =>
    obtain ⟨rfl, rfl⟩ := hone (of_decide_eq_true h)
    exact ⟨[], [.dot, .name f], fun x => by simp [Kind.arrange]⟩
  | arrow f =>
    obtain ⟨rfl, rfl⟩ := hone (of_decide_eq_true h)
    exact ⟨[], [.arrow, .name f], fun x => by simp [Kind.arrange]⟩
  | cast ty =>
    obtain ⟨rfl, rfl⟩ := hone (of_decide_eq_true h)
    exact ⟨[.lparen, .type ty, .rparen], [], fun x => by simp [Kind.arrange]⟩
  | parenthesized =>
    obtain ⟨rfl, rfl⟩ := hone (of_decide_eq_true h)
    exact ⟨[.lparen], [.rparen], fun x => by simp [Kind.arrange]⟩
  | subscript =>
    obtain ⟨rfl, b, rfl⟩ | ⟨⟨a, rfl⟩, rfl⟩ := htwo (of_decide_eq_true h)
    · exact ⟨[], .lbracket :: (b ++ [.rbracket]), fun x => by simp [Kind.arrange]⟩
    · exact ⟨a ++ [.lbracket], [.rbracket], fun x => by simp [Kind.arrange]⟩
  | binary op =>
    obtain ⟨rfl, b, rfl⟩ | ⟨⟨a, rfl⟩, rfl⟩ := htwo (of_decide_eq_true h)
    · exact ⟨[], .binary op :: b, fun x => by simp [Kind.arrange]⟩
    · exact ⟨a ++ [.binary op], [], fun x => by simp [Kind.arrange]⟩
  | comma =>
    obtain ⟨rfl, b, rfl⟩ | ⟨⟨a, rfl⟩, rfl⟩ := htwo (of_decide_eq_true h)
    · exact ⟨[], .comma :: b, fun x => by simp [Kind.arrange]⟩
    · exact ⟨a ++ [.comma], [], fun x => by simp [Kind.arrange]⟩
  | assignment op =>
    simp only [Kind.takes, Bool.and_eq_true, decide_eq_true_eq] at h
    obtain ⟨rfl, b, rfl⟩ | ⟨⟨a, rfl⟩, rfl⟩ := htwo h.1
    · exact ⟨[], .assign op :: b, fun x => by simp [Kind.arrange]⟩
    · exact ⟨a ++ [.assign op], [], fun x => by simp [Kind.arrange]⟩
  | conditional =>
    have hthree : pre.length + (post.length + 1) = 3 := of_decide_eq_true h
    match pre, post, hthree with
    | [], [a, b], _ => exact ⟨[], .question :: (a ++ .colon :: b), fun x => by simp [Kind.arrange]⟩
    | [c], [b], _ => exact ⟨c ++ [.question], .colon :: b, fun x => by simp [Kind.arrange]⟩
    | [c, a], [], _ =>
      exact ⟨c ++ .question :: (a ++ [.colon]), [], fun x => by simp [Kind.arrange]⟩
    | [_], _ :: _ :: _, h | [_, _], _ :: _, h | _ :: _ :: _ :: _, _, h =>
      simp only [List.length_cons] at h
      omega
  | call =>
    cases pre with
    | nil => exact ⟨[], .lparen :: (commaSeparated post ++ [.rparen]), fun x => by simp [Kind.arrange]⟩
    | cons g pre =>
      obtain ⟨left, right, hargs⟩ := commaSeparated_split pre post
      refine ⟨g ++ .lparen :: left, right ++ [.rparen], ?_⟩
      intro x
      rw [List.cons_append, Kind.arrange, hargs]
      simp

theorem print_plug {parents : List Frame} {e : Expr} (h : (plug parents e).written = true) :
    ∃ left right, ∀ e', (plug parents e').print = left ++ e'.print ++ right := by
  induction parents generalizing e with
  | nil => exact ⟨[], [], fun e' => by simp [plug]⟩
  | cons frame parents ih =>
    obtain ⟨left, right, hprint⟩ := ih h
    have hnode : (Expr.node frame.kind (frame.pre ++ e :: frame.post)).written = true :=
      ((@written_plug_iff parents _ h _).mp h).2
    rw [Expr.written, Bool.and_eq_true, List.length_append, List.length_cons,
      ← printAll_length frame.pre, ← printAll_length frame.post] at hnode
    obtain ⟨left', right', harrange⟩ := arrange_split hnode.1
    refine ⟨left ++ left', right' ++ right, ?_⟩
    intro e'
    rw [plug, hprint, Expr.print, printAll_append, Expr.printAll, harrange]
    simp

end MeleeHarness.Lib.C
