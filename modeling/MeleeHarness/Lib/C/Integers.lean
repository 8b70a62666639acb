import MeleeHarness.Lib.C.Grammar

/-!
# A subset of C: the value of an expression without side effects

Integers of one width that wrap around. What is no integer, and what names and other
nodes mean, is left to the environment.

* `eval_plug`: the value of the whole depends on that of a part only;
* `eval_graft`: an operator may be grouped with the first operand of its right side
  if the operators on the way associate.
-/

namespace MeleeHarness.Lib.C

/-- What an expression means: integers of `w` bits, and whatever else there is. -/
structure Env (w : Nat) (V : Type) where
  signed : Bool
  int : BitVec w → V
  toInt : V → Option (BitVec w)
  toInt_int : ∀ n, toInt (int n) = some n
  undefined : V
  toInt_undefined : toInt undefined = none
  name : Name → V
  other : Kind → List V → V

section
variable {w : Nat}

def bitOf (b : Bool) : BitVec w := if b then 1 else 0

/-- Division by zero and shifts by more than the width have no value. -/
def arithOn (signed : Bool) (a b : BitVec w) : ArithOp → Option (BitVec w)
  | .add => some (a + b)
  | .sub => some (a - b)
  | .mul => some (a * b)
  | .div => if b = 0 then none else some (if signed then a.sdiv b else a / b)
  | .mod => if b = 0 then none else some (if signed then a.srem b else a % b)
  | .shl => if b.toNat < w then some (a <<< b.toNat) else none
  | .shr =>
    if b.toNat < w then some (if signed then a.sshiftRight b.toNat else a >>> b.toNat) else none
  | .bitAnd => some (a &&& b)
  | .bitOr => some (a ||| b)
  | .bitXor => some (a ^^^ b)
  | .lt => some (bitOf (if signed then a.slt b else a.ult b))
  | .le => some (bitOf (if signed then a.sle b else a.ule b))
  | .gt => some (bitOf (if signed then b.slt a else b.ult a))
  | .ge => some (bitOf (if signed then b.sle a else b.ule a))
  | .eq => some (bitOf (a = b))
  | .ne => some (bitOf (a ≠ b))

def unaryOn (a : BitVec w) : UnaryOp → BitVec w
  | .plus => a
  | .minus => -a
  | .bitNot => ~~~a
  | .not => bitOf (a = 0)

end

namespace Env
variable {w : Nat} {V : Type} (env : Env w V)

def ofInt (n : Option (BitVec w)) : V := n.elim env.undefined env.int

def arith (op : ArithOp) (a b : V) : V :=
  env.ofInt ((env.toInt a).bind fun m => (env.toInt b).bind fun n => arithOn env.signed m n op)

/-- Whether an integer is not zero. -/
def isTrue (a : V) : Option Bool := (env.toInt a).map (· ≠ 0)

def ofBool (b : Option Bool) : V := env.ofInt (b.map bitOf)

def apply : Kind → List V → V
  | .unary op, [a] => env.ofInt ((env.toInt a).map (unaryOn · op))
  | .binary (.arith op), [a, b] | .assignment (some op), [a, b] => env.arith op a b
  | .binary .logAnd, [a, b] =>
    env.ofBool ((env.isTrue a).bind fun t => if t then env.isTrue b else some false)
  | .binary .logOr, [a, b] =>
    env.ofBool ((env.isTrue a).bind fun t => if t then some true else env.isTrue b)
  | .conditional, [c, a, b] => (env.isTrue c).elim env.undefined fun t => if t then a else b
  | .comma, [_, b] | .assignment none, [_, b] => b
  | .parenthesized, [a] => a
  | k, values => env.other k values

mutual

def eval : Expr → V
  | .val (.int n) => env.int (BitVec.ofInt w n)
  | .val (.ptr _ _) | .val (.fn _) => env.undefined
  | .ident x => env.name x
  | .node k children => env.apply k (evalAll children)

def evalAll : List Expr → List V
  | [] => []
  | e :: rest => eval e :: evalAll rest

end

variable {env}

theorem evalAll_append (a b : List Expr) :
    env.evalAll (a ++ b) = env.evalAll a ++ env.evalAll b := by
  induction a with
  | nil => rfl
  | cons e a ih => rw [List.cons_append, evalAll, ih, evalAll, List.cons_append]

/-- The value of the whole depends on the value of a part only. -/
theorem eval_plug {parents : List Frame} {e e' : Expr} (h : env.eval e = env.eval e') :
    env.eval (plug parents e) = env.eval (plug parents e') := by
  induction parents generalizing e e' with
  | nil => exact h
  | cons frame parents ih =>
    apply ih
    rw [eval, eval, evalAll_append, evalAll_append, evalAll, evalAll, h]

theorem eval_binary (op : ArithOp) (a b : Expr) :
    env.eval (.node (.binary (.arith op)) [a, b]) = env.arith op (env.eval a) (env.eval b) := rfl

theorem toInt_ofInt (n : Option (BitVec w)) : env.toInt (env.ofInt n) = n := by
  cases n with
  | none => exact env.toInt_undefined
  | some n => exact env.toInt_int n

theorem arith_swap {op op' : ArithOp} (h : ∀ (a b : BitVec w),
    arithOn env.signed b a op' = arithOn env.signed a b op) (a b : V) :
    env.arith op' b a = env.arith op a b := by
  unfold arith
  cases env.toInt a with
  | none => cases env.toInt b <;> rfl
  | some m =>
    cases env.toInt b with
    | none => rfl
    | some n => exact congrArg env.ofInt (h m n)

end Env

/-! ## Regrouping -/

/-- The tree of `b op a`, if `a` is put behind the operator without parentheses: the
operator goes with the first operand of `a` at its level. -/
def graft (b : Expr) (op : BinaryOp) : Expr → Expr
  | .node (.binary o) [x, y] =>
    if o.level = op.level then .node (.binary o) [graft b op x, y]
    else .node (.binary op) [b, .node (.binary o) [x, y]]
  | a => .node (.binary op) [b, a]

/-- `b op (x o y)` is `(b op x) o y`. -/
def ArithOp.associates : ArithOp → ArithOp → Bool
  | .add, .add | .add, .sub | .mul, .mul | .bitAnd, .bitAnd | .bitOr, .bitOr
  | .bitXor, .bitXor => true
  | _, _ => false

/-- An operator may be grouped with the first operand on its right. -/
def regroups (op : ArithOp) : Expr → Bool
  | .node (.binary (.arith o)) [x, _] =>
    (BinaryOp.arith o).level ≠ (BinaryOp.arith op).level || op.associates o && regroups op x
  | _ => true

theorem graft_print (b : Expr) (op : BinaryOp) (a : Expr) :
    (graft b op a).print = b.print ++ .binary op :: a.print := by
  fun_induction graft b op a with
  | case1 o x y hlevel ih =>
    simp only [Expr.print, Expr.printAll, Kind.arrange, ih, List.append_assoc, List.cons_append]
  | case2 => rfl
  | case3 => rfl

theorem graft_level (b : Expr) (op : BinaryOp) (a : Expr) : (graft b op a).level = op.level := by
  fun_cases graft b op a with
  | case1 o x y hlevel => exact hlevel
  | case2 => rfl
  | case3 => rfl

theorem written_binary {op : BinaryOp} {a b : Expr} :
    (Expr.node (.binary op) [a, b]).written = true ↔
      (op.level ≤ a.level ∧ a.written = true) ∧ op.level < b.level ∧ b.written = true := by
  rw [written_two]
  exact ⟨fun h => h.2, fun h => ⟨rfl, h⟩⟩

/-- A node that is no binary one binds looser or tighter than all of them. -/
theorem Kind.level_bounds (k : Kind) :
    (∃ op, k = .binary op) ∨ k.level ≤ Level.conditional ∨ Level.cast ≤ k.level := by
  have hlow : Level.comma ≤ Level.conditional ∧ Level.assignment ≤ Level.conditional := by decide
  have hhigh : Level.cast ≤ Level.unary ∧ Level.cast ≤ Level.postfixed ∧
    Level.cast ≤ Level.primary := by decide
  cases k with
  | binary op => exact .inl ⟨op, rfl⟩
  | comma => exact .inr (.inl hlow.1)
  | assignment => exact .inr (.inl hlow.2)
  | conditional => exact .inr (.inl le_rfl)
  | cast => exact .inr (.inr le_rfl)
  | unary | addressOf | deref | sizeof => exact .inr (.inr hhigh.1)
  | update before =>
    cases before with
    | true => exact .inr (.inr hhigh.1)
    | false => exact .inr (.inr hhigh.2.1)
  | call | subscript | field | arrow => exact .inr (.inr hhigh.2.1)
  | parenthesized => exact .inr (.inr hhigh.2.2)

theorem level_of_not_binary {op : BinaryOp} {a : Expr} (h : ∀ o x y, a ≠ .node (.binary o) [x, y])
    (hwritten : a.written = true) (hlevel : op.level ≤ a.level) : op.level < a.level := by
  have hop := binary_level_bounds op
  have hprimary : Level.cast < Level.primary := by decide
  cases a with
  | val | ident => exact hop.2.trans hprimary
  | node k children =>
    rw [Expr.level] at hlevel ⊢
    rcases k.level_bounds with ⟨o, rfl⟩ | hlow | hhigh
    · rw [Expr.written, Bool.and_eq_true] at hwritten
      obtain ⟨x, y, rfl⟩ := List.length_eq_two.mp (of_decide_eq_true hwritten.1)
      exact absurd rfl (h o x y)
    · omega
    · omega

theorem graft_written {b : Expr} {op : BinaryOp} {a : Expr} (hb : b.written = true)
    (hblevel : op.level ≤ b.level) (ha : a.written = true) (halevel : op.level ≤ a.level) :
    (graft b op a).written = true := by
  fun_induction graft b op a with
  | case1 o x y hlevel ih =>
    rw [written_binary] at ha ⊢
    obtain ⟨⟨hxlevel, hx⟩, hy⟩ := ha
    refine ⟨⟨?_, ih hx (hlevel ▸ hxlevel)⟩, hy⟩
    rw [graft_level, hlevel]
  | case2 o x y hlevel =>
    rw [written_binary]
    exact ⟨⟨hblevel, hb⟩, lt_of_le_of_ne halevel (Ne.symm hlevel), ha⟩
  | case3 a hnot =>
    rw [written_binary]
    exact ⟨⟨hblevel, hb⟩, level_of_not_binary (fun o x y => hnot o x y) ha halevel, ha⟩

namespace Env
variable {w : Nat} {V : Type} {env : Env w V}

theorem arith_associates {op o : ArithOp} (h : op.associates o = true) (a b c : V) :
    env.arith o (env.arith op a b) c = env.arith op a (env.arith o b c) := by
  have htotal : ∀ m n p : BitVec w,
      (arithOn env.signed m n op).bind (arithOn env.signed · p o) =
        (arithOn env.signed n p o).bind (arithOn env.signed m · op) := by
    intro m n p
    unfold ArithOp.associates at h
    split at h
    · simp [arithOn, BitVec.add_assoc]
    · simp [arithOn, BitVec.sub_eq_add_neg, BitVec.add_assoc]
    · simp [arithOn, BitVec.mul_assoc]
    · simp [arithOn, BitVec.and_assoc]
    · simp [arithOn, BitVec.or_assoc]
    · simp [arithOn, BitVec.xor_assoc]
    · cases h
  unfold arith
  rw [toInt_ofInt, toInt_ofInt]
  cases env.toInt a with
  | none => rfl
  | some m =>
    cases env.toInt b with
    | none => rfl
    | some n =>
      cases env.toInt c with
      | none => cases hn : arithOn env.signed m n op <;> simp [hn]
      | some p => exact congrArg env.ofInt (htotal m n p)

/-- An operator grouped with the first operand on its right, where that may be. -/
theorem eval_graft {b : Expr} {op : ArithOp} {a : Expr} (h : regroups op a = true) :
    env.eval (graft b (.arith op) a) = env.arith op (env.eval b) (env.eval a) := by
  fun_induction regroups op a with
  | case1 o x y ih =>
    rw [graft]
    by_cases hlevel : (BinaryOp.arith o).level = (BinaryOp.arith op).level
    · simp only [hlevel, ne_eq, not_true_eq_false, decide_false, Bool.false_or,
        Bool.and_eq_true] at h
      rw [if_pos hlevel, eval_binary, eval_binary, ih h.2, arith_associates h.1]
    · rw [if_neg hlevel]
      rfl
  | case2 a hnot =>
    unfold graft
    split
    · rename_i o x y
      cases o with
      | arith o => exact absurd rfl (hnot o x y)
      | logAnd =>
        have hlevel : BinaryOp.logAnd.level ≠ (BinaryOp.arith op).level := by cases op <;> decide
        rw [if_neg hlevel]
        rfl
      | logOr =>
        have hlevel : BinaryOp.logOr.level ≠ (BinaryOp.arith op).level := by cases op <;> decide
        rw [if_neg hlevel]
        rfl
    · rfl

end Env

end MeleeHarness.Lib.C
