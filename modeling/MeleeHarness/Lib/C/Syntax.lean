import MeleeHarness.Lib.Text

/-!
# A subset of C: syntax

Expressions as a parser's tree gives them, a kind of node over the list of its
children, and the statements around them. A value stands for a literal, or for
what a subexpression has been evaluated to. A type is its spelling.
-/

namespace MeleeHarness.Lib.C

abbrev Name := Text

abbrev Block := Nat

inductive Val where
  | int (n : Int)
  | ptr (b : Block) (off : Int)
  | fn (f : Name)
  deriving DecidableEq, Repr

inductive UnaryOp where
  | plus | minus | bitNot | not
  deriving DecidableEq, Repr

inductive ArithOp where
  | add | sub | mul | div | mod | shl | shr | bitAnd | bitOr | bitXor
  | lt | le | gt | ge | eq | ne
  deriving DecidableEq, Repr

inductive BinaryOp where
  | arith (op : ArithOp)
  | logAnd
  | logOr
  deriving DecidableEq, Repr

inductive Kind where
  | unary (op : UnaryOp)
  | binary (op : BinaryOp)
  | conditional
  | comma
  | assignment (op : Option ArithOp)
  | update (before : Bool) (op : ArithOp)
  | addressOf
  | deref
  | field (member : Name)
  | arrow (member : Name)
  | subscript
  | cast (ty : Text)
  | sizeof (size : Val)
  | parenthesized
  | call
  deriving DecidableEq, Repr

inductive Expr where
  | val (v : Val)
  | ident (x : Name)
  | node (k : Kind) (children : List Expr)

@[elab_as_elim, induction_eliminator]
theorem Expr.induct {motive : Expr → Prop} (val : ∀ v, motive (.val v))
    (ident : ∀ x, motive (.ident x))
    (node : ∀ k children, (∀ c ∈ children, motive c) → motive (.node k children)) (e : Expr) :
    motive e := by
  refine @Expr.rec motive (fun children => ∀ c ∈ children, motive c) val ident node ?_ ?_ e
  · intro c hc
    cases hc
  · intro c rest hc hrest d hd
    rcases List.mem_cons.mp hd with rfl | hd
    · exact hc
    · exact hrest d hd

/-- A parent in an expression, with the children on either side of the one below. -/
structure Frame where
  kind : Kind
  pre : List Expr
  post : List Expr

/-- An expression in its parents, which are given from the inside out. -/
def plug : List Frame → Expr → Expr
  | [], e => e
  | frame :: parents, e => plug parents (.node frame.kind (frame.pre ++ e :: frame.post))

/-- The value of an expression that has been evaluated. -/
def Expr.val? : Expr → Option Val
  | .val v => some v
  | _ => none

/-- Whether an expression is evaluated for its value or for the place it denotes. -/
inductive Mode where
  | value
  | place
  deriving DecidableEq, Repr

/-- How a child is used, by a node that is itself used as `outer`. -/
def Kind.use (outer : Mode) : Kind → Nat → Mode
  | .assignment _, 0 | .update _ _, 0 | .addressOf, 0 | .field _, 0 => .place
  | .parenthesized, _ => outer
  | _, _ => .value

/-- The children that are evaluated before the node itself is: all of them, in any
order, but not what waits for the first operand and not the operand of `sizeof`. -/
def Kind.evaluates : Kind → Nat → Bool
  | .binary .logAnd, i | .binary .logOr, i | .conditional, i | .comma, i => i = 0
  | .sizeof _, _ => false
  | _, _ => true

/-- The node stores to its first child or takes its address. -/
def Kind.grabs : Kind → Bool
  | .assignment _ | .update _ _ | .addressOf => true
  | _ => false

/-- A local is kept in memory if its address may be taken, and otherwise apart from
it, where no pointer reaches. The labels of a `switch` give the place in its body
that a value, or any other value, leads to. -/
inductive Stmt where
  | expression (e : Expr)
  | declaration (x : Name) (ty : Text) (inMemory : Bool) (init : Option Expr)
  | compound (items : List Stmt)
  | ifElse (c : Expr) (t f : Stmt)
  | whileDo (c : Expr) (body : Stmt)
  | doWhile (body : Stmt) (c : Expr)
  | forDo (init c step : Option Expr) (body : Stmt)
  | switch (e : Expr) (labels : List (Option Val × Nat)) (items : List Stmt)
  | ret (e : Option Expr)
  | brk
  | cont

/-! ## Subexpressions -/

mutual

/-- An expression and all expressions in it, the last child's first. -/
def Expr.iterSubtree : Expr → List Expr
  | .node k children => .node k children :: iterChildren children
  | e => [e]

def Expr.iterChildren : List Expr → List Expr
  | [] => []
  | e :: rest => iterChildren rest ++ e.iterSubtree

end

def Expr.ident? : Expr → Option Name
  | .ident x => some x
  | _ => none

/-- The names that an expression mentions. -/
def Expr.names (e : Expr) : List Name := e.iterSubtree.filterMap Expr.ident?

/-- The variable whose own storage a place is part of. -/
def Expr.placeBase : Expr → Option Name
  | .ident x => some x
  | .node (.field _) [e] | .node .parenthesized [e] => e.placeBase
  | _ => none

/-! ## Other names -/

mutual

def Expr.rename (σ : Name → Name) : Expr → Expr
  | .val v => .val v
  | .ident x => .ident (σ x)
  | .node k children => .node k (renameAll σ children)

def Expr.renameAll (σ : Name → Name) : List Expr → List Expr
  | [] => []
  | e :: rest => e.rename σ :: renameAll σ rest

end

mutual

def Stmt.rename (σ : Name → Name) : Stmt → Stmt
  | .expression e => .expression (e.rename σ)
  | .declaration x ty inMemory init => .declaration (σ x) ty inMemory (init.map (·.rename σ))
  | .compound items => .compound (renameItems σ items)
  | .ifElse c t f => .ifElse (c.rename σ) (t.rename σ) (f.rename σ)
  | .whileDo c body => .whileDo (c.rename σ) (body.rename σ)
  | .doWhile body c => .doWhile (body.rename σ) (c.rename σ)
  | .forDo init c step body =>
    .forDo (init.map (·.rename σ)) (c.map (·.rename σ)) (step.map (·.rename σ)) (body.rename σ)
  | .switch e labels items => .switch (e.rename σ) labels (renameItems σ items)
  | .ret e => .ret (e.map (·.rename σ))
  | .brk => .brk
  | .cont => .cont

def Stmt.renameItems (σ : Name → Name) : List Stmt → List Stmt
  | [] => []
  | s :: rest => s.rename σ :: renameItems σ rest

end

/-- The locals that a statement itself declares in the scope it stands in. -/
def Stmt.declares : Stmt → List Name
  | .declaration x _ _ _ => [x]
  | _ => []

mutual

/-- All locals that are declared in a statement. -/
def Stmt.locals : Stmt → List Name
  | .declaration x _ _ _ => [x]
  | .compound items | .switch _ _ items => itemsLocals items
  | .ifElse _ t f => t.locals ++ f.locals
  | .whileDo _ body | .doWhile body _ | .forDo _ _ _ body => body.locals
  | .expression _ | .ret _ | .brk | .cont => []

def Stmt.itemsLocals : List Stmt → List Name
  | [] => []
  | s :: rest => s.locals ++ itemsLocals rest

end

theorem Stmt.declares_locals {s : Stmt} {x : Name} (h : x ∈ s.declares) : x ∈ s.locals := by
  cases s with
  | declaration => exact h
  | expression | compound | ifElse | whileDo | doWhile | forDo | switch | ret | brk | cont =>
    cases h

mutual

/-- The expressions of a statement have a property, below declarations of `Γ`. -/
def Stmt.Each (P : List Name → Expr → Prop) (Γ : List Name) : Stmt → Prop
  | .expression e => P Γ e
  | .declaration x _ _ init => ∀ e ∈ init, P (x :: Γ) e
  | .compound items => EachItem P Γ items
  | .ifElse c t f => P Γ c ∧ t.Each P Γ ∧ f.Each P Γ
  | .whileDo c body | .doWhile body c => P Γ c ∧ body.Each P Γ
  | .forDo init c step body =>
    (∀ e ∈ init, P Γ e) ∧ (∀ e ∈ c, P Γ e) ∧ (∀ e ∈ step, P Γ e) ∧ body.Each P Γ
  | .switch e _ items => P Γ e ∧ EachItem P Γ items
  | .ret value => ∀ e ∈ value, P Γ e
  | .brk | .cont => True

def Stmt.EachItem (P : List Name → Expr → Prop) (Γ : List Name) : List Stmt → Prop
  | [] => True
  | s :: rest => s.Each P Γ ∧ EachItem P (s.declares ++ Γ) rest

end

mutual

/-- The expressions of a statement. -/
def Stmt.exprs : Stmt → List Expr
  | .expression e => [e]
  | .declaration _ _ _ init => init.toList
  | .compound items => itemsExprs items
  | .ifElse c t f => c :: (t.exprs ++ f.exprs)
  | .whileDo c body | .doWhile body c => c :: body.exprs
  | .forDo init c step body => init.toList ++ c.toList ++ step.toList ++ body.exprs
  | .switch e _ items => e :: itemsExprs items
  | .ret e => e.toList
  | .brk | .cont => []

def Stmt.itemsExprs : List Stmt → List Expr
  | [] => []
  | s :: rest => s.exprs ++ itemsExprs rest

end

section
variable {P P' : List Name → Expr → Prop} {Q : Name → Prop}

mutual

/-- What follows of the expressions of a statement, where the locals that are declared
have a property. -/
theorem Stmt.Each.imp (himp : ∀ Γ e, (∀ x ∈ Γ, Q x) → P Γ e → P' Γ e) :
    ∀ {Γ : List Name} (s : Stmt), (∀ x ∈ Γ, Q x) → (∀ x ∈ s.locals, Q x) → s.Each P Γ → s.Each P' Γ
  | _, .expression _, hΓ, _, h => himp _ _ hΓ h
  | _, .declaration x _ _ _, hΓ, hs, h => fun e he =>
    himp _ _ (List.forall_mem_cons.mpr ⟨hs x List.mem_cons_self, hΓ⟩) (h e he)
  | _, .compound items, hΓ, hs, h => EachItem.imp himp items hΓ hs h
  | _, .ifElse _ t f, hΓ, hs, ⟨hc, ht, hf⟩ =>
    ⟨himp _ _ hΓ hc, Each.imp himp t hΓ (fun x hx => hs x (List.mem_append_left _ hx)) ht,
      Each.imp himp f hΓ (fun x hx => hs x (List.mem_append_right _ hx)) hf⟩
  | _, .whileDo _ body, hΓ, hs, ⟨hc, hbody⟩ => ⟨himp _ _ hΓ hc, Each.imp himp body hΓ hs hbody⟩
  | _, .doWhile body _, hΓ, hs, ⟨hc, hbody⟩ => ⟨himp _ _ hΓ hc, Each.imp himp body hΓ hs hbody⟩
  | _, .forDo _ _ _ body, hΓ, hs, ⟨hinit, hc, hstep, hbody⟩ =>
    ⟨fun e he => himp _ _ hΓ (hinit e he), fun e he => himp _ _ hΓ (hc e he),
      fun e he => himp _ _ hΓ (hstep e he), Each.imp himp body hΓ hs hbody⟩
  | _, .switch _ _ items, hΓ, hs, ⟨he, hitems⟩ =>
    ⟨himp _ _ hΓ he, EachItem.imp himp items hΓ hs hitems⟩
  | _, .ret _, hΓ, _, h => fun e he => himp _ _ hΓ (h e he)
  | _, .brk, _, _, _ => trivial
  | _, .cont, _, _, _ => trivial

theorem Stmt.EachItem.imp (himp : ∀ Γ e, (∀ x ∈ Γ, Q x) → P Γ e → P' Γ e) :
    ∀ {Γ : List Name} (items : List Stmt), (∀ x ∈ Γ, Q x) → (∀ x ∈ itemsLocals items, Q x) →
      EachItem P Γ items → EachItem P' Γ items
  | _, [], _, _, _ => trivial
  | _, s :: rest, hΓ, hs, ⟨h, hrest⟩ =>
    ⟨Each.imp himp s hΓ (fun x hx => hs x (List.mem_append_left _ hx)) h,
      EachItem.imp himp rest
        (fun x hx => (List.mem_append.mp hx).elim
          (fun hx => hs x (List.mem_append_left _ (declares_locals hx))) (hΓ x))
        (fun x hx => hs x (List.mem_append_right _ hx)) hrest⟩

end

end

section
variable {P : Expr → Prop}

mutual

theorem Stmt.Each.exprs : ∀ {Γ : List Name} (s : Stmt), s.Each (fun _ => P) Γ →
    ∀ e ∈ s.exprs, P e
  | _, .expression _, h, _, he => List.mem_singleton.mp he ▸ h
  | _, .declaration _ _ _ _, h, e, he => h e (Option.mem_toList.mp he)
  | _, .compound items, h, e, he => EachItem.exprs items h e he
  | _, .ifElse _ t f, ⟨hc, ht, hf⟩, e, he => by
    rcases List.mem_cons.mp he with rfl | he
    · exact hc
    · rcases List.mem_append.mp he with he | he
      · exact Each.exprs t ht e he
      · exact Each.exprs f hf e he
  | _, .whileDo _ body, ⟨hc, hbody⟩, e, he => by
    rcases List.mem_cons.mp he with rfl | he
    · exact hc
    · exact Each.exprs body hbody e he
  | _, .doWhile body _, ⟨hc, hbody⟩, e, he => by
    rcases List.mem_cons.mp he with rfl | he
    · exact hc
    · exact Each.exprs body hbody e he
  | _, .forDo _ _ _ body, ⟨hinit, hc, hstep, hbody⟩, e, he => by
    simp only [Stmt.exprs, List.mem_append, Option.mem_toList] at he
    obtain ((he | he) | he) | he := he
    · exact hinit e he
    · exact hc e he
    · exact hstep e he
    · exact Each.exprs body hbody e he
  | _, .switch _ _ items, ⟨hs, hitems⟩, e, he => by
    rcases List.mem_cons.mp he with rfl | he
    · exact hs
    · exact EachItem.exprs items hitems e he
  | _, .ret _, h, e, he => h e (Option.mem_toList.mp he)

theorem Stmt.EachItem.exprs : ∀ {Γ : List Name} (items : List Stmt),
    EachItem (fun _ => P) Γ items → ∀ e ∈ itemsExprs items, P e
  | _, s :: rest, ⟨h, hrest⟩, e, he => by
    rcases List.mem_append.mp he with he | he
    · exact Each.exprs s h e he
    · exact EachItem.exprs rest hrest e he

end

end

theorem placeBase_rename (σ : Name → Name) (e : Expr) :
    (e.rename σ).placeBase = e.placeBase.map σ := by
  induction e using Expr.placeBase.induct with
  | case1 x => rfl
  | case2 f e ih => exact ih
  | case3 e ih => exact ih
  | case4 e hident hfield hparen =>
    have hnone : e.placeBase = none := by
      rw [Expr.placeBase] <;> assumption
    rw [hnone]
    cases e with
    | val => rfl
    | ident x => exact absurd rfl (hident x)
    | node k children =>
      match children with
      | [] => cases k <;> rfl
      | _ :: _ :: _ => cases k <;> rfl
      | [c] =>
        cases k with
        | field f => exact absurd rfl (hfield f c)
        | parenthesized => exact absurd rfl (hparen c)
        | unary | binary | conditional | comma | assignment | update | addressOf | deref | arrow
        | subscript | cast | sizeof | call => rfl

/-! ## Parentheses -/

mutual

/-- An expression without its parentheses. -/
def Expr.unparen : Expr → Expr
  | .node .parenthesized [e] => e.unparen
  | .node k children => .node k (unparenAll children)
  | e => e

def Expr.unparenAll : List Expr → List Expr
  | [] => []
  | e :: rest => e.unparen :: unparenAll rest

end

theorem unparenAll_append (a b : List Expr) :
    Expr.unparenAll (a ++ b) = Expr.unparenAll a ++ Expr.unparenAll b := by
  induction a with
  | nil => rfl
  | cons e a ih => rw [List.cons_append, Expr.unparenAll, Expr.unparenAll, ih, List.cons_append]

theorem unparen_parenthesized (e : Expr) : (Expr.node .parenthesized [e]).unparen = e.unparen := by
  rw [Expr.unparen]

theorem unparen_node {k : Kind} {children : List Expr}
    (h : ∀ e, k = .parenthesized → children ≠ [e]) :
    (Expr.node k children).unparen = .node k (Expr.unparenAll children) := by
  rw [Expr.unparen]
  exact h

/-- The parentheses of a subexpression make no difference to the whole. -/
theorem unparen_plug {e e' : Expr} (h : e.unparen = e'.unparen) (parents : List Frame) :
    (plug parents e).unparen = (plug parents e').unparen := by
  induction parents generalizing e e' with
  | nil => exact h
  | cons frame parents ih =>
    apply ih
    obtain ⟨k, pre, post⟩ := frame
    by_cases hparen : k = .parenthesized ∧ pre = [] ∧ post = []
    · obtain ⟨rfl, rfl, rfl⟩ := hparen
      change (Expr.node .parenthesized [e]).unparen = (Expr.node .parenthesized [e']).unparen
      rw [unparen_parenthesized, unparen_parenthesized, h]
    · have hnode : ∀ c d : Expr, k = .parenthesized → pre ++ c :: post ≠ [d] := by
        rintro c d rfl hchildren
        apply hparen
        obtain ⟨hpre, hpost⟩ | ⟨-, hnil⟩ := List.append_eq_singleton_iff.mp hchildren
        · exact ⟨rfl, hpre, (List.cons.inj hpost).2⟩
        · cases hnil
      rw [unparen_node (hnode e), unparen_node (hnode e'), unparenAll_append, unparenAll_append,
        Expr.unparenAll, Expr.unparenAll, h]

theorem mem_iterSubtree_self (e : Expr) : e ∈ e.iterSubtree := by
  cases e with
  | val | ident => simp [Expr.iterSubtree]
  | node => simp [Expr.iterSubtree]

theorem mem_iterChildren {e c : Expr} {children : List Expr} (hc : c ∈ children)
    (he : e ∈ c.iterSubtree) : e ∈ Expr.iterChildren children := by
  induction children with
  | nil => cases hc
  | cons d rest ih =>
    rw [Expr.iterChildren, List.mem_append]
    rcases List.mem_cons.mp hc with rfl | hc
    · exact .inr he
    · exact .inl (ih hc)

/-- What is in a child is in the node. -/
theorem mem_iterSubtree_child {e c : Expr} {k : Kind} {children : List Expr} (hc : c ∈ children)
    (he : e ∈ c.iterSubtree) : e ∈ (Expr.node k children).iterSubtree := by
  rw [Expr.iterSubtree]
  exact List.mem_cons_of_mem _ (mem_iterChildren hc he)

end MeleeHarness.Lib.C
