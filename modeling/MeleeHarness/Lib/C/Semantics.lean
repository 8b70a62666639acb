import MeleeHarness.Lib.C.Syntax
import Mathlib.Logic.Function.Basic
import Mathlib.Logic.Relation

/-!
# A subset of C: semantics

A small-step machine. A step of an expression evaluates any part of it that is due,
so operands are evaluated in every order and interleaved in every way; a call is one
step. Tasks are what a function still has to do.

What the operators compute, where members stand, what an object of a type makes of
a value stored in it, the globals and the functions are parameters of the machine.
-/

namespace MeleeHarness.Lib.C

/-- An object with the scalars at its offsets; one that was never stored is missing. -/
structure Obj where
  ty : Text
  cells : Int → Option Val

abbrev Mem := Block → Option Obj

/-- What a name is bound to: an object apart from memory, a block of memory, or a
value (a function, a constant). -/
inductive Binding where
  | reg (o : Obj)
  | mem (b : Block)
  | const (v : Val)

abbrev Scope := List (Name × Binding)

/-- The scopes of the running function, the innermost first, and memory. -/
structure State where
  locals : List Scope
  mem : Mem

structure Machine where
  unary : UnaryOp → Val → Option Val
  binary : ArithOp → Val → Val → Option Val
  truth : Val → Option Bool
  convert : Text → Val → Option Val
  offset : Name → Int
  fit : Text → Int → Val → Option Val
  global : Name → Option (Block ⊕ Val)
  call : Val → List Val → Mem → Mem → Val → Prop

/-! ## Names and places -/

def lookup (x : Name) : List Scope → Option Binding
  | [] => none
  | scope :: outer => (scope.lookup x).or (lookup x outer)

def Machine.look (M : Machine) (locals : List Scope) (x : Name) : Option Binding :=
  (lookup x locals).or ((M.global x).map (Sum.elim .mem .const))

def setScope (x : Name) (o : Obj) : Scope → Scope
  | [] => []
  | (y, b) :: rest => if y = x then (y, .reg o) :: rest else (y, b) :: setScope x o rest

/-- The innermost object of that name is now `o`. -/
def setReg (x : Name) (o : Obj) : List Scope → List Scope
  | [] => []
  | scope :: outer =>
    if (scope.lookup x).isSome then setScope x o scope :: outer else scope :: setReg x o outer

/-- A place in an object, or the value of a name that is bound to one. -/
inductive Place where
  | reg (x : Name) (off : Int)
  | mem (b : Block) (off : Int)
  | const (v : Val) (off : Int)
  deriving DecidableEq, Repr

def Place.shift (d : Int) : Place → Place
  | .reg x off => .reg x (off + d)
  | .mem b off => .mem b (off + d)
  | .const v off => .const v (off + d)

/-- A pointer to the place; what is kept apart from memory has no address. -/
def Place.address : Place → Option Val
  | .mem b off => some (.ptr b off)
  | .reg _ _ | .const _ _ => none

section
variable (M : Machine)

/-- The place that a pointer points to, `d` further on. -/
def Val.target (d : Int) : Val → Option Place
  | .ptr b off => some (.mem b (off + d))
  | _ => none

def Val.index : Val → Option Int
  | .int i => some i
  | _ => none

/-- The place that an expression denotes, once the values it depends on are there. -/
def Machine.placeOf (locals : List Scope) : Expr → Option Place
  | .ident x =>
    match M.look locals x with
    | some (.reg _) => some (.reg x 0)
    | some (.mem b) => some (.mem b 0)
    | some (.const v) => some (.const v 0)
    | none => none
  | .node (.field f) [e] => (placeOf locals e).map (·.shift (M.offset f))
  | .node .parenthesized [e] => placeOf locals e
  | .node .deref [e] => e.val?.bind (Val.target 0)
  | .node (.arrow f) [e] => e.val?.bind (Val.target (M.offset f))
  | .node .subscript [e, i] =>
    (i.val?.bind Val.index).bind fun d => e.val?.bind (Val.target d)
  | _ => none

def Obj.store (o : Obj) (off : Int) (v : Val) : Option (Obj × Val) :=
  (M.fit o.ty off v).map fun w => ({ o with cells := Function.update o.cells off (some w) }, w)

/-- A value as the only scalar of an object. -/
def scalarCells (v : Val) : Int → Option Val := fun off => if off = 0 then some v else none

def Machine.load (s : State) : Place → Option Val
  | .reg x off =>
    match M.look s.locals x with
    | some (.reg o) => o.cells off
    | _ => none
  | .mem b off => (s.mem b).bind fun o => o.cells off
  | .const v off => scalarCells v off

/-- The state after a store, and the value that was stored. -/
def Machine.store (s : State) (p : Place) (v : Val) : Option (State × Val) :=
  match p with
  | .reg x off =>
    match M.look s.locals x with
    | some (.reg o) => (o.store M off v).map fun (o, w) => (⟨setReg x o s.locals, s.mem⟩, w)
    | _ => none
  | .mem b off =>
    (s.mem b).bind fun o => (o.store M off v).map fun (o, w) =>
      (⟨s.locals, Function.update s.mem b (some o)⟩, w)
  | .const _ _ => none

/-! ## Expressions -/

/-- A store of what `f` makes of the value at a place. -/
def Machine.modify (s : State) (p : Place) (f : Val → Option Val) : Option (Val × Val × State) := do
  let old ← M.load s p
  let new ← f old
  let (s', w) ← M.store s p new
  return (old, w, s')

/-- The evaluation of a node whose operands are there. -/
def Machine.reduce (s : State) : Kind → List Expr → Option (Expr × State)
  | .unary op, [e] => do
    let v ← e.val?
    let w ← M.unary op v
    return (.val w, s)
  | .binary (.arith op), [a, b] => do
    let v ← a.val?
    let w ← b.val?
    let u ← M.binary op v w
    return (.val u, s)
  | .binary .logAnd, [a, b] => do
    let v ← a.val?
    let t ← M.truth v
    return (if t then .node .conditional [b, .val (.int 1), .val (.int 0)] else .val (.int 0), s)
  | .binary .logOr, [a, b] => do
    let v ← a.val?
    let t ← M.truth v
    return (if t then .val (.int 1) else .node .conditional [b, .val (.int 1), .val (.int 0)], s)
  | .conditional, [c, a, b] => do
    let v ← c.val?
    let t ← M.truth v
    return (if t then a else b, s)
  | .comma, [a, b] => do
    let _ ← a.val?
    return (b, s)
  | .assignment none, [l, r] => do
    let v ← r.val?
    let p ← M.placeOf s.locals l
    let (s', w) ← M.store s p v
    return (.val w, s')
  | .assignment (some op), [l, r] => do
    let v ← r.val?
    let p ← M.placeOf s.locals l
    let (_, new, s') ← M.modify s p fun old => M.binary op old v
    return (.val new, s')
  | .update before op, [l] => do
    let p ← M.placeOf s.locals l
    let (old, new, s') ← M.modify s p fun old => M.binary op old (.int 1)
    return (.val (if before then new else old), s')
  | .addressOf, [l] => do
    let p ← M.placeOf s.locals l
    let a ← p.address
    return (.val a, s)
  | .cast ty, [e] => do
    let v ← e.val?
    let w ← M.convert ty v
    return (.val w, s)
  | .sizeof size, _ => some (.val size, s)
  | .parenthesized, [e] => do
    let v ← e.val?
    return (.val v, s)
  | _, _ => none

/-- One step of an expression that is used as `μ`. -/
inductive Step : Mode → Expr → State → Expr → State → Prop
  | inside {μ : Mode} {k : Kind} {pre post : List Expr} {e e' : Expr} {s s' : State} :
      k.evaluates pre.length = true → Step (k.use μ pre.length) e s e' s' →
      Step μ (.node k (pre ++ e :: post)) s (.node k (pre ++ e' :: post)) s'
  | read {e : Expr} {p : Place} {v : Val} {s : State} :
      M.placeOf s.locals e = some p → M.load s p = some v → Step .value e s (.val v) s
  | reduce {k : Kind} {children : List Expr} {e' : Expr} {s s' : State} :
      M.reduce s k children = some (e', s') → Step .value (.node k children) s e' s'
  | call {f : Val} {args : List Val} {m' : Mem} {r : Val} {s : State} :
      M.call f args s.mem m' r →
      Step .value (.node .call (.val f :: args.map .val)) s (.val r) ⟨s.locals, m'⟩

/-! ## Tasks -/

/-- What the value of an expression is for. -/
inductive Use where
  | discard
  | branch (t f : Stmt)
  | loop (c : Expr) (step : Option Expr) (body : Stmt)
  | select (labels : List (Option Val × Nat)) (items : List Stmt)
  | init (x : Name)
  | ret

/-- What a scope closes: a block, a loop or `switch` that `break` leaves, or the
body of a loop that `continue` leaves. -/
inductive Closing where
  | block
  | breakTo
  | continueTo
  deriving DecidableEq, Repr

inductive Jump where
  | brk
  | cont
  | ret (v : Option Val)
  deriving DecidableEq, Repr

inductive Task where
  | stmt (s : Stmt)
  | eval (e : Expr) (use : Use)
  | iterate (c step : Option Expr) (body : Stmt)
  | close (c : Closing)
  | jump (j : Jump)

abbrev Config := List Task × State

namespace State

def openScope (s : State) : State := { s with locals := [] :: s.locals }

/-- The blocks of a scope are no longer there once it is closed. -/
def freeScope (scope : Scope) (m : Mem) : Mem := fun b =>
  if scope.any fun (_, binding) => match binding with
    | .mem c => c = b
    | _ => false
  then none else m b

def closeScope (s : State) : State :=
  match s.locals with
  | [] => s
  | scope :: outer => ⟨outer, freeScope scope s.mem⟩

def bind (s : State) (x : Name) (binding : Binding) : State :=
  match s.locals with
  | [] => { s with locals := [[(x, binding)]] }
  | scope :: outer => { s with locals := ((x, binding) :: scope) :: outer }

end State

/-- Whether a jump ends where this scope closes. -/
def Jump.endsAt : Jump → Closing → Bool
  | .brk, .breakTo | .cont, .continueTo => true
  | _, _ => false

def Obj.new (ty : Text) : Obj := ⟨ty, fun _ => none⟩

def evalIf (e : Option Expr) : List Task :=
  match e with
  | some e => [.eval e .discard]
  | none => []

/-- One more round of a loop. -/
def round (c step : Option Expr) (body : Stmt) : List Task :=
  .stmt body :: .close .continueTo :: (evalIf step ++ [.iterate c step body])

def findLabel (labels : List (Option Val × Nat)) (v : Val) : Option Nat :=
  (labels.lookup (some v)).or (labels.lookup none)

/-- The items of a `switch` from a label on; what the jump passes over is declared, but
not initialized. -/
def enterAt : Nat → List Stmt → List Stmt
  | 0, items => items
  | _, [] => []
  | i + 1, .declaration x ty inMemory _ :: rest => .declaration x ty inMemory none :: enterAt i rest
  | i + 1, _ :: rest => enterAt i rest

/-- What a task leads to; a local in memory takes a block that is not in use. -/
inductive Task.Next : Task → State → List Task → State → Prop
  | expression {e : Expr} {s : State} : Next (.stmt (.expression e)) s [.eval e .discard] s
  | declareReg {x : Name} {ty : Text} {init : Option Expr} {s : State} :
      Next (.stmt (.declaration x ty false init)) s (init.toList.map (.eval · (.init x)))
        (s.bind x (.reg (.new ty)))
  | declareMem {x : Name} {ty : Text} {init : Option Expr} {s : State} {b : Block} :
      s.mem b = none →
      Next (.stmt (.declaration x ty true init)) s (init.toList.map (.eval · (.init x)))
        { s.bind x (.mem b) with mem := Function.update s.mem b (some (.new ty)) }
  | compound {items : List Stmt} {s : State} :
      Next (.stmt (.compound items)) s (items.map .stmt ++ [.close .block]) s.openScope
  | ifElse {c : Expr} {t f : Stmt} {s : State} :
      Next (.stmt (.ifElse c t f)) s [.eval c (.branch t f)] s
  | whileDo {c : Expr} {body : Stmt} {s : State} :
      Next (.stmt (.whileDo c body)) s [.iterate (some c) none body, .close .breakTo] s.openScope
  | doWhile {c : Expr} {body : Stmt} {s : State} :
      Next (.stmt (.doWhile body c)) s (round (some c) none body ++ [.close .breakTo])
        s.openScope.openScope
  | forDo {init c step : Option Expr} {body : Stmt} {s : State} :
      Next (.stmt (.forDo init c step body)) s
        (evalIf init ++ [.iterate c step body, .close .breakTo]) s.openScope
  | switch {e : Expr} {labels : List (Option Val × Nat)} {items : List Stmt} {s : State} :
      Next (.stmt (.switch e labels items)) s [.eval e (.select labels items)] s
  | retNone {s : State} : Next (.stmt (.ret none)) s [.jump (.ret none)] s
  | retSome {e : Expr} {s : State} : Next (.stmt (.ret (some e))) s [.eval e .ret] s
  | brk {s : State} : Next (.stmt .brk) s [.jump .brk] s
  | cont {s : State} : Next (.stmt .cont) s [.jump .cont] s
  | eval {e e' : Expr} {use : Use} {s s' : State} :
      Step M .value e s e' s' → Next (.eval e use) s [.eval e' use] s'
  | discard {v : Val} {s : State} : Next (.eval (.val v) .discard) s [] s
  | branch {v : Val} {t : Bool} {a b : Stmt} {s : State} : M.truth v = some t →
      Next (.eval (.val v) (.branch a b)) s [.stmt (if t then a else b), .close .block] s.openScope
  | again {v : Val} {c : Expr} {step : Option Expr} {body : Stmt} {s : State} :
      M.truth v = some true →
      Next (.eval (.val v) (.loop c step body)) s (round (some c) step body) s.openScope
  | leave {v : Val} {c : Expr} {step : Option Expr} {body : Stmt} {s : State} :
      M.truth v = some false → Next (.eval (.val v) (.loop c step body)) s [] s
  | select {v : Val} {labels : List (Option Val × Nat)} {items : List Stmt} {i : Nat} {s : State} :
      findLabel labels v = some i →
      Next (.eval (.val v) (.select labels items)) s
        ((enterAt i items).map .stmt ++ [.close .breakTo]) s.openScope
  | skip {v : Val} {labels : List (Option Val × Nat)} {items : List Stmt} {s : State} :
      findLabel labels v = none → Next (.eval (.val v) (.select labels items)) s [] s
  | init {v w : Val} {x : Name} {p : Place} {s s' : State} :
      M.placeOf s.locals (.ident x) = some p → M.store s p v = some (s', w) →
      Next (.eval (.val v) (.init x)) s [] s'
  | ret {v : Val} {s : State} : Next (.eval (.val v) .ret) s [.jump (.ret (some v))] s
  | test {c : Expr} {step : Option Expr} {body : Stmt} {s : State} :
      Next (.iterate (some c) step body) s [.eval c (.loop c step body)] s
  | forever {step : Option Expr} {body : Stmt} {s : State} :
      Next (.iterate none step body) s (round none step body) s.openScope
  | close {c : Closing} {s : State} : Next (.close c) s [] s.closeScope

/-- A jump passes over what was still to be done, up to where it ends. -/
inductive Config.Next : Config → Config → Prop
  | task {t : Task} {ts : List Task} {s s' : State} {new : List Task} :
      Task.Next M t s new s' → Next (t :: ts, s) (new ++ ts, s')
  | pass {j : Jump} {t : Task} {ts : List Task} {s : State} :
      (∀ c, t ≠ .close c) → Next (.jump j :: t :: ts, s) (.jump j :: ts, s)
  | passScope {j : Jump} {c : Closing} {ts : List Task} {s : State} : j.endsAt c = false →
      Next (.jump j :: .close c :: ts, s) (.jump j :: ts, s.closeScope)
  | arrive {j : Jump} {c : Closing} {ts : List Task} {s : State} : j.endsAt c = true →
      Next (.jump j :: .close c :: ts, s) (ts, s.closeScope)

/-- The machine runs from one configuration to another. -/
abbrev Runs : Config → Config → Prop := Relation.ReflTransGen (Config.Next M)

/-- An expression evaluates from one state to a value in another. -/
abbrev Steps (μ : Mode) (e : Expr) (s : State) (e' : Expr) (s' : State) : Prop :=
  Relation.ReflTransGen (fun c d : Expr × State => Step M μ c.1 c.2 d.1 d.2) (e, s) (e', s')

end

/-- The names that the scopes bind. -/
def scopeNames (locals : List Scope) : List (List Name) :=
  locals.map fun scope => scope.map Prod.fst

theorem scopeNames_cons (scope : Scope) (outer : List Scope) :
    scopeNames (scope :: outer) = scope.map Prod.fst :: scopeNames outer := rfl

theorem lookup_eq_none_iff {x : Name} {locals : List Scope} :
    lookup x locals = none ↔ x ∉ (scopeNames locals).flatten := by
  induction locals with
  | nil => simp [lookup, scopeNames]
  | cons scope outer ih =>
    have hscope : scope.lookup x = none ↔ x ∉ scope.map Prod.fst := by
      rw [List.lookup_eq_none_iff]
      simp only [List.mem_map, not_exists, not_and, bne_iff_ne, ne_eq]
      exact forall₂_congr fun _ _ => not_congr eq_comm
    rw [lookup, Option.or_eq_none_iff, ih, hscope, scopeNames_cons, List.flatten_cons,
      List.mem_append, not_or]

section
variable {M : Machine} {μ : Mode} {k : Kind} {e e' a : Expr} {s s' : State}

theorem step_first {post : List Expr} (hdue : k.evaluates 0 = true)
    (h : Step M (k.use μ 0) e s e' s') :
    Step M μ (.node k (e :: post)) s (.node k (e' :: post)) s' :=
  @Step.inside M μ k [] post e e' s s' hdue h

theorem step_second {post : List Expr} (hdue : k.evaluates 1 = true)
    (h : Step M (k.use μ 1) e s e' s') :
    Step M μ (.node k (a :: e :: post)) s (.node k (a :: e' :: post)) s' :=
  @Step.inside M μ k [a] post e e' s s' hdue h

theorem steps_head {e₁ : Expr} {s₁ : State} (h : Step M μ e s e₁ s₁)
    (hsteps : Steps M μ e₁ s₁ e' s') : Steps M μ e s e' s' :=
  Relation.ReflTransGen.head (b := (e₁, s₁)) h hsteps

end

@[elab_as_elim]
theorem steps_induct {M : Machine} {μ : Mode} {e : Expr} {s : State}
    {motive : ∀ e' s', Steps M μ e s e' s' → Prop} (refl : motive e s .refl)
    (tail : ∀ {e₁ s₁ e₂ s₂} (hsteps : Steps M μ e s e₁ s₁) (hstep : Step M μ e₁ s₁ e₂ s₂),
      motive e₁ s₁ hsteps → motive e₂ s₂ (hsteps.tail hstep))
    {e' : Expr} {s' : State} (h : Steps M μ e s e' s') : motive e' s' h := by
  have hall : ∀ c (hc : Relation.ReflTransGen
      (fun c d : Expr × State => Step M μ c.1 c.2 d.1 d.2) (e, s) c), motive c.1 c.2 hc := by
    intro c hc
    induction hc with
    | refl => exact refl
    | tail hsteps hstep ih => exact tail hsteps hstep ih
  exact hall (e', s') h

end MeleeHarness.Lib.C
