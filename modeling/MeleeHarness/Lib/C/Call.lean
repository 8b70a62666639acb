import MeleeHarness.Lib.C.Agree
import MeleeHarness.Lib.C.Sequence

/-!
# Calls with parameters by value

A function that is run on copies of its arguments. An expression that stores to no
copy evaluates as it does on the variables themselves, as long as these keep their
contents.

* `called_done_iff`: a function that returns nothing;
* `called_return_iff`: a function whose body is `return e;`;
* `OnCopies.steps`, `OnCopies.steps_back`: evaluation on copies.
-/

namespace MeleeHarness.Lib.C

structure Param where
  name : Name
  ty : Text
  inMemory : Bool

structure Function where
  name : Name
  params : List Param
  result : Text
  body : List Stmt

/-- The object that a parameter of a type receives: one of its own type as it is,
another one converted. -/
def Obj.pass (M : Machine) (ty : Text) (o : Obj) : Obj :=
  if o.ty = ty then o else ⟨ty, fun off => (o.cells off).bind (M.fit ty off)⟩

section
variable (M : Machine)

/-- The scope of the parameters, and memory with those that are kept there. -/
inductive Enter : List Param → List Obj → Mem → Scope → Mem → Prop
  | nil {m : Mem} : Enter [] [] m [] m
  | reg {p : Param} {ps : List Param} {o : Obj} {os : List Obj} {m m' : Mem} {scope : Scope} :
      p.inMemory = false → Enter ps os m scope m' →
      Enter (p :: ps) (o :: os) m ((p.name, .reg (o.pass M p.ty)) :: scope) m'
  | mem {p : Param} {ps : List Param} {o : Obj} {os : List Obj} {m m' : Mem} {scope : Scope}
      {b : Block} :
      p.inMemory = true → Enter ps os m scope m' → m' b = none →
      Enter (p :: ps) (o :: os) m ((p.name, .mem b) :: scope)
        (Function.update m' b (some (o.pass M p.ty)))

/-- What a function has left to do when it is over, and the value it returns. -/
inductive Returned (ty : Text) : List Task → Option Val → Prop
  | fellOff : Returned ty [] none
  | done : Returned ty [.jump (.ret none)] none
  | value {v w : Val} : M.convert ty v = some w → Returned ty [.jump (.ret (some v))] (some w)

/-- The body, in the scope of the parameters. -/
def Function.tasks (f : Function) : List Task := [.stmt (.compound f.body), .close .block]

/-- A call of a function that the machine's own calls do not cover. -/
def Called (f : Function) (args : List Obj) (m m' : Mem) (r : Option Val) : Prop :=
  ∃ scope m₁ ts, Enter M f.params args m scope m₁ ∧
    Runs M (f.tasks, ⟨[scope], m₁⟩) (ts, ⟨[], m'⟩) ∧ Returned M f.result ts r

end

/-! ## Parameters apart from memory -/

section
variable {M : Machine} {ps : List Param} {os : List Obj}

def regScope (M : Machine) (ps : List Param) (os : List Obj) : Scope :=
  List.zipWith (fun p o => (p.name, .reg (o.pass M p.ty))) ps os

theorem enter_regs (h : ∀ p ∈ ps, p.inMemory = false) {m m₁ : Mem} {scope : Scope} :
    Enter M ps os m scope m₁ ↔ ps.length = os.length ∧ scope = regScope M ps os ∧ m₁ = m := by
  constructor
  · intro henter
    induction henter with
    | nil => exact ⟨rfl, rfl, rfl⟩
    | reg _ _ ih =>
      obtain ⟨hlength, rfl, rfl⟩ := ih fun p hp => h p (List.mem_cons_of_mem _ hp)
      exact ⟨congrArg (· + 1) hlength, rfl, rfl⟩
    | mem hmem =>
      rw [h _ List.mem_cons_self] at hmem
      cases hmem
  · rintro ⟨hlength, rfl, rfl⟩
    induction ps generalizing os with
    | nil =>
      rw [List.length_eq_zero_iff.mp hlength.symm]
      exact .nil
    | cons p ps ih =>
      obtain ⟨o, os, rfl⟩ := List.exists_cons_of_length_eq_add_one hlength.symm
      exact .reg (h p List.mem_cons_self)
        (ih (fun q hq => h q (List.mem_cons_of_mem _ hq)) (Nat.succ.inj hlength))

theorem exists_objects {c : Name → Option Obj} {args : List Name}
    (h : ∀ x ∈ args, ∃ o, c x = some o) : ∃ objs : List Obj, args.map c = objs.map some := by
  induction args with
  | nil => exact ⟨[], rfl⟩
  | cons x args ih =>
    obtain ⟨o, ho⟩ := h x List.mem_cons_self
    obtain ⟨objs, hobjs⟩ := ih fun y hy => h y (List.mem_cons_of_mem _ hy)
    exact ⟨o :: objs, by rw [List.map_cons, List.map_cons, ho, hobjs]⟩

/-- Passing the object as one of that type changes no scalar of it. -/
def Obj.Passes (M : Machine) (ty : Text) (o : Obj) : Prop := (o.pass M ty).cells = o.cells

theorem passes_self {o : Obj} {ty : Text} (h : o.ty = ty) : o.Passes M ty :=
  congrArg Obj.cells (if_pos h)

/-- A parameter holds what its argument holds. -/
theorem lookup_regScope {c : Name → Option Obj} (hargs : ps.map (fun p => c p.name) = os.map some)
    (hty : ∀ p ∈ ps, ∀ o, c p.name = some o → o.Passes M p.ty) {x : Name}
    (hx : x ∈ ps.map Param.name) :
    ∃ o o', c x = some o ∧ (regScope M ps os).lookup x = some (.reg o') ∧ o'.cells = o.cells := by
  induction ps generalizing os with
  | nil => cases hx
  | cons p ps ih =>
    cases os with
    | nil => cases hargs
    | cons o os =>
      obtain ⟨ho, hargs⟩ := List.cons.inj hargs
      rw [regScope, List.zipWith_cons_cons]
      by_cases hp : x = p.name
      · subst hp
        exact ⟨o, _, ho, by simp, hty p List.mem_cons_self o ho⟩
      · obtain ⟨o₁, o₂, ho₁, hlookup, hcells⟩ :=
          ih hargs (fun q hq => hty q (List.mem_cons_of_mem _ hq)) (by simpa [hp] using hx)
        refine ⟨o₁, o₂, ho₁, ?_, hcells⟩
        rw [List.lookup_cons, beq_eq_false_iff_ne.mpr hp]
        exact hlookup

theorem lookup_regScope_none {x : Name} (hx : x ∉ ps.map Param.name) :
    (regScope M ps os).lookup x = none := by
  induction ps generalizing os with
  | nil => rfl
  | cons p ps ih =>
    cases os with
    | nil => rfl
    | cons o os =>
      rw [List.map_cons, List.mem_cons, not_or] at hx
      obtain ⟨hp, hx⟩ := hx
      rw [regScope, List.zipWith_cons_cons, List.lookup_cons, beq_eq_false_iff_ne.mpr hp]
      exact ih hx

theorem freeScope_regScope (m : Mem) : State.freeScope (regScope M ps os) m = m := by
  induction ps generalizing os with
  | nil => rfl
  | cons p ps ih =>
    cases os with
    | nil => rfl
    | cons o os => exact ih

theorem closeScope_regScope {s : State} (h : s.locals = [regScope M ps os]) :
    s.closeScope = ⟨[], s.mem⟩ := by
  obtain ⟨l, m⟩ := s
  cases h
  exact congrArg (State.mk []) (freeScope_regScope m)

end

/-! ## A body that does not return -/

/-- Where all jumps of the body stay inside, the call is a run of the body. -/
theorem called_done_iff {M : Machine} {f : Function} (hstays : itemsStay false false f.body = true)
    {args : List Obj} {m m' : Mem} {r : Option Val} :
    Called M f args m m' r ↔ ∃ scope m₁ t, Enter M f.params args m scope m₁ ∧
      Runs M ([.stmt (.compound f.body)], ⟨[scope], m₁⟩) ([], t) ∧ t.closeScope = ⟨[], m'⟩ ∧
      r = none := by
  have hbody : tasksStay [.stmt (.compound f.body)] = true :=
    tasksStay_cons.mpr ⟨hstays, rfl⟩
  have htasks : tasksStay f.tasks = true := tasksStay_cons.mpr ⟨hstays, rfl⟩
  constructor
  · rintro ⟨scope, m₁, ts, henter, hruns, hreturned⟩
    cases hreturned with
    | done => cases runs_done htasks hruns (.left _)
    | value => cases runs_done htasks hruns (.left _)
    | fellOff =>
      have hruns' : Runs M ([.stmt (.compound f.body)] ++ [.close .block], ⟨[scope], m₁⟩)
          ([], ⟨[], m'⟩) := hruns
      obtain ⟨ended, t, hover, hfirst, hlast⟩ := runs_split_over hruns' (by simp)
      obtain rfl := runs_done hbody hfirst hover
      exact ⟨scope, m₁, t, henter, hfirst, (runs_close hlast).symm, rfl⟩
  · rintro ⟨scope, m₁, t, henter, hruns, ht, rfl⟩
    refine ⟨scope, m₁, [], henter, ?_, .fellOff⟩
    have hfirst : Runs M (f.tasks, ⟨[scope], m₁⟩) ([.close .block], t) := runs_append hruns
    rw [← ht]
    exact hfirst.tail (.task .close)

/-! ## A body that is one `return` -/

section
variable {M : Machine} {e : Expr} {s : State}

/-- The configurations on the way of a function whose body is `return e;`. -/
inductive Returning (M : Machine) (e : Expr) (s : State) : Config → Prop
  | start : Returning M e s ([.stmt (.compound [.ret (some e)]), .close .block], s)
  | opened : Returning M e s
      ([.stmt (.ret (some e)), .close .block, .close .block], s.openScope)
  | eval {e' : Expr} {s' : State} : Steps M .value e s.openScope e' s' →
      Returning M e s ([.eval e' .ret, .close .block, .close .block], s')
  | jump {v : Val} {s' : State} : Steps M .value e s.openScope (.val v) s' →
      Returning M e s ([.jump (.ret (some v)), .close .block, .close .block], s')
  | leaving {v : Val} {s' : State} : Steps M .value e s.openScope (.val v) s' →
      Returning M e s ([.jump (.ret (some v)), .close .block], s'.closeScope)
  | ended {v : Val} {s' : State} : Steps M .value e s.openScope (.val v) s' →
      Returning M e s ([.jump (.ret (some v))], s'.closeScope.closeScope)

theorem returning_next {c d : Config} (h : Returning M e s c) (hnext : Config.Next M c d) :
    Returning M e s d := by
  cases h with
  | start =>
    cases hnext with
    | task htask =>
      cases htask with
      | compound => exact .opened
  | opened =>
    cases hnext with
    | task htask =>
      cases htask with
      | retSome => exact .eval .refl
  | eval hsteps =>
    cases hnext with
    | task htask =>
      cases htask with
      | eval hstep => exact .eval (hsteps.tail hstep)
      | ret => exact .jump hsteps
  | jump hsteps =>
    cases hnext with
    | task htask => cases htask
    | pass hclose => exact absurd rfl (hclose _)
    | passScope => exact .leaving hsteps
    | arrive hends => cases hends
  | leaving hsteps =>
    cases hnext with
    | task htask => cases htask
    | pass hclose => exact absurd rfl (hclose _)
    | passScope => exact .ended hsteps
    | arrive hends => cases hends
  | ended =>
    cases hnext with
    | task htask => cases htask

theorem returning_runs {c : Config}
    (h : Runs M ([.stmt (.compound [.ret (some e)]), .close .block], s) c) :
    Returning M e s c := by
  induction h with
  | refl => exact .start
  | tail _ hnext ih => exact returning_next ih hnext

theorem runs_eval {use : Use} {ts : List Task} {e' : Expr} {s' : State}
    (h : Steps M .value e s e' s') : Runs M (.eval e use :: ts, s) (.eval e' use :: ts, s') :=
  h.lift (fun c : Expr × State => (.eval c.1 use :: ts, c.2)) fun _ _ hstep => .task (.eval hstep)

theorem runs_return {v : Val} {t : State} (h : Steps M .value e s.openScope (.val v) t) :
    Runs M ([.stmt (.compound [.ret (some e)]), .close .block], s)
      ([.jump (.ret (some v))], t.closeScope.closeScope) := by
  have hopen : Config.Next M ([.stmt (.compound [.ret (some e)]), .close .block], s)
      ([.stmt (.ret (some e)), .close .block, .close .block], s.openScope) := .task .compound
  have hstart : Config.Next M ([.stmt (.ret (some e)), .close .block, .close .block], s.openScope)
      ([.eval e .ret, .close .block, .close .block], s.openScope) := .task .retSome
  refine .head hopen (.head hstart (.trans (runs_eval h) ?_))
  exact .tail (.tail (.single (.task .ret)) (.passScope rfl)) (.passScope rfl)

theorem called_return_iff {f : Function} (hbody : f.body = [.ret (some e)]) {args : List Obj}
    {m m' : Mem} {r : Option Val} :
    Called M f args m m' r ↔ ∃ scope m₁ v w t, Enter M f.params args m scope m₁ ∧
      Steps M .value e ⟨[[], scope], m₁⟩ (.val v) t ∧ t.closeScope.closeScope = ⟨[], m'⟩ ∧
      M.convert f.result v = some w ∧ r = some w := by
  have htasks : f.tasks = [.stmt (.compound [.ret (some e)]), .close .block] := by
    rw [Function.tasks, hbody]
  constructor
  · rintro ⟨scope, m₁, ts, henter, hruns, hreturned⟩
    rw [htasks] at hruns
    have hreturning := returning_runs hruns
    cases hreturned with
    | fellOff | done => nomatch hreturning
    | @value v w hw =>
      generalize (⟨[], m'⟩ : State) = s' at hreturning ⊢
      cases hreturning with
      | ended hsteps => exact ⟨scope, m₁, v, w, _, henter, hsteps, rfl, hw, rfl⟩
  · rintro ⟨scope, m₁, v, w, t, henter, hsteps, ht, hw, rfl⟩
    refine ⟨scope, m₁, _, henter, ?_, .value hw⟩
    rw [htasks, ← ht]
    exact runs_return hsteps

end

/-! ## Evaluation on copies -/

/-- The names `used` mean the same on both sides, but for copies of the `free` ones. -/
def copies (used free : Name → Prop) : NRel where
  rel x y := x = y ∧ used x
  ro x y := x = y ∧ free x

/-- The scopes of `t` hold copies of the `free` variables of `s`. -/
structure OnCopies (M : Machine) (used free : Name → Prop) (s t : State) : Prop where
  mem : s.mem = t.mem
  copied : ∀ x, used x → free x →
    ∃ o, M.look t.locals x = some (.reg o) ∧ cells s.mem (M.look s.locals x) = some o.cells
  outside : ∀ x, used x → ¬free x → lookup x s.locals = none ∧ lookup x t.locals = none

/-- No free variable changes its contents while the expression is evaluated. -/
def Unchanged (M : Machine) (used free : Name → Prop) (e : Expr) (s : State) : Prop :=
  ∀ e' s', Steps M .value e s e' s' → ∀ x, used x → free x →
    cells s'.mem (M.look s'.locals x) = cells s.mem (M.look s.locals x)

section
variable {M : Machine} {used free : Name → Prop} {e f : Expr} {s t : State}

theorem look_global {l : List Scope} {x : Name} (h : lookup x l = none) :
    ∀ o, M.look l x ≠ some (.reg o) := by
  intro o
  rw [Machine.look, h, Option.none_or]
  cases M.global x with
  | none => simp
  | some g =>
    cases g with
    | inl b => simp
    | inr v => simp

theorem OnCopies.agree (h : OnCopies M used free s t) : Agree M (copies used free) s t where
  mem := h.mem
  names x y hrel := by
    obtain ⟨rfl, hused⟩ := hrel
    refine ⟨fun hro => ?_, fun hro => ?_⟩
    · obtain ⟨hs, ht⟩ := h.outside x hused fun hfree => hro ⟨rfl, hfree⟩
      rw [Machine.look, Machine.look, hs, ht]
    · obtain ⟨o, ht, hs⟩ := h.copied x hused hro.2
      rw [hs, ht]
      rfl

/-- Only memory changes on either side. -/
theorem OnCopies.paired (h : OnCopies M used free s t) {s' t' : State}
    (hpaired : Paired M (copies used free) s t s' t') :
    s'.locals = s.locals ∧ t'.locals = t.locals ∧ s'.mem = t'.mem := by
  cases hpaired with
  | mem m => exact ⟨rfl, rfl, rfl⟩
  | reg o' hrel hro hlook =>
    obtain ⟨rfl, hused⟩ := hrel
    obtain ⟨hs, -⟩ := h.outside _ hused fun hfree => hro ⟨rfl, hfree⟩
    exact absurd hlook (look_global hs _)

theorem OnCopies.next (h : OnCopies M used free s t) {s' t' : State}
    (hs : s'.locals = s.locals) (ht : t'.locals = t.locals) (hmem : s'.mem = t'.mem)
    (hkeep : ∀ x, used x → free x →
      cells s'.mem (M.look s'.locals x) = cells s.mem (M.look s.locals x)) :
    OnCopies M used free s' t' where
  mem := hmem
  copied x hused hfree := by
    obtain ⟨o, hlook, hcells⟩ := h.copied x hused hfree
    exact ⟨o, ht ▸ hlook, (hkeep x hused hfree).trans hcells⟩
  outside x hused hfree := by
    rw [hs, ht]
    exact h.outside x hused hfree

/-- What is evaluated on the variables is evaluated on copies of them. -/
theorem OnCopies.steps (h : OnCopies M used free s t) (hrel : ERel (copies used free) e f)
    (hkeep : Unchanged M used free e s) {e' : Expr} {s' : State}
    (hsteps : Steps M .value e s e' s') :
    s'.locals = s.locals ∧ ∃ f', ERel (copies used free) e' f' ∧
      Steps M .value f t f' ⟨t.locals, s'.mem⟩ := by
  induction hsteps using steps_induct with
  | refl =>
    rw [h.mem]
    exact ⟨rfl, f, hrel, .refl⟩
  | @tail e₁ s₁ e₂ s₂ hsteps hstep ih =>
    obtain ⟨hlocals, f₁, hrel₁, hsteps₁⟩ := ih
    have hon : OnCopies M used free s₁ ⟨t.locals, s₁.mem⟩ :=
      h.next hlocals rfl rfl (hkeep e₁ s₁ hsteps)
    obtain ⟨f₂, t₂, hstep₂, hrel₂, hpaired⟩ := agree_step hstep hrel₁ hon.agree
    obtain ⟨hs₂, ht₂, hmem₂⟩ := hon.paired hpaired
    have ht : t₂ = ⟨t.locals, s₂.mem⟩ := by
      rw [hmem₂, ← ht₂]
    rw [ht] at hstep₂
    exact ⟨hs₂.trans hlocals, f₂, hrel₂, hsteps₁.tail hstep₂⟩

/-- What is evaluated on copies is evaluated on the variables. -/
theorem OnCopies.steps_back (h : OnCopies M used free s t) (hrel : ERel (copies used free) e f)
    (hkeep : Unchanged M used free e s) {f' : Expr} {t' : State}
    (hsteps : Steps M .value f t f' t') :
    t'.locals = t.locals ∧ ∃ e', ERel (copies used free) e' f' ∧
      Steps M .value e s e' ⟨s.locals, t'.mem⟩ := by
  induction hsteps using steps_induct with
  | refl =>
    rw [← h.mem]
    exact ⟨rfl, e, hrel, .refl⟩
  | @tail f₁ t₁ f₂ t₂ hsteps hstep ih =>
    obtain ⟨hlocals, e₁, hrel₁, hsteps₁⟩ := ih
    have hon : OnCopies M used free ⟨s.locals, t₁.mem⟩ t₁ :=
      h.next rfl hlocals rfl (hkeep e₁ _ hsteps₁)
    obtain ⟨e₂, s₂, hstep₂, hrel₂, hpaired⟩ := agree_step hstep hrel₁.flip hon.agree.flip
    obtain ⟨hs₂, ht₂, hmem₂⟩ := hon.paired (hpaired.flip hon.agree.flip)
    have hs : s₂ = ⟨s.locals, t₂.mem⟩ := by
      rw [← hmem₂, ← hs₂]
    rw [hs] at hstep₂
    exact ⟨ht₂.trans hlocals, e₂, hrel₂.flip, hsteps₁.tail hstep₂⟩

end

/-! ## Expressions that change nothing -/

def Kind.quiet : Kind → Bool
  | .assignment _ | .update _ _ | .call => false
  | _ => true

/-- No part of the expression stores or calls. -/
inductive Expr.Quiet : Expr → Prop
  | val (v : Val) : Quiet (.val v)
  | ident (x : Name) : Quiet (.ident x)
  | node {k : Kind} {children : List Expr} : k.quiet = true → (∀ c ∈ children, Quiet c) →
      Quiet (.node k children)

section
variable {M : Machine} {e e' : Expr} {s s' : State}

theorem quiet_reduce {k : Kind} {children : List Expr} (hk : k.quiet = true)
    (hchildren : ∀ c ∈ children, c.Quiet) (h : M.reduce s k children = some (e, s')) :
    s' = s ∧ e.Quiet := by
  have hchoose : ∀ b : Expr, b.Quiet →
      (Expr.node .conditional [b, .val (.int 1), .val (.int 0)]).Quiet := by
    intro b hb
    refine .node rfl fun c hc => ?_
    simp only [List.mem_cons, List.not_mem_nil, or_false] at hc
    rcases hc with rfl | rfl | rfl
    · exact hb
    · exact .val _
    · exact .val _
  unfold Machine.reduce at h
  split at h
  case h_7 | h_8 | h_9 => cases hk
  case h_3 a b =>
    simp only [Option.bind_eq_bind, Option.bind_eq_some_iff, Option.pure_def, Option.some.injEq,
      Prod.mk.injEq] at h
    obtain ⟨v, -, t, -, rfl, rfl⟩ := h
    cases t with
    | true => exact ⟨rfl, hchoose b (hchildren b (by simp))⟩
    | false => exact ⟨rfl, .val _⟩
  case h_4 a b =>
    simp only [Option.bind_eq_bind, Option.bind_eq_some_iff, Option.pure_def, Option.some.injEq,
      Prod.mk.injEq] at h
    obtain ⟨v, -, t, -, rfl, rfl⟩ := h
    cases t with
    | true => exact ⟨rfl, .val _⟩
    | false => exact ⟨rfl, hchoose b (hchildren b (by simp))⟩
  case h_5 c a b =>
    simp only [Option.bind_eq_bind, Option.bind_eq_some_iff, Option.pure_def, Option.some.injEq,
      Prod.mk.injEq] at h
    obtain ⟨v, -, t, -, rfl, rfl⟩ := h
    cases t with
    | true => exact ⟨rfl, hchildren a (by simp)⟩
    | false => exact ⟨rfl, hchildren b (by simp)⟩
  case h_6 a b =>
    simp only [Option.bind_eq_bind, Option.bind_eq_some_iff, Option.pure_def, Option.some.injEq,
      Prod.mk.injEq] at h
    obtain ⟨v, -, rfl, rfl⟩ := h
    exact ⟨rfl, hchildren b (by simp)⟩
  case h_12 =>
    cases h
    exact ⟨rfl, .val _⟩
  case h_14 => cases h
  -- the others evaluate to a value
  all_goals
    simp only [Option.bind_eq_bind, Option.bind_eq_some_iff, Option.pure_def, Option.some.injEq,
      Prod.mk.injEq] at h
  · obtain ⟨v, -, w, -, rfl, rfl⟩ := h
    exact ⟨rfl, .val _⟩
  · obtain ⟨v, -, w, -, u, -, rfl, rfl⟩ := h
    exact ⟨rfl, .val _⟩
  · obtain ⟨p, -, a, -, rfl, rfl⟩ := h
    exact ⟨rfl, .val _⟩
  · obtain ⟨v, -, w, -, rfl, rfl⟩ := h
    exact ⟨rfl, .val _⟩
  · obtain ⟨v, -, rfl, rfl⟩ := h
    exact ⟨rfl, .val _⟩

theorem quiet_step {μ : Mode} (h : Step M μ e s e' s') (hquiet : e.Quiet) : s' = s ∧ e'.Quiet := by
  induction h with
  | read => exact ⟨rfl, .val _⟩
  | reduce hred =>
    cases hquiet with
    | node hk hchildren => exact quiet_reduce hk hchildren hred
  | call =>
    cases hquiet with
    | node hk => cases hk
  | @inside μ k pre post e e' s s' _ _ ih =>
    cases hquiet with
    | node hk hchildren =>
      obtain ⟨rfl, he'⟩ := ih (hchildren e (by simp))
      refine ⟨rfl, .node hk fun c hc => ?_⟩
      rcases List.mem_append.mp hc with hc | hc
      · exact hchildren c (List.mem_append_left _ hc)
      · rcases List.mem_cons.mp hc with rfl | hc
        · exact he'
        · exact hchildren c (List.mem_append_right _ (List.mem_cons_of_mem _ hc))

theorem quiet_steps {μ : Mode} (h : Steps M μ e s e' s') (hquiet : e.Quiet) :
    s' = s ∧ e'.Quiet := by
  induction h using steps_induct with
  | refl => exact ⟨rfl, hquiet⟩
  | tail _ hstep ih =>
    obtain ⟨rfl, hquiet'⟩ := ih
    exact quiet_step hstep hquiet'

theorem Expr.Quiet.unchanged (hquiet : e.Quiet) (used free : Name → Prop) :
    Unchanged M used free e s := by
  intro e' s' hsteps x _ _
  rw [(quiet_steps hsteps hquiet).1]

end

end MeleeHarness.Lib.C
