import MeleeHarness.SrcMutate.Tree

/-!
# Extracting an expression into a value helper

`_expr_inline_sites`: an expression is replaced by a call of
`static inline T helper(params) { return expr; }`, where the locals that it uses are
passed by value.

* `inline_preserves`: when the call does what the expression does in its place;
* `pointer_step_lost`: an accepted expression whose write to a local is lost.
-/

namespace MeleeHarness.SrcMutate

open Lib Lib.C

/-- The leftmost identifier that an lvalue is rooted at. -/
def exprBaseId : Expr → Option Name
  | .ident x => some x
  | .node (.field _) [e] | .node (.arrow _) [e] => exprBaseId e
  | .node .subscript [e, _] => exprBaseId e
  | .node .parenthesized [e] | .node .deref [e] | .node .addressOf [e] => exprBaseId e
  | .node (.cast _) [e] => exprBaseId e
  | _ => none

def inlinePosOk (n : Node) : Bool :=
  match n.parents with
  | [] => n.holder ≠ .expressionStatement
  | parent :: _ =>
    match parent.kind with
    | .assignment _ | .call => parent.pre ≠ []
    | .update _ _ | .addressOf => false
    | _ => true

/-- A type that is spelled with a `*` at its end. -/
def pointerSpelling (typ : Text) : Bool := (rstrip typ).getLast? = some '*'

abbrev FreeTypes := List (Name × Text)

def baseNonptrFree (ftypes : FreeTypes) (lv : Expr) : Bool :=
  match (exprBaseId lv).bind fun x => ftypes.lookup x with
  | some typ => !pointerSpelling typ
  | none => false

def inlineByvalUnsafe (e : Expr) (ftypes : FreeTypes) : Bool :=
  e.iterSubtree.any fun m =>
    match m with
    | .node (.assignment _) (l :: _) => baseNonptrFree ftypes l
    | .node (.update _ _) (l :: _) => baseNonptrFree ftypes l
    | .node .addressOf (l :: _) => baseNonptrFree ftypes l
    | _ => false

/-- The variables whose address is taken. -/
def addressed (e : Expr) : List Name :=
  e.iterSubtree.filterMap fun
    | .node .addressOf children => headBase children
    | _ => none

structure InlineSite where
  node : Node
  helper : Function
  args : List Name

/-- The locals in an expression, each once, with the spans where they occur. -/
def freeOrder (locals : List Name) (e : Expr) : List Name :=
  (((identifiers [] e).map Prod.snd).filter (· ∈ locals)).eraseDups

def occurrences (n : Node) (x : Name) : List Span :=
  ((identifiers [] n.expr).filter (·.2 = x)).map fun i => n.span i.1

def freeType (types : Span → Option Text) (n : Node) (x : Name) : Option (Name × Text) := do
  let t ← occType types (occurrences n x)
  guard (usableTempType t)
  return (x, t)

def inlineHelper (fname : Text) (n : Node) (typ : Text) (ftypes : FreeTypes) : Function where
  name := fname ++ "_pi".toList ++ Nat.toDigits 10 (n.span []).1
  params := ftypes.map fun (x, t) => ⟨x, t, x ∈ addressed n.expr⟩
  result := typ
  body := [.ret (some n.expr)]

def exprInlineSite (fn : Fn) (types : Span → Option Text) (n : Node) : Option InlineSite := do
  guard (nodeType n.expr ∈ tempExprTypes)
  let typ ← types (n.span [])
  guard (usableTempType typ ∧ inlinePosOk n)
  let order := freeOrder (localNames fn) n.expr
  guard (order.length ≤ 6)
  let ftypes ← order.mapM (freeType types n)
  guard (!inlineByvalUnsafe n.expr ftypes)
  return ⟨n, inlineHelper fn.name n typ ftypes, order⟩

def exprInlineSites (ctx : Ctx) : List InlineSite :=
  match ctx.types with
  | none => []
  | some types => ctx.fn.nodes.filterMap (exprInlineSite ctx.fn types)

/-! ## The call -/

/-- The call of the helper in a state of the function: the arguments are copied, and
memory alone can change. -/
def InlineSite.Called (M : Machine) (site : InlineSite) (s s' : State) (v : Val) : Prop :=
  ∃ objs, site.args.map (fun x => content s.mem (M.look s.locals x)) = objs.map some ∧
    ∃ m', C.Called M site.helper objs s.mem m' (some v) ∧ s' = ⟨s.locals, m'⟩

/-! ## What is accepted -/

/-- What an accepted site consists of. -/
structure Accepted (fn : Fn) (types : Span → Option Text) (site : InlineSite)
    (ftypes : FreeTypes) : Prop where
  typ : types (site.node.span []) = some site.helper.result
  helper : site.helper = inlineHelper fn.name site.node site.helper.result ftypes
  args : site.args = freeOrder (localNames fn) site.node.expr
  free : site.args.mapM (freeType types site.node) = some ftypes
  safe : inlineByvalUnsafe site.node.expr ftypes = false

theorem accepted_of_mem {ctx : Ctx} {site : InlineSite} (h : site ∈ exprInlineSites ctx) :
    ∃ types ftypes, ctx.types = some types ∧ Accepted ctx.fn types site ftypes := by
  unfold exprInlineSites at h
  split at h
  · cases h
  · rename_i types htypes
    obtain ⟨n, -, hn⟩ := List.mem_filterMap.mp h
    simp only [exprInlineSite, guard, Option.bind_eq_bind, Option.bind_eq_some_iff, Option.pure_def,
      Option.some.injEq] at hn
    obtain ⟨_, -, typ, htyp, _, -, _, -, ftypes, hfree, _, hsafe, rfl⟩ := hn
    refine ⟨types, ftypes, htypes, htyp, rfl, rfl, hfree, ?_⟩
    by_contra hlost
    simp [hlost] at hsafe

section
variable {fn : Fn} {types : Span → Option Text} {site : InlineSite} {ftypes : FreeTypes}

theorem mem_freeOrder {locals : List Name} {e : Expr} {x : Name} :
    x ∈ freeOrder locals e ↔ x ∈ e.names ∧ x ∈ locals := by
  rw [freeOrder, List.mem_eraseDups, List.mem_filter, identifiers_names]
  simp

theorem Accepted.mem_args (h : Accepted fn types site ftypes) {x : Name} :
    x ∈ site.args ↔ x ∈ site.node.expr.names ∧ x ∈ localNames fn := by
  rw [h.args]
  exact mem_freeOrder

theorem freeType_eq {n : Node} {x : Name} {p : Name × Text} (h : freeType types n x = some p) :
    p.1 = x ∧ ∃ way, (way, x) ∈ identifiers [] n.expr ∧ types (n.span way) = some p.2 := by
  simp only [freeType, guard, Option.bind_eq_bind, Option.bind_eq_some_iff, Option.pure_def,
    Option.some.injEq] at h
  obtain ⟨t, ht, -, -, rfl⟩ := h
  obtain ⟨span, hspan, hty⟩ := List.mem_filterMap.mp (List.mem_of_find?_eq_some ht)
  obtain ⟨i, hi, rfl⟩ := List.mem_map.mp hspan
  obtain ⟨way, y⟩ := i
  obtain ⟨hway, hx⟩ := List.mem_filter.mp hi
  obtain rfl : y = x := by simpa using hx
  exact ⟨rfl, way, hway, hty⟩

/-- The types are those of the arguments, in order. -/
theorem Accepted.free_names (h : Accepted fn types site ftypes) :
    ftypes.map Prod.fst = site.args := by
  have hfree := mapM_some_iff.mp h.free
  clear h
  generalize site.args = args at hfree ⊢
  induction hfree with
  | nil => rfl
  | cons hx _ ih => rw [List.map_cons, ih, (freeType_eq hx).1]

theorem Accepted.params (h : Accepted fn types site ftypes) :
    site.helper.params = ftypes.map fun (x, t) => ⟨x, t, x ∈ addressed site.node.expr⟩ := by
  rw [h.helper]
  rfl

theorem Accepted.param_names (h : Accepted fn types site ftypes) :
    site.helper.params.map Param.name = site.args := by
  rw [h.params, List.map_map, ← h.free_names]
  rfl

theorem Accepted.free_occurs (h : Accepted fn types site ftypes) {p : Param}
    (hp : p ∈ site.helper.params) :
    ∃ way, (way, p.name) ∈ identifiers [] site.node.expr ∧
      types (site.node.span way) = some p.ty := by
  rw [h.params] at hp
  obtain ⟨entry, hentry, rfl⟩ := List.mem_map.mp hp
  have hfree := mapM_some_iff.mp h.free
  clear h hp
  generalize site.args = args at hfree
  induction hfree with
  | nil => cases hentry
  | cons hx _ ih =>
    rcases List.mem_cons.mp hentry with rfl | hentry
    · obtain ⟨hname, way, hway, hty⟩ := freeType_eq hx
      rw [← hname] at hway
      exact ⟨way, hway, hty⟩
    · exact ih hentry

/-- The variable that a place is part of is the one its lvalue is rooted at. -/
theorem exprBaseId_of_placeBase {e : Expr} {x : Name} (h : e.placeBase = some x) :
    exprBaseId e = some x := by
  induction e using Expr.placeBase.induct with
  | case1 y => exact h
  | case2 f e ih =>
    rw [exprBaseId]
    exact ih h
  | case3 e ih =>
    rw [exprBaseId]
    exact ih h
  | case4 e hident hfield hparen => rw [Expr.placeBase] at h <;> first | assumption | cases h

/-- Of the arguments, pointers alone can be stored to or have their address taken. -/
theorem Accepted.grabs_pointer (h : Accepted fn types site ftypes) {k : Kind}
    {children : List Expr} (hnode : .node k children ∈ site.node.expr.iterSubtree)
    (hk : k.grabs = true) {x : Name} (hx : headBase children = some x) (harg : x ∈ site.args) :
    ∃ p ∈ site.helper.params, p.name = x ∧ pointerSpelling p.ty = true := by
  obtain ⟨l, rest, rfl⟩ : ∃ l rest, children = l :: rest := by
    cases children with
    | nil => cases hx
    | cons l rest => exact ⟨l, rest, rfl⟩
  have hbase : exprBaseId l = some x := exprBaseId_of_placeBase hx
  obtain ⟨t, ht⟩ : ∃ t, ftypes.lookup x = some t := by
    rw [← Option.isSome_iff_exists, List.lookup_isSome_iff]
    rw [← h.free_names] at harg
    obtain ⟨entry, hentry, rfl⟩ := List.mem_map.mp harg
    exact ⟨entry, hentry, by simp⟩
  have hsafe : baseNonptrFree ftypes l = false := by
    have hany := List.any_eq_false.mp h.safe _ hnode
    cases k with
    | assignment | update | addressOf => simpa using hany
    | field | parenthesized | unary | binary | conditional | comma | deref | arrow | subscript
    | cast | sizeof | call => cases hk
  rw [baseNonptrFree, hbase, Option.bind_some, ht] at hsafe
  obtain ⟨l₁, l₂, hsplit, -⟩ := List.lookup_eq_some_iff.mp ht
  refine ⟨⟨x, t, x ∈ addressed site.node.expr⟩, ?_, rfl, by simpa using hsafe⟩
  rw [h.params, hsplit]
  simp

end

/-! ## When the call does the same -/

/-- A state of the function in which the types are those that clang gives: its scopes
hold what it declares, the locals in the expression hold something, and neither these
nor the value of the expression change as they are passed. -/
structure Typed (M : Machine) (ctx : Ctx) (n : Node) (s : State) : Prop where
  declared : ∀ x, lookup x s.locals ≠ none → ∃ d ∈ ctx.fn.declarators, d.name = x
  objects : ∀ x ∈ n.expr.names, x ∈ localNames ctx.fn →
    ∃ o, content s.mem (M.look s.locals x) = some o
  named : ∀ types, ctx.types = some types → ∀ way x t o, (way, x) ∈ identifiers [] n.expr →
    types (n.span way) = some t → content s.mem (M.look s.locals x) = some o → o.Passes M t
  valued : ∀ types, ctx.types = some types → ∀ t v s', types (n.span []) = some t →
    Steps M .value n.expr s (.val v) s' → M.convert t v = some v

/-- What the filter leaves open: pointers among the arguments are not stored to and
their address is not taken, locals are declared without parentheses, and no pointer
or call changes an argument in the meantime. -/
structure Harmless (M : Machine) (ctx : Ctx) (site : InlineSite) (s : State) : Prop where
  kept : ∀ k children, .node k children ∈ site.node.expr.iterSubtree → k.grabs = true →
    ∀ p ∈ site.helper.params, pointerSpelling p.ty = true → headBase children ≠ some p.name
  found : ∀ d ∈ ctx.fn.declarators, d.name ∈ site.node.expr.names → declaredName d ≠ none
  unchanged : Unchanged M (· ∈ site.node.expr.names) (· ∈ site.args) site.node.expr s

section
variable {M : Machine} {ctx : Ctx} {site : InlineSite} {types : Span → Option Text}
  {ftypes : FreeTypes} {s : State}

theorem Harmless.grabs_none (hcond : Harmless M ctx site s)
    (h : Accepted ctx.fn types site ftypes) {k : Kind} {children : List Expr}
    (hnode : .node k children ∈ site.node.expr.iterSubtree) (hk : k.grabs = true) {x : Name}
    (hx : headBase children = some x) : x ∉ site.args := by
  intro harg
  obtain ⟨p, hp, rfl, hpointer⟩ := h.grabs_pointer hnode hk hx harg
  exact hcond.kept k children hnode hk p hp hpointer hx

theorem Harmless.params_reg (hcond : Harmless M ctx site s)
    (h : Accepted ctx.fn types site ftypes) : ∀ p ∈ site.helper.params, p.inMemory = false := by
  intro p hp
  have harg : p.name ∈ site.args := h.param_names ▸ List.mem_map_of_mem hp
  rw [h.params] at hp
  obtain ⟨entry, -, rfl⟩ := List.mem_map.mp hp
  rw [decide_eq_false_iff_not]
  intro haddressed
  obtain ⟨m, hm, hbase⟩ := List.mem_filterMap.mp haddressed
  split at hbase
  · exact hcond.grabs_none h hm rfl hbase harg
  · cases hbase

theorem Harmless.self_rel (hcond : Harmless M ctx site s)
    (h : Accepted ctx.fn types site ftypes) :
    ERel (copies (· ∈ site.node.expr.names) (· ∈ site.args)) site.node.expr site.node.expr :=
  .diag (fun _ hx => ⟨rfl, hx⟩) fun _ _ hnode hk _ hx hro => hcond.grabs_none h hnode hk hx hro.2

/-- The helper runs on copies of the arguments. -/
theorem Harmless.onCopies (hcond : Harmless M ctx site s)
    (h : Accepted ctx.fn types site ftypes) (htypes : ctx.types = some types)
    (htyped : Typed M ctx site.node s) {objs : List Obj}
    (hobjs : site.args.map (fun x => content s.mem (M.look s.locals x)) = objs.map some) :
    OnCopies M (· ∈ site.node.expr.names) (· ∈ site.args) s
      ⟨[[], regScope M site.helper.params objs], s.mem⟩ where
  mem := rfl
  copied x _ hfree := by
    rw [← h.param_names] at hobjs hfree
    rw [List.map_map] at hobjs
    have hty : ∀ p ∈ site.helper.params, ∀ o,
        content s.mem (M.look s.locals p.name) = some o → o.Passes M p.ty := by
      intro p hp o ho
      obtain ⟨way, hway, hty⟩ := h.free_occurs hp
      exact htyped.named types htypes way p.name p.ty o hway hty ho
    obtain ⟨o, o', ho, hlookup, hcells⟩ :=
      lookup_regScope (c := fun x => content s.mem (M.look s.locals x)) hobjs hty hfree
    refine ⟨o', ?_, ?_⟩
    · rw [Machine.look, lookup, lookup, hlookup]
      rfl
    · rw [cells, ho, hcells]
      rfl
  outside x hused hfree := by
    constructor
    · by_contra hlocal
      obtain ⟨d, hd, rfl⟩ := htyped.declared x hlocal
      obtain ⟨y, hy⟩ := Option.ne_none_iff_exists'.mp (hcond.found d hd hused)
      have hname := declaredName_eq hy
      refine hfree (h.mem_args.mpr ⟨hused, ?_⟩)
      exact List.mem_filterMap.mpr ⟨d, hd, hname ▸ hy⟩
    · rw [lookup, lookup, lookup_regScope_none (h.param_names ▸ hfree)]
      rfl

/-- Where the condition holds, the call of the helper has the outcomes that the
expression has in its place, with the same value and the same locals and memory. -/
theorem inline_preserves (hsite : site ∈ exprInlineSites ctx) (htyped : Typed M ctx site.node s)
    (hcond : Harmless M ctx site s) (v : Val) (s' : State) :
    Steps M .value site.node.expr s (.val v) s' ↔ site.Called M s s' v := by
  obtain ⟨types, ftypes, htypes, h⟩ := accepted_of_mem hsite
  have hbody : site.helper.body = [.ret (some site.node.expr)] := by
    rw [h.helper]
    rfl
  have hreg := hcond.params_reg h
  constructor
  · intro hsteps
    obtain ⟨objs, hobjs⟩ := exists_objects (c := fun x => content s.mem (M.look s.locals x))
      fun x hx => htyped.objects x (h.mem_args.mp hx).1 (h.mem_args.mp hx).2
    have hon := hcond.onCopies h htypes htyped hobjs
    obtain ⟨hlocals, f', hrel, hsteps'⟩ := hon.steps (hcond.self_rel h) hcond.unchanged hsteps
    obtain rfl := hrel.of_val
    have hlength : site.helper.params.length = objs.length := by
      simpa [← h.param_names] using congrArg List.length hobjs
    refine ⟨objs, hobjs, s'.mem, ?_, by rw [← hlocals]⟩
    refine (called_return_iff hbody).mpr ⟨_, _, v, v, _, (enter_regs hreg).mpr ⟨hlength, rfl, rfl⟩,
      hsteps', ?_, htyped.valued types htypes _ v s' h.typ hsteps, rfl⟩
    exact congrArg (State.mk []) (freeScope_regScope _)
  · rintro ⟨objs, hobjs, m', hcalled, rfl⟩
    obtain ⟨scope, m₁, w, v', t, henter, hsteps, hclose, hconvert, hv⟩ :=
      (called_return_iff hbody).mp hcalled
    obtain ⟨-, rfl, rfl⟩ := (enter_regs hreg).mp henter
    have hon := hcond.onCopies h htypes htyped hobjs
    obtain ⟨hlocals, e', hrel, hsteps'⟩ := hon.steps_back (hcond.self_rel h) hcond.unchanged hsteps
    obtain rfl := hrel.flip.of_val
    have hm' : t.mem = m' := by
      have ht : t = ⟨[[], regScope M site.helper.params objs], t.mem⟩ := by
        exact congrArg (State.mk · t.mem) hlocals
      rw [ht] at hclose
      have hmem : State.freeScope (regScope M site.helper.params objs) t.mem = m' :=
        congrArg State.mem hclose
      rwa [freeScope_regScope] at hmem
    have hvalue := htyped.valued types htypes _ w _ h.typ hsteps'
    rw [hconvert] at hvalue
    cases hv
    cases hvalue
    exact hm' ▸ hsteps'

end

/-! ## Two functions -/

/-- `int f(int *p, int y) { return *p + y; }` and its types. -/
def sumNode : Node where
  holder := .other
  parents := []
  expr := .node (.binary (.arith .add)) [.node .deref [.ident ['p']], .ident ['y']]
  span
    | [] => (30, 36)
    | [0] => (30, 32)
    | [0, 0] => (31, 32)
    | _ => (35, 36)

def sumCtx : Ctx where
  fn := ⟨['f'], [.pointer (.identifier ['p']), .identifier ['y']], [], [sumNode]⟩
  types := some fun
    | (31, 32) => some "int *".toList
    | _ => some "int".toList

def sumSite : InlineSite :=
  ⟨sumNode, inlineHelper ['f'] sumNode "int".toList
    [(['y'], "int".toList), (['p'], "int *".toList)], [['y'], ['p']]⟩

def sumState : State where
  locals := [[(['p'], .reg (scalar "int *" (.ptr 0 0))), (['y'], .reg (scalar "int" (.int 5)))]]
  mem b := if b = 0 then some (scalar "int" (.int 7)) else none

theorem sumSite_mem : sumSite ∈ exprInlineSites sumCtx := by
  have hsites : exprInlineSites sumCtx = [sumSite] := rfl
  rw [hsites]
  exact List.mem_singleton_self _

theorem sumState_typed : Typed (plainMachine noGlobals) sumCtx sumNode sumState where
  declared x hx := by
    have hmem : x = ['p'] ∨ x = ['y'] := by
      by_contra hne
      obtain ⟨hp, hy⟩ := not_or.mp hne
      refine hx (lookup_eq_none_iff.mpr ?_)
      simp [sumState, scopeNames, hp, hy]
    rcases hmem with rfl | rfl
    · exact ⟨_, List.mem_cons_self, rfl⟩
    · exact ⟨_, List.mem_cons_of_mem _ List.mem_cons_self, rfl⟩
  objects x hx _ := by
    have hmem : x ∈ [['y'], ['p']] := hx
    simp only [List.mem_cons, List.not_mem_nil, or_false] at hmem
    rcases hmem with rfl | rfl
    · exact ⟨_, rfl⟩
    · exact ⟨_, rfl⟩
  named types htypes way x t o hway ht ho := by
    cases htypes
    have hmem : (way, x) ∈ [([1], ['y']), ([0, 0], ['p'])] := hway
    simp only [List.mem_cons, List.not_mem_nil, or_false, Prod.mk.injEq] at hmem
    obtain ⟨rfl, rfl⟩ | ⟨rfl, rfl⟩ := hmem
    · cases ht
      cases ho
      exact passes_self rfl
    · cases ht
      cases ho
      exact passes_self rfl
  valued _ _ _ _ _ _ _ := rfl

theorem sum_quiet : sumNode.expr.Quiet :=
  .node rfl (by
    intro c hc
    simp only [List.mem_cons, List.not_mem_nil, or_false] at hc
    rcases hc with rfl | rfl
    · exact .node rfl fun c hc => by
        cases List.mem_singleton.mp hc
        exact .ident _
    · exact .ident _)

theorem sumState_harmless : Harmless (plainMachine noGlobals) sumCtx sumSite sumState where
  kept k children hnode hk := by
    have hmem : Expr.node k children ∈
        [sumNode.expr, .ident ['y'], .node .deref [.ident ['p']], .ident ['p']] := hnode
    simp only [List.mem_cons, List.not_mem_nil, or_false, sumNode, Expr.node.injEq, reduceCtorEq,
      false_or] at hmem
    obtain ⟨rfl, rfl⟩ | ⟨rfl, rfl⟩ := hmem
    · cases hk
    · cases hk
  found d hd _ := by
    have hmem : d ∈ [.pointer (.identifier ['p']), .identifier ['y']] := hd
    simp only [List.mem_cons, List.not_mem_nil, or_false] at hmem
    rcases hmem with rfl | rfl
    · simp [declaredName]
    · simp [declaredName]
  unchanged := sum_quiet.unchanged _ _

theorem sum_steps :
    Steps (plainMachine noGlobals) .value sumNode.expr sumState (.val (.int 12)) sumState := by
  have hp : Step (plainMachine noGlobals) .value (.ident ['p']) sumState (.val (.ptr 0 0))
      sumState := .read rfl rfl
  have hy : Step (plainMachine noGlobals) .value (.ident ['y']) sumState (.val (.int 5))
      sumState := .read rfl rfl
  have hderef : Step (plainMachine noGlobals) .value (.node .deref [.val (.ptr 0 0)]) sumState
      (.val (.int 7)) sumState := .read rfl rfl
  have hadd : Step (plainMachine noGlobals) .value
      (.node (.binary (.arith .add)) [.val (.int 7), .val (.int 5)]) sumState (.val (.int 12))
      sumState := .reduce rfl
  refine steps_head (step_first rfl (step_first rfl hp)) ?_
  refine steps_head (step_first rfl hderef) ?_
  exact steps_head (step_second rfl hy) (.single hadd)

/-- The helper of `*p + y` gives the sum and changes nothing. -/
theorem sum_called :
    sumSite.Called (plainMachine noGlobals) sumState sumState (.int 12) :=
  (inline_preserves sumSite_mem sumState_typed sumState_harmless (.int 12) sumState).mp sum_steps

/-- `int f(int *p) { return *p++ + 1; }` and its types. -/
def stepNode : Node where
  holder := .other
  parents := [⟨.binary (.arith .add), [], [.val (.int 1)]⟩]
  expr := .node .deref [.node (.update false .add) [.ident ['p']]]
  span
    | [] => (23, 27)
    | [0] => (24, 27)
    | _ => (24, 25)

def stepCtx : Ctx where
  fn := ⟨['f'], [.pointer (.identifier ['p'])], [], [stepNode]⟩
  types := some fun
    | (23, 27) => some "int".toList
    | _ => some "int *".toList

def stepSite : InlineSite :=
  ⟨stepNode, inlineHelper ['f'] stepNode "int".toList [(['p'], "int *".toList)], [['p']]⟩

def stepState (off : Int) : State where
  locals := [[(['p'], .reg ⟨"int *".toList,
    Function.update (fun _ => none) 0 (some (.ptr 0 off))⟩)]]
  mem b := if b = 0 then some (scalar "int" (.int 7)) else none

theorem stepState_typed : Typed (plainMachine noGlobals) stepCtx stepNode (stepState 0) where
  declared x hx := by
    have hmem : x = ['p'] := by
      by_contra hne
      refine hx (lookup_eq_none_iff.mpr ?_)
      simp [stepState, scopeNames, hne]
    exact ⟨_, List.mem_cons_self, hmem.symm⟩
  objects x hx _ := by
    cases List.mem_singleton.mp hx
    exact ⟨_, rfl⟩
  named types htypes way x t o hway ht ho := by
    cases htypes
    cases List.mem_singleton.mp hway
    cases ht
    cases ho
    exact passes_self rfl
  valued _ _ _ _ _ _ _ := rfl

theorem step_steps : Steps (plainMachine noGlobals) .value stepNode.expr (stepState 0)
    (.val (.int 7)) (stepState 1) := by
  have hupdate : Step (plainMachine noGlobals) .value (.node (.update false .add) [.ident ['p']])
      (stepState 0) (.val (.ptr 0 0)) (stepState 1) := by
    have hcells : Function.update (Function.update (fun _ => none) 0 (some (.ptr 0 0))) 0
        (some (.ptr 0 1)) = Function.update (fun _ : Int => none) 0 (some (Val.ptr 0 1)) :=
      Function.update_idem ..
    have hstate : stepState 1 = ⟨[[(['p'], .reg ⟨"int *".toList, Function.update
        (Function.update (fun _ => none) 0 (some (.ptr 0 0))) 0 (some (.ptr 0 1))⟩)]],
        (stepState 0).mem⟩ := by
      rw [hcells]
      rfl
    rw [hstate]
    exact .reduce rfl
  have hderef : Step (plainMachine noGlobals) .value (.node .deref [.val (.ptr 0 0)]) (stepState 1)
      (.val (.int 7)) (stepState 1) := .read rfl rfl
  exact steps_head (step_first rfl hupdate) (.single hderef)

/-- `*p++` is accepted, since `p` is a pointer, but the helper steps its own copy: the
call cannot leave the state that the expression leaves. -/
theorem pointer_step_lost :
    stepSite ∈ exprInlineSites stepCtx ∧
      Typed (plainMachine noGlobals) stepCtx stepSite.node (stepState 0) ∧
      Steps (plainMachine noGlobals) .value stepSite.node.expr (stepState 0) (.val (.int 7))
        (stepState 1) ∧
      ¬stepSite.Called (plainMachine noGlobals) (stepState 0) (stepState 1) (.int 7) := by
  have hsites : exprInlineSites stepCtx = [stepSite] := rfl
  refine ⟨hsites ▸ List.mem_singleton_self _, stepState_typed, step_steps, ?_⟩
  rintro ⟨_, _, m', _, hstate⟩
  have hlocals := congrArg State.locals hstate
  simp only [stepState, List.cons.injEq, Prod.mk.injEq, Binding.reg.injEq, Obj.mk.injEq] at hlocals
  have hcell := congrFun hlocals.1.1.2.2 0
  simp at hcell

end MeleeHarness.SrcMutate
