import MeleeHarness.SrcMutate.Inline
import MeleeHarness.Lib.C.Simulate
import MeleeHarness.Lib.C.Sequence

/-!
# Replacing a call by the helper's body

`p_manual_inline`: a statement that calls a `static inline void` helper of the same
file becomes a block with the body of the helper, in which the arguments stand for
the parameters. The bodies are those of the subset, without `goto`, labels and
preprocessor lines, which the check refuses.

* `manualInline_preserves`: when the block does what the call does;
* `parameter_store_leaks`: an accepted helper that stores to its parameter.
-/

namespace MeleeHarness.SrcMutate

open Lib Lib.C

/-- A function of the file. The declarators are those of the locals in its body. -/
structure Definition where
  declarator : Declarator
  typ : Text
  head : Text
  params : List (Declarator × Text)
  body : List Stmt
  declarators : List Declarator
  start : Nat
  params_distinct : (params.map fun p => p.1.name).Nodup
  locals_declared : Stmt.itemsLocals body = declarators.map Declarator.name

def isStaticInlineVoid (d : Definition) : Bool :=
  words d.typ = ["void".toList] ∧ "static".toList <:+: d.head ∧ "inline".toList <:+: d.head

def paramNames (d : Definition) : List Name := d.params.filterMap fun p => declaredName p.1

mutual

/-- No `return`, `break` or `continue` anywhere. -/
def jumpFree : Stmt → Bool
  | .expression _ | .declaration _ _ _ _ => true
  | .compound items | .switch _ _ items => itemsJumpFree items
  | .ifElse _ t f => jumpFree t && jumpFree f
  | .whileDo _ body | .doWhile body _ | .forDo _ _ _ body => jumpFree body
  | .ret _ | .brk | .cont => false

def itemsJumpFree : List Stmt → Bool
  | [] => true
  | s :: rest => jumpFree s && itemsJumpFree rest

end

def manualInlineBodySafe (d : Definition) (params : List Name) : Bool :=
  itemsJumpFree d.body && d.declarators.all fun x => (declaredName x).getD [] ∉ params

/-- The functions of the file in the order in which they are visited, where the one
that is mutated starts, and its statements. -/
structure TranslationUnit where
  definitions : List Definition
  fnStart : Nat
  statements : List Stmt

def manualInlineHelpers (unit : TranslationUnit) : List (Name × Definition) :=
  unit.definitions.filterMap fun d => do
    guard (d.start ≠ unit.fnStart ∧ isStaticInlineVoid d)
    let name ← declaredName d.declarator
    guard (manualInlineBodySafe d (paramNames d))
    return (name, d)

/-- The identifier that an identifier of the body is replaced by. -/
def substitute (params args : List Name) (x : Name) : Name :=
  ((params.zip args).reverse.lookup x).getD x

structure InlineCall where
  name : Name
  helper : Definition
  args : List Name

def InlineCall.block (site : InlineCall) : Stmt :=
  .compound (Stmt.renameItems (substitute (paramNames site.helper) site.args) site.helper.body)

/-- A later definition takes the place of an earlier one of the same name. -/
def manualInlineSite (helpers : List (Name × Definition)) : Stmt → Option InlineCall
  | .expression (.node .call (.ident name :: args)) => do
    let helper ← helpers.reverse.lookup name
    let names ← args.mapM Expr.ident?
    guard (names.length = (paramNames helper).length)
    return ⟨name, helper, names⟩
  | _ => none

def manualInlineSites (unit : TranslationUnit) : List InlineCall :=
  unit.statements.filterMap (manualInlineSite (manualInlineHelpers unit))

/-! ## The call -/

def addressedIn (items : List Stmt) : List Name := (Stmt.itemsExprs items).flatMap addressed

def Definition.function (d : Definition) : Function where
  name := d.declarator.name
  params := d.params.map fun (x, ty) => ⟨x.name, ty, x.name ∈ addressedIn d.body⟩
  result := "void".toList
  body := d.body

/-- The call of the helper, which no local hides: the arguments are copied, and memory
alone can change. -/
def InlineCall.Called (M : Machine) (site : InlineCall) (s s' : State) : Prop :=
  lookup site.name s.locals = none ∧
  ∃ objs, site.args.map (fun x => content s.mem (M.look s.locals x)) = objs.map some ∧
    ∃ m' r, C.Called M site.helper.function objs s.mem m' r ∧ s' = ⟨s.locals, m'⟩

/-! ## What is accepted -/

theorem manual_accepted {unit : TranslationUnit} {site : InlineCall}
    (h : site ∈ manualInlineSites unit) :
    manualInlineBodySafe site.helper (paramNames site.helper) = true ∧
      site.args.length = (paramNames site.helper).length := by
  obtain ⟨stmt, -, hstmt⟩ := List.mem_filterMap.mp h
  unfold manualInlineSite at hstmt
  split at hstmt
  · simp only [guard, Option.bind_eq_bind, Option.bind_eq_some_iff, Option.pure_def,
      Option.some.injEq] at hstmt
    obtain ⟨helper, hhelper, names, -, _, hlength, rfl⟩ := hstmt
    obtain ⟨l₁, l₂, hsplit, -⟩ := List.lookup_eq_some_iff.mp hhelper
    have hmem : helper ∈ (manualInlineHelpers unit).map Prod.snd := by
      rw [← List.mem_reverse, ← List.map_reverse, hsplit]
      simp
    obtain ⟨entry, hentry, rfl⟩ := List.mem_map.mp hmem
    obtain ⟨d, -, hd⟩ := List.mem_filterMap.mp hentry
    simp only [guard, Option.bind_eq_bind, Option.bind_eq_some_iff, Option.pure_def,
      Option.some.injEq] at hd
    obtain ⟨_, -, name, -, _, hsafe, rfl⟩ := hd
    constructor
    · by_contra hnot
      simp [hnot] at hsafe
    · by_contra hnot
      simp [hnot] at hlength
  · cases hstmt

mutual

theorem jumpFree_stays {b c : Bool} : ∀ s : Stmt, jumpFree s = true → s.stays b c = true
  | .expression _, _ => rfl
  | .declaration _ _ _ _, _ => rfl
  | .compound items, h => itemsJumpFree_stays items h
  | .switch _ _ items, h => itemsJumpFree_stays items h
  | .ifElse _ t f, h => by
    rw [jumpFree, Bool.and_eq_true] at h
    rw [Stmt.stays, jumpFree_stays t h.1, jumpFree_stays f h.2]
    rfl
  | .whileDo _ body, h => jumpFree_stays body h
  | .doWhile body _, h => jumpFree_stays body h
  | .forDo _ _ _ body, h => jumpFree_stays body h

theorem itemsJumpFree_stays {b c : Bool} :
    ∀ items : List Stmt, itemsJumpFree items = true → itemsStay b c items = true
  | [], _ => rfl
  | s :: rest, h => by
    rw [itemsJumpFree, Bool.and_eq_true] at h
    rw [itemsStay, jumpFree_stays s h.1, itemsJumpFree_stays rest h.2]
    rfl

end

section
variable {d : Definition}

/-- A helper is called with as many arguments as it has parameters, so all of these
have a name that is seen. -/
theorem paramNames_eq (h : (paramNames d).length = d.params.length) :
    paramNames d = d.params.map fun p => p.1.name := by
  have hall : ∀ params : List (Declarator × Text),
      (params.filterMap fun p => declaredName p.1).length = params.length →
      (params.filterMap fun p => declaredName p.1) = params.map fun p => p.1.name := by
    intro params
    induction params with
    | nil => exact fun _ => rfl
    | cons p params ih =>
      intro hlength
      cases hname : declaredName p.1 with
      | none =>
        have hle := List.length_filterMap_le (fun p : Declarator × Text => declaredName p.1) params
        simp only [List.filterMap_cons, hname, List.length_cons] at hlength
        omega
      | some x =>
        simp only [List.filterMap_cons, hname, List.length_cons, Nat.add_right_cancel_iff] at hlength
        simp only [List.filterMap_cons, hname, List.map_cons, ih hlength, declaredName_eq hname]
  exact hall d.params h

end

section
variable {params args : List Name}

theorem substitute_other {x : Name} (hx : x ∉ params) : substitute params args x = x := by
  have hnone : (params.zip args).reverse.lookup x = none := by
    rw [List.lookup_eq_none_iff]
    intro p hp
    have hmem : p.1 ∈ params := (List.of_mem_zip (List.mem_reverse.mp hp)).1
    simp only [bne_iff_ne, ne_eq]
    rintro rfl
    exact hx hmem
  rw [substitute, hnone]
  rfl

theorem lookup_of_mem {α β : Type} [BEq α] [LawfulBEq α] {l : List (α × β)}
    (h : (l.map Prod.fst).Nodup) {a : α} {b : β} (hmem : (a, b) ∈ l) : l.lookup a = some b := by
  induction l with
  | nil => cases hmem
  | cons entry rest ih =>
    obtain ⟨c, d⟩ := entry
    rw [List.map_cons, List.nodup_cons] at h
    rw [List.lookup_cons]
    rcases List.mem_cons.mp hmem with heq | hrest
    · cases heq
      simp
    · have hne : a ≠ c := by
        rintro rfl
        exact h.1 (List.mem_map.mpr ⟨(a, b), hrest, rfl⟩)
      rw [beq_eq_false_iff_ne.mpr hne]
      exact ih h.2 hrest

theorem substitute_params (hnodup : params.Nodup) (hlength : params.length = args.length) :
    params.map (substitute params args) = args := by
  have hkeys : ((params.zip args).reverse.map Prod.fst).Nodup := by
    rw [List.map_reverse, (List.reverse_perm _).nodup_iff, List.map_fst_zip (by omega)]
    exact hnodup
  refine List.ext_getElem (by simpa using hlength) fun i hi hi' => ?_
  have hi'' : i < params.length := by simpa using hi
  have hmem : (params[i], args[i]) ∈ (params.zip args).reverse := by
    have hzip : i < (params.zip args).length := by
      rw [List.length_zip]
      omega
    rw [List.mem_reverse, ← List.getElem_zip (h := hzip)]
    exact List.getElem_mem hzip
  rw [List.getElem_map, substitute, lookup_of_mem hkeys hmem]
  rfl

end

/-! ## When the block does the same -/

/-- A parameter corresponds to its argument, another name to itself where no local of
the caller hides it. -/
def manualNames (params : List Name) (σ : Name → Name) (locals : List Scope) : NRel where
  rel x y := y = σ x ∧ (x ∈ params ∨ lookup x locals = none)
  ro x y := y = σ x ∧ x ∈ params

/-- What an expression of the body must not do: store to a parameter or take its
address, use a parameter where a local has the name of its argument, or use a name
that a local of the caller hides. -/
structure Fair (params : List Name) (σ : Name → Name) (locals : List Scope) (Γ : List Name)
    (e : Expr) : Prop where
  kept : ∀ k children, .node k children ∈ e.iterSubtree → k.grabs = true →
    ∀ x ∈ params, headBase children ≠ some x
  uncaptured : ∀ x ∈ e.names, x ∈ params → σ x ∉ Γ
  visible : ∀ x ∈ e.names, x ∉ params → x ∉ Γ → lookup x locals = none

theorem Fair.rel {params : List Name} {σ : Name → Name} {locals : List Scope} {Γ : List Name}
    {e : Expr} (hσ : ∀ x, x ∉ params → σ x = x) (hΓ : ∀ x ∈ Γ, x ∉ params)
    (h : Fair params σ locals Γ e) :
    ERel ((manualNames params σ locals).under Γ) e (e.rename σ) := by
  refine .rename (fun x hx => ?_) fun k children hnode hk x hx hro => ?_
  · by_cases hparam : x ∈ params
    · have hxΓ : x ∉ Γ := fun hmem => hΓ x hmem hparam
      exact .inr ⟨hxΓ, h.uncaptured x hx hparam, rfl, .inl hparam⟩
    · have hself := hσ x hparam
      by_cases hxΓ : x ∈ Γ
      · exact .inl ⟨hxΓ, hself⟩
      · refine .inr ⟨hxΓ, ?_, rfl, .inr (h.visible x hx hparam hxΓ)⟩
        rw [hself]
        exact hxΓ
  · exact h.kept k children hnode hk x hro.2.2.2 hx

/-- Parameters in a scope apart from memory, over the arguments they are copies of. -/
def manualSim (M : Machine) (params : List Name) (σ : Name → Name) (scope : Scope)
    (locals : List Scope) (m₀ : Mem)
    (hcopy : ∀ x ∈ params, ∃ o, scope.lookup x = some (.reg o) ∧
      cells m₀ (M.look locals (σ x)) = some o.cells)
    (hσ : ∀ x, x ∉ params → σ x = x) (hother : ∀ x, x ∉ params → scope.lookup x = none) :
    Sim M (manualNames params σ locals) where
  Bot a b m := a = [scope] ∧ b = locals ∧
    ∀ x ∈ params, cells m (M.look locals (σ x)) = cells m₀ (M.look locals (σ x))
  Keep m := ∀ x ∈ params, cells m (M.look locals (σ x)) = cells m₀ (M.look locals (σ x))
  keep hbot hkeep := ⟨hbot.1, hbot.2.1, hkeep⟩
  names hbot x y hrel := by
    obtain ⟨rfl, rfl, hcells⟩ := hbot
    obtain ⟨rfl, hx⟩ := hrel
    by_cases hparam : x ∈ params
    · refine ⟨fun hro => absurd ⟨rfl, hparam⟩ hro, fun _ => ?_⟩
      obtain ⟨o, hlookup, hcopied⟩ := hcopy x hparam
      rw [hcells x hparam, hcopied, Machine.look, lookup, hlookup]
      rfl
    · refine ⟨fun _ => ?_, fun hro => absurd hro.2 hparam⟩
      rw [hσ x hparam, Machine.look, Machine.look, lookup, hother x hparam,
        hx.resolve_left hparam]
      rfl
  write o' hbot hrel hro hlook := by
    obtain ⟨rfl, rfl, -⟩ := hbot
    obtain ⟨rfl, -⟩ := hrel
    have hparam : _ ∉ params := fun hparam => hro ⟨rfl, hparam⟩
    refine absurd hlook (look_global ?_ _)
    rw [lookup, hother _ hparam]
    rfl

abbrev InlineCall.params (site : InlineCall) : List Name := paramNames site.helper

abbrev InlineCall.subst (site : InlineCall) : Name → Name := substitute site.params site.args

/-- What the check leaves open: no local of the caller hides the helper, the body is
fair to its parameters, redeclares none of them in parentheses, the arguments are not
converted as they are passed, and nothing changes them while the helper runs. -/
structure ManualHarmless (M : Machine) (site : InlineCall) (s : State) : Prop where
  unhidden : lookup site.name s.locals = none
  fair : Stmt.EachItem (Fair site.params site.subst s.locals) [] site.helper.body
  redeclared : ∀ x ∈ site.helper.declarators, declaredName x = none → x.name ∉ site.params
  passes : ∀ p ∈ site.helper.params, ∀ o,
    content s.mem (M.look s.locals (site.subst p.1.name)) = some o → o.Passes M p.2
  unchanged : ∀ objs scope m c,
    site.args.map (fun x => content s.mem (M.look s.locals x)) = objs.map some →
    Enter M site.helper.function.params objs s.mem scope m →
    Runs M (site.helper.function.tasks, ⟨[scope], m⟩) c →
    ∀ x ∈ site.args, cells c.2.mem (M.look s.locals x) = cells s.mem (M.look s.locals x)

section
variable {M : Machine} {unit : TranslationUnit} {site : InlineCall} {s : State}

theorem function_param_names (hnames : site.params = site.helper.params.map fun p => p.1.name) :
    site.helper.function.params.map Param.name = site.params := by
  rw [hnames, Definition.function, List.map_map]
  rfl

theorem ManualHarmless.locals (hcond : ManualHarmless M site s)
    (hsafe : manualInlineBodySafe site.helper site.params = true) :
    ∀ x ∈ Stmt.itemsLocals site.helper.body, x ∉ site.params := by
  intro x hx
  rw [site.helper.locals_declared] at hx
  obtain ⟨d, hd, rfl⟩ := List.mem_map.mp hx
  cases hname : declaredName d with
  | none => exact hcond.redeclared d hd hname
  | some y =>
    rw [manualInlineBodySafe, Bool.and_eq_true, List.all_eq_true] at hsafe
    have hnot := hsafe.2 d hd
    rw [hname, Option.getD_some, decide_eq_true_eq] at hnot
    rwa [declaredName_eq hname]

theorem ManualHarmless.params_reg (hcond : ManualHarmless M site s)
    (hsafe : manualInlineBodySafe site.helper site.params = true)
    (hnames : site.params = site.helper.params.map fun p => p.1.name) :
    ∀ p ∈ site.helper.function.params, p.inMemory = false := by
  have hkept : Stmt.EachItem (fun _ e => ∀ k children, .node k children ∈ e.iterSubtree →
      k.grabs = true → ∀ x ∈ site.params, headBase children ≠ some x) [] site.helper.body :=
    Stmt.EachItem.imp (fun _ _ _ h => h.kept) _ (by simp) (hcond.locals hsafe) hcond.fair
  intro p hp
  obtain ⟨q, hq, rfl⟩ := List.mem_map.mp hp
  rw [decide_eq_false_iff_not]
  intro haddressed
  obtain ⟨e, he, hx⟩ := List.mem_flatMap.mp haddressed
  obtain ⟨node, hnode, hbase⟩ := List.mem_filterMap.mp hx
  have hparam : q.1.name ∈ site.params := hnames ▸ List.mem_map_of_mem hq
  split at hbase
  · exact Stmt.EachItem.exprs _ hkept e he _ _ hnode rfl _ hparam hbase
  · cases hbase

/-- The body and the block correspond. -/
theorem ManualHarmless.rel (hcond : ManualHarmless M site s)
    (hsafe : manualInlineBodySafe site.helper site.params = true) :
    SRel (manualNames site.params site.subst s.locals) [] (.compound site.helper.body)
      site.block := by
  have hother : ∀ x, x ∉ site.params → site.subst x = x := fun x hx => substitute_other hx
  have hlocals := hcond.locals hsafe
  refine .compound (.rename _ ?_ fun x hx => hother x (hlocals x hx))
  exact Stmt.EachItem.imp (fun _ _ hΓ h => h.rel hother hΓ) _ (by simp) hlocals hcond.fair

/-- The parameters are bound to copies of their arguments. -/
theorem ManualHarmless.copies (hcond : ManualHarmless M site s)
    (hparams : site.helper.function.params.map Param.name = site.params)
    (hargs : site.params.map site.subst = site.args) {objs : List Obj}
    (hobjs : site.args.map (fun x => content s.mem (M.look s.locals x)) = objs.map some) :
    ∀ x ∈ site.params, ∃ o,
      (regScope M site.helper.function.params objs).lookup x = some (.reg o) ∧
        cells s.mem (M.look s.locals (site.subst x)) = some o.cells := by
  intro x hx
  rw [← hargs, ← hparams, List.map_map, List.map_map] at hobjs
  rw [← hparams] at hx
  have hty : ∀ p ∈ site.helper.function.params, ∀ o,
      content s.mem (M.look s.locals (site.subst p.name)) = some o → o.Passes M p.ty := by
    intro p hp
    obtain ⟨q, hq, rfl⟩ := List.mem_map.mp hp
    exact hcond.passes q hq
  obtain ⟨o, o', ho, hlookup, hcells⟩ :=
    lookup_regScope (c := fun x => content s.mem (M.look s.locals (site.subst x))) hobjs hty hx
  refine ⟨o', hlookup, ?_⟩
  rw [cells, ho, hcells]
  rfl

/-- Where the condition holds, the block has the effects on the caller's variables and
on memory that the call has. -/
theorem manualInline_preserves (hsite : site ∈ manualInlineSites unit)
    (hcall : site.args.length = site.helper.params.length)
    (hobjects : ∀ x ∈ site.args, ∃ o, content s.mem (M.look s.locals x) = some o)
    (hcond : ManualHarmless M site s) (s' : State) :
    site.Called M s s' ↔ Runs M ([.stmt site.block], s) ([], s') := by
  obtain ⟨hsafe, hlength⟩ := manual_accepted hsite
  have hnames := paramNames_eq (hlength.symm.trans hcall)
  have hparams := function_param_names hnames
  have hreg := hcond.params_reg hsafe hnames
  have hstays : itemsStay false false site.helper.function.body = true :=
    itemsJumpFree_stays _ (Bool.and_eq_true_iff.mp hsafe).1
  have hargs : site.params.map site.subst = site.args := by
    refine substitute_params ?_ hlength.symm
    rw [InlineCall.params, hnames]
    exact site.helper.params_distinct
  obtain ⟨objs, hobjs⟩ := exists_objects (c := fun x => content s.mem (M.look s.locals x)) hobjects
  have hcopy := hcond.copies hparams hargs hobjs
  have hother : ∀ x, x ∉ site.params →
      (regScope M site.helper.function.params objs).lookup x = none :=
    fun x hx => lookup_regScope_none (hparams ▸ hx)
  have hcount : site.helper.function.params.length = objs.length := by
    simpa [← hargs, ← hparams] using congrArg List.length hobjs
  have henter := (enter_regs (M := M) (m := s.mem) hreg).mpr ⟨hcount, rfl, rfl⟩
  let S := manualSim M site.params site.subst (regScope M site.helper.function.params objs)
    s.locals s.mem hcopy (fun x hx => substitute_other hx) hother
  have hrelated : Related S ([.stmt (.compound site.helper.body)],
      ⟨[regScope M site.helper.function.params objs], s.mem⟩) ([.stmt site.block], s) :=
    .start (m := s.mem) (hcond.rel hsafe) rfl rfl ⟨rfl, rfl, fun _ _ => rfl⟩
  have hkeep : ∀ c, Runs M ([.stmt (.compound site.helper.body)],
      ⟨[regScope M site.helper.function.params objs], s.mem⟩) c → S.Keep c.2.mem := by
    intro c hruns x hx
    have hmem : site.subst x ∈ site.args := hargs ▸ List.mem_map_of_mem hx
    exact hcond.unchanged objs _ _ _ hobjs henter (runs_append hruns) _ hmem
  constructor
  · rintro ⟨-, objs', hobjs', m', r, hcalled, rfl⟩
    obtain rfl : objs' = objs :=
      List.map_injective_iff.mpr (fun _ _ => Option.some.inj) (hobjs'.symm.trans hobjs)
    obtain ⟨scope, m₁, t, henter', hruns, hclose, -⟩ := (called_done_iff hstays).mp hcalled
    obtain ⟨-, rfl, rfl⟩ := (enter_regs hreg).mp henter'
    obtain ⟨⟨ts, t'⟩, hruns', hrelated'⟩ := sim_runs hrelated hkeep hruns
    obtain ⟨rfl, ⟨m, hlocals, hlocals', -⟩, hmem⟩ := hrelated'.done
    rw [closeScope_regScope hlocals] at hclose
    obtain rfl : t.mem = m' := congrArg State.mem hclose
    rw [hmem, ← hlocals']
    exact hruns'
  · intro hruns
    obtain ⟨⟨ts, t⟩, hruns', hrelated'⟩ := sim_runs_back hrelated hkeep hruns
    obtain ⟨rfl, ⟨m, hlocals, hlocals', -⟩, hmem⟩ := hrelated'.flip.done
    refine ⟨hcond.unhidden, objs, hobjs, t.mem, none, ?_, ?_⟩
    · refine (called_done_iff hstays).mpr ⟨_, _, t, henter, hruns', ?_, rfl⟩
      exact closeScope_regScope hlocals
    · rw [← hmem, ← hlocals']

end

/-! ## Two helpers -/

/-- A call in a file with one helper that is accepted. -/
theorem site_of_single {d : Definition} {name : Name} {start : Nat} {args : List Name}
    (hstart : d.start ≠ start) (hstatic : isStaticInlineVoid d = true)
    (hname : declaredName d.declarator = some name)
    (hsafe : manualInlineBodySafe d (paramNames d) = true)
    (hlength : args.length = (paramNames d).length) :
    ⟨name, d, args⟩ ∈ manualInlineSites
      ⟨[d], start, [.expression (.node .call (.ident name :: args.map .ident))]⟩ := by
  have hhelpers : ∀ statements, manualInlineHelpers ⟨[d], start, statements⟩ = [(name, d)] := by
    intro statements
    simp only [manualInlineHelpers, List.filterMap_cons, List.filterMap_nil, guard, hstart, hstatic,
      hname, hsafe, ne_eq, not_false_eq_true, and_self, if_true, Option.bind_eq_bind,
      Option.pure_def, Option.bind_some]
  have hargs : (args.map Expr.ident).mapM Expr.ident? = some args := by
    rw [mapM_some_iff, List.forall₂_map_left_iff]
    exact List.forall₂_same.mpr fun _ _ => rfl
  refine List.mem_filterMap.mpr ⟨_, List.mem_singleton_self _, ?_⟩
  rw [hhelpers, manualInlineSite, hargs]
  simp [guard, hlength]

/-- `static inline void put(int *p, int n) { *p = n; }` -/
def putHelper : Definition where
  declarator := .function (.identifier "put".toList)
  typ := "void".toList
  head := "static inline void ".toList
  params := [(.pointer (.identifier ['p']), "int *".toList), (.identifier ['n'], "int".toList)]
  body := [.expression (.node (.assignment none) [.node .deref [.ident ['p']], .ident ['n']])]
  declarators := []
  start := 0
  params_distinct := by decide
  locals_declared := rfl

/-- A function with the statement `put(q, y);`. -/
def putUnit : TranslationUnit where
  definitions := [putHelper]
  fnStart := 50
  statements := [.expression (.node .call [.ident "put".toList, .ident ['q'], .ident ['y']])]

def putSite : InlineCall := ⟨"put".toList, putHelper, [['q'], ['y']]⟩

def putState (n : Int) : State where
  locals := [[(['q'], .reg (scalar "int *" (.ptr 0 0))), (['y'], .reg (scalar "int" (.int 5)))]]
  mem := Function.update (fun _ => none) 0
    (some ⟨"int".toList, Function.update (fun _ => none) 0 (some (.int n))⟩)

theorem putState_harmless : ManualHarmless (plainMachine noGlobals) putSite (putState 7) where
  unhidden := by
    rw [lookup_eq_none_iff]
    decide +kernel
  fair := by
    refine ⟨⟨?_, fun _ _ _ => List.not_mem_nil, ?_⟩, trivial⟩
    · intro k children hnode hk x _ hx
      have hmem : Expr.node k children ∈ [.node (.assignment none) [.node .deref [.ident ['p']],
          .ident ['n']], .ident ['n'], .node .deref [.ident ['p']], .ident ['p']] := hnode
      simp only [List.mem_cons, List.not_mem_nil, or_false, Expr.node.injEq, reduceCtorEq,
        false_or] at hmem
      obtain ⟨rfl, rfl⟩ | ⟨rfl, rfl⟩ := hmem
      · cases hx
      · cases hk
    · intro x hx hparam
      have hmem : x ∈ [['n'], ['p']] := hx
      have hnot : x ∉ [['p'], ['n']] := hparam
      simp only [List.mem_cons, List.not_mem_nil, or_false] at hmem hnot
      tauto
  redeclared x hx := by cases hx
  passes p hp o ho := by
    have hmem : p ∈ [(.pointer (.identifier ['p']), "int *".toList),
        (.identifier ['n'], "int".toList)] := hp
    simp only [List.mem_cons, List.not_mem_nil, or_false] at hmem
    obtain rfl | rfl := hmem
    · cases ho
      exact passes_self rfl
    · cases ho
      exact passes_self rfl
  unchanged _ _ _ _ _ _ _ x hx := by
    have hmem : x ∈ [['q'], ['y']] := hx
    simp only [List.mem_cons, List.not_mem_nil, or_false] at hmem
    obtain rfl | rfl := hmem
    · rfl
    · rfl

theorem putSite_mem : putSite ∈ manualInlineSites putUnit := by
  have hstatic : isStaticInlineVoid putHelper = true := by decide +kernel
  have hsafe : manualInlineBodySafe putHelper (paramNames putHelper) = true := by decide +kernel
  have hstart : putHelper.start ≠ 50 := by decide
  exact @site_of_single putHelper "put".toList 50 [['q'], ['y']] hstart hstatic rfl hsafe rfl

theorem putState_objects : ∀ x ∈ putSite.args,
    ∃ o, content (putState 7).mem ((plainMachine noGlobals).look (putState 7).locals x) = some o := by
  intro x hx
  have hmem : x ∈ [['q'], ['y']] := hx
  simp only [List.mem_cons, List.not_mem_nil, or_false] at hmem
  obtain rfl | rfl := hmem
  · exact ⟨_, rfl⟩
  · exact ⟨_, rfl⟩

/-- One statement in a block, whose expression leaves the scope of the block empty. -/
theorem runs_block {M : Machine} {e : Expr} {v : Val} {s s' : State}
    (h : Steps M .value e s.openScope (.val v) s'.openScope) :
    Runs M ([.stmt (.compound [.expression e])], s) ([], s') := by
  have hopen : Config.Next M ([.stmt (.compound [.expression e])], s)
      ([.stmt (.expression e), .close .block], s.openScope) := .task .compound
  have hstart : Config.Next M ([.stmt (.expression e), .close .block], s.openScope)
      ([.eval e .discard, .close .block], s.openScope) := .task .expression
  refine .head hopen (.head hstart (.trans (runs_eval h) ?_))
  exact .tail (.single (.task .discard)) (.task .close)

/-- A store to the cell replaces what was stored before. -/
theorem putState_store (n n' : Int) :
    (plainMachine noGlobals).store (putState n).openScope (.mem 0 0) (.int n') =
      some ((putState n').openScope, .int n') := by
  have hcells : Function.update (Function.update (fun _ : Int => none) 0 (some (Val.int n))) 0
      (some (.int n')) = Function.update (fun _ => none) 0 (some (.int n')) :=
    Function.update_idem ..
  have hmem : ∀ o : Obj, Function.update (putState n).mem 0 (some o) =
      Function.update (fun _ => none) 0 (some o) := fun _ => Function.update_idem ..
  have hstore : (plainMachine noGlobals).store (putState n).openScope (.mem 0 0) (.int n') =
      some (⟨(putState n).openScope.locals, Function.update (putState n).mem 0
        (some ⟨"int".toList, Function.update (Function.update (fun _ : Int => none) 0
          (some (Val.int n))) 0 (some (.int n'))⟩)⟩, .int n') := rfl
  rw [hstore, hcells, hmem]
  rfl

theorem put_runs : Runs (plainMachine noGlobals) ([.stmt putSite.block], putState 7)
    ([], putState 5) := by
  have hblock : putSite.block = .compound [.expression
      (.node (.assignment none) [.node .deref [.ident ['q']], .ident ['y']])] := rfl
  have hq : Step (plainMachine noGlobals) .value (.ident ['q']) (putState 7).openScope
      (.val (.ptr 0 0)) (putState 7).openScope := .read rfl rfl
  have hy : Step (plainMachine noGlobals) .value (.ident ['y']) (putState 7).openScope
      (.val (.int 5)) (putState 7).openScope := .read rfl rfl
  have hstore : Step (plainMachine noGlobals) .value
      (.node (.assignment none) [.node .deref [.val (.ptr 0 0)], .val (.int 5)])
      (putState 7).openScope (.val (.int 5)) (putState 5).openScope := by
    refine .reduce ?_
    have hplace : (plainMachine noGlobals).placeOf (putState 7).openScope.locals
        (.node .deref [.val (.ptr 0 0)]) = some (.mem 0 0) := rfl
    simp only [Machine.reduce, Expr.val?, hplace, putState_store, Option.bind_eq_bind,
      Option.bind_some, Option.pure_def]
  rw [hblock]
  refine runs_block (v := .int 5) (steps_head (step_first rfl (step_first rfl hq)) ?_)
  exact steps_head (step_second rfl hy) (.single hstore)

/-- `put(q, y)` leaves what the block `{ *q = y; }` leaves. -/
theorem put_called : putSite.Called (plainMachine noGlobals) (putState 7) (putState 5) :=
  (manualInline_preserves putSite_mem rfl putState_objects putState_harmless (putState 5)).mpr
    put_runs

/-- `static inline void bump(int n) { n = n + 1; }` -/
def bumpHelper : Definition where
  declarator := .function (.identifier "bump".toList)
  typ := "void".toList
  head := "static inline void ".toList
  params := [(.identifier ['n'], "int".toList)]
  body := [.expression (.node (.assignment none)
    [.ident ['n'], .node (.binary (.arith .add)) [.ident ['n'], .val (.int 1)]])]
  declarators := []
  start := 0
  params_distinct := by decide
  locals_declared := rfl

/-- A function with the statement `bump(x);`. -/
def bumpUnit : TranslationUnit where
  definitions := [bumpHelper]
  fnStart := 50
  statements := [.expression (.node .call [.ident "bump".toList, .ident ['x']])]

def bumpSite : InlineCall := ⟨"bump".toList, bumpHelper, [['x']]⟩

def bumpState (n : Int) : State where
  locals := [[(['x'], .reg ⟨"int".toList, Function.update (fun _ => none) 0 (some (.int n))⟩)]]
  mem _ := none

theorem bump_runs : Runs (plainMachine noGlobals) ([.stmt bumpSite.block], bumpState 5)
    ([], bumpState 6) := by
  have hblock : bumpSite.block = .compound [.expression (.node (.assignment none)
    [.ident ['x'], .node (.binary (.arith .add)) [.ident ['x'], .val (.int 1)]])] := rfl
  have hx : Step (plainMachine noGlobals) .value (.ident ['x']) (bumpState 5).openScope
      (.val (.int 5)) (bumpState 5).openScope := .read rfl rfl
  have hadd : Step (plainMachine noGlobals) .value
      (.node (.binary (.arith .add)) [.val (.int 5), .val (.int 1)]) (bumpState 5).openScope
      (.val (.int 6)) (bumpState 5).openScope := .reduce rfl
  have hstore : Step (plainMachine noGlobals) .value
      (.node (.assignment none) [.ident ['x'], .val (.int 6)]) (bumpState 5).openScope
      (.val (.int 6)) (bumpState 6).openScope := by
    have hcells : Function.update (Function.update (fun _ : Int => none) 0 (some (Val.int 5))) 0
        (some (.int 6)) = Function.update (fun _ => none) 0 (some (.int 6)) :=
      Function.update_idem ..
    have hreduce : (plainMachine noGlobals).reduce (bumpState 5).openScope (.assignment none)
        [.ident ['x'], .val (.int 6)] = some (.val (.int 6), ⟨[[], [(['x'], .reg ⟨"int".toList,
          Function.update (Function.update (fun _ : Int => none) 0 (some (Val.int 5))) 0
            (some (.int 6))⟩)]], fun _ => none⟩) := rfl
    rw [hcells] at hreduce
    exact .reduce hreduce
  rw [hblock]
  refine runs_block (v := .int 6) (steps_head (step_second rfl (step_first rfl hx)) ?_)
  exact steps_head (step_second rfl hadd) (.single hstore)

/-- A helper that stores to its parameter is accepted, and the block stores to the
variable of the caller: it ends in a state that the call never leaves. -/
theorem parameter_store_leaks :
    bumpSite ∈ manualInlineSites bumpUnit ∧
      Runs (plainMachine noGlobals) ([.stmt bumpSite.block], bumpState 5) ([], bumpState 6) ∧
      ¬bumpSite.Called (plainMachine noGlobals) (bumpState 5) (bumpState 6) := by
  have hstatic : isStaticInlineVoid bumpHelper = true := by decide +kernel
  have hsafe : manualInlineBodySafe bumpHelper (paramNames bumpHelper) = true := by
    decide +kernel
  have hstart : bumpHelper.start ≠ 50 := by decide
  refine ⟨@site_of_single bumpHelper "bump".toList 50 [['x']] hstart hstatic rfl hsafe rfl,
    bump_runs, ?_⟩
  rintro ⟨-, _, _, m', _, _, hstate⟩
  have hlocals := congrArg State.locals hstate
  simp only [bumpState, List.cons.injEq, Prod.mk.injEq, Binding.reg.injEq, Obj.mk.injEq] at hlocals
  have hcell := congrFun hlocals.1.1.2.2 0
  simp at hcell

end MeleeHarness.SrcMutate
