import MeleeHarness.Lib.C.Agree

/-!
# Statements with other names

Statements that differ in corresponding names only, run on scopes of which the
innermost are the same on both sides. What stands below them corresponds in a way
that the user of this module says.

* `SRel`, `TasksRel`: statements, and what is still to be done;
* `Sim`: how the scopes below correspond;
* `sim_next`: configurations step together;
* `sim_runs`, `sim_runs_back`: and so do whole runs.
-/

namespace MeleeHarness.Lib.C

mutual

/-- Statements that differ in corresponding names only, below declarations of `Γ`. -/
inductive SRel (n : NRel) : List Name → Stmt → Stmt → Prop
  | expression {Γ : List Name} {e e' : Expr} : ERel (n.under Γ) e e' →
      SRel n Γ (.expression e) (.expression e')
  | declaration {Γ : List Name} {x : Name} {ty : Text} {inMemory : Bool} {init init' : Option Expr} :
      Option.Rel (ERel (n.under (x :: Γ))) init init' →
      SRel n Γ (.declaration x ty inMemory init) (.declaration x ty inMemory init')
  | compound {Γ : List Name} {items items' : List Stmt} : ItemsRel n Γ items items' →
      SRel n Γ (.compound items) (.compound items')
  | ifElse {Γ : List Name} {c c' : Expr} {t t' f f' : Stmt} : ERel (n.under Γ) c c' →
      SRel n Γ t t' → SRel n Γ f f' → SRel n Γ (.ifElse c t f) (.ifElse c' t' f')
  | whileDo {Γ : List Name} {c c' : Expr} {body body' : Stmt} : ERel (n.under Γ) c c' →
      SRel n Γ body body' → SRel n Γ (.whileDo c body) (.whileDo c' body')
  | doWhile {Γ : List Name} {c c' : Expr} {body body' : Stmt} : SRel n Γ body body' →
      ERel (n.under Γ) c c' → SRel n Γ (.doWhile body c) (.doWhile body' c')
  | forDo {Γ : List Name} {init init' c c' step step' : Option Expr} {body body' : Stmt} :
      Option.Rel (ERel (n.under Γ)) init init' → Option.Rel (ERel (n.under Γ)) c c' →
      Option.Rel (ERel (n.under Γ)) step step' → SRel n Γ body body' →
      SRel n Γ (.forDo init c step body) (.forDo init' c' step' body')
  | switch {Γ : List Name} {e e' : Expr} {labels : List (Option Val × Nat)}
      {items items' : List Stmt} : ERel (n.under Γ) e e' → ItemsRel n Γ items items' →
      SRel n Γ (.switch e labels items) (.switch e' labels items')
  | ret {Γ : List Name} {e e' : Option Expr} : Option.Rel (ERel (n.under Γ)) e e' →
      SRel n Γ (.ret e) (.ret e')
  | brk {Γ : List Name} : SRel n Γ .brk .brk
  | cont {Γ : List Name} : SRel n Γ .cont .cont

inductive ItemsRel (n : NRel) : List Name → List Stmt → List Stmt → Prop
  | nil {Γ : List Name} : ItemsRel n Γ [] []
  | cons {Γ : List Name} {s s' : Stmt} {rest rest' : List Stmt} : SRel n Γ s s' →
      ItemsRel n (s.declares ++ Γ) rest rest' → ItemsRel n Γ (s :: rest) (s' :: rest')

end

inductive UseRel (n : NRel) (Γ : List Name) : Use → Use → Prop
  | discard : UseRel n Γ .discard .discard
  | branch {t t' f f' : Stmt} : SRel n Γ t t' → SRel n Γ f f' →
      UseRel n Γ (.branch t f) (.branch t' f')
  | loop {c c' : Expr} {step step' : Option Expr} {body body' : Stmt} : ERel (n.under Γ) c c' →
      Option.Rel (ERel (n.under Γ)) step step' → SRel n Γ body body' →
      UseRel n Γ (.loop c step body) (.loop c' step' body')
  | select {labels : List (Option Val × Nat)} {items items' : List Stmt} :
      ItemsRel n Γ items items' → UseRel n Γ (.select labels items) (.select labels items')
  | init {x : Name} : x ∈ Γ → UseRel n Γ (.init x) (.init x)
  | ret : UseRel n Γ .ret .ret

/-- The locals declared in the open scopes, once a statement is done. -/
def declare (s : Stmt) : List (List Name) → List (List Name)
  | [] => []
  | scope :: Δ => (s.declares ++ scope) :: Δ

mutual

/-- What is still to be done, where `Δ` are the locals of the open scopes. -/
inductive TasksRel (n : NRel) : List (List Name) → List Task → List Task → Prop
  | nil : TasksRel n [] [] []
  | stmt {Δ : List (List Name)} {s s' : Stmt} {ts ts' : List Task} : SRel n Δ.flatten s s' →
      (Δ = [] → s.declares = []) → TasksRel n (declare s Δ) ts ts' →
      TasksRel n Δ (.stmt s :: ts) (.stmt s' :: ts')
  | eval {Δ : List (List Name)} {e e' : Expr} {use use' : Use} {ts ts' : List Task} :
      ERel (n.under Δ.flatten) e e' → UseRel n Δ.flatten use use' → TasksRel n Δ ts ts' →
      TasksRel n Δ (.eval e use :: ts) (.eval e' use' :: ts')
  | iterate {Δ : List (List Name)} {c c' step step' : Option Expr} {body body' : Stmt}
      {ts ts' : List Task} : Option.Rel (ERel (n.under Δ.flatten)) c c' →
      Option.Rel (ERel (n.under Δ.flatten)) step step' → SRel n Δ.flatten body body' →
      TasksRel n Δ ts ts' →
      TasksRel n Δ (.iterate c step body :: ts) (.iterate c' step' body' :: ts')
  | close {Δ : List (List Name)} {scope : List Name} {c : Closing} {ts ts' : List Task} :
      TasksRel n Δ ts ts' → TasksRel n (scope :: Δ) (.close c :: ts) (.close c :: ts')
  | jump {Δ : List (List Name)} {j : Jump} {ts ts' : List Task} : Passed n Δ ts ts' →
      TasksRel n Δ (.jump j :: ts) (.jump j :: ts')

/-- What a jump passes over need not correspond, up to where a scope closes. -/
inductive Passed (n : NRel) : List (List Name) → List Task → List Task → Prop
  | nil : Passed n [] [] []
  | skip {Δ : List (List Name)} {t t' : Task} {ts ts' : List Task} : (∀ c, t ≠ .close c) →
      (∀ c, t' ≠ .close c) → Passed n Δ ts ts' → Passed n Δ (t :: ts) (t' :: ts')
  | close {Δ : List (List Name)} {scope : List Name} {c : Closing} {ts ts' : List Task} :
      TasksRel n Δ ts ts' → Passed n (scope :: Δ) (.close c :: ts) (.close c :: ts')

end

/-! ## Renaming -/

theorem rename_option {n : NRel} {σ : Name → Name} {e : Option Expr}
    (h : ∀ c ∈ e, ERel n c (c.rename σ)) : Option.Rel (ERel n) e (e.map (·.rename σ)) := by
  cases e with
  | none => exact .none
  | some c => exact .some (h c rfl)

mutual

/-- A statement corresponds to itself with other names, if its expressions do and its
locals keep theirs. -/
theorem SRel.rename {n : NRel} {σ : Name → Name} : ∀ {Γ : List Name} (s : Stmt),
    s.Each (fun Γ e => ERel (n.under Γ) e (e.rename σ)) Γ → (∀ x ∈ s.locals, σ x = x) →
    SRel n Γ s (s.rename σ)
  | _, .expression _, h, _ => .expression h
  | _, .declaration x _ _ none, _, hσ => by
    rw [Stmt.rename, hσ x (by simp [Stmt.locals])]
    exact .declaration .none
  | _, .declaration x _ _ (some e), h, hσ => by
    rw [Stmt.rename, hσ x (by simp [Stmt.locals])]
    exact .declaration (.some (h e rfl))
  | _, .compound items, h, hσ => .compound (ItemsRel.rename items h hσ)
  | _, .ifElse _ t f, ⟨hc, ht, hf⟩, hσ =>
    .ifElse hc (SRel.rename t ht fun x hx => hσ x (List.mem_append_left _ hx))
      (SRel.rename f hf fun x hx => hσ x (List.mem_append_right _ hx))
  | _, .whileDo _ body, ⟨hc, hbody⟩, hσ => .whileDo hc (SRel.rename body hbody hσ)
  | _, .doWhile body _, ⟨hc, hbody⟩, hσ => .doWhile (SRel.rename body hbody hσ) hc
  | _, .forDo _ _ _ body, ⟨hinit, hc, hstep, hbody⟩, hσ =>
    .forDo (rename_option hinit) (rename_option hc) (rename_option hstep)
      (SRel.rename body hbody hσ)
  | _, .switch _ _ items, ⟨he, hitems⟩, hσ => .switch he (ItemsRel.rename items hitems hσ)
  | _, .ret _, h, _ => .ret (rename_option h)
  | _, .brk, _, _ => .brk
  | _, .cont, _, _ => .cont

theorem ItemsRel.rename {n : NRel} {σ : Name → Name} : ∀ {Γ : List Name} (items : List Stmt),
    Stmt.EachItem (fun Γ e => ERel (n.under Γ) e (e.rename σ)) Γ items →
    (∀ x ∈ Stmt.itemsLocals items, σ x = x) → ItemsRel n Γ items (Stmt.renameItems σ items)
  | _, [], _, _ => .nil
  | _, s :: rest, ⟨hs, hrest⟩, hσ =>
    .cons (SRel.rename s hs fun x hx => hσ x (List.mem_append_left _ hx))
      (ItemsRel.rename rest hrest fun x hx => hσ x (List.mem_append_right _ hx))

end

/-! ## The scopes -/

section
variable {M : Machine} {x y : Name} {o : Obj} {D a b : List Scope}

theorem lookup_append : lookup x (D ++ a) = (lookup x D).or (lookup x a) := by
  induction D with
  | nil => rfl
  | cons scope D ih => rw [List.cons_append, lookup, lookup, ih, Option.or_assoc]

theorem look_inner (h : x ∈ (scopeNames D).flatten) : M.look (D ++ a) x = lookup x D := by
  rw [Machine.look, lookup_append]
  cases hlookup : lookup x D with
  | none => exact absurd h (lookup_eq_none_iff.mp hlookup)
  | some binding => rfl

theorem look_outer (h : x ∉ (scopeNames D).flatten) : M.look (D ++ a) x = M.look a x := by
  rw [Machine.look, Machine.look, lookup_append, lookup_eq_none_iff.mpr h, Option.none_or]

theorem setScope_names (scope : Scope) :
    (setScope x o scope).map Prod.fst = scope.map Prod.fst := by
  induction scope with
  | nil => rfl
  | cons entry rest ih =>
    obtain ⟨y, binding⟩ := entry
    rw [setScope]
    split
    · rfl
    · rw [List.map_cons, List.map_cons, ih]

theorem setReg_names : scopeNames (setReg x o D) = scopeNames D := by
  induction D with
  | nil => rfl
  | cons scope D ih =>
    rw [setReg]
    split
    · rw [scopeNames_cons, scopeNames_cons, setScope_names]
    · rw [scopeNames_cons, scopeNames_cons, ih]

theorem setReg_inner (h : x ∈ (scopeNames D).flatten) :
    setReg x o (D ++ a) = setReg x o D ++ a := by
  induction D with
  | nil => cases h
  | cons scope D ih =>
    rw [List.cons_append, setReg, setReg]
    split
    · rfl
    · rename_i hscope
      rw [List.cons_append, ih]
      have hnot : x ∉ scope.map Prod.fst := by
        simpa using hscope
      simpa [scopeNames_cons, hnot] using h

theorem setReg_outer (h : x ∉ (scopeNames D).flatten) :
    setReg x o (D ++ a) = D ++ setReg x o a := by
  induction D with
  | nil => rfl
  | cons scope D ih =>
    rw [scopeNames_cons, List.flatten_cons, List.mem_append, not_or] at h
    rw [List.cons_append, setReg, if_neg, ih h.2]
    · rfl
    · simpa using h.1

end

/-- How the scopes below correspond, and what memory has to keep for it. -/
structure Sim (M : Machine) (n : NRel) where
  Bot : List Scope → List Scope → Mem → Prop
  Keep : Mem → Prop
  keep : ∀ {a b : List Scope} {m m' : Mem}, Bot a b m → Keep m' → Bot a b m'
  names : ∀ {a b : List Scope} {m : Mem}, Bot a b m → ∀ x y, n.rel x y →
    Matched m (n.ro x y) (M.look a x) (M.look b y)
  write : ∀ {a b : List Scope} {m : Mem} {x y : Name} {o : Obj} (o' : Obj), Bot a b m →
    n.rel x y → ¬n.ro x y → M.look a x = some (.reg o) → Bot (setReg x o' a) (setReg y o' b) m

/-- States with the same inner scopes, which bind `Δ`, over corresponding ones. -/
structure StateRel {M : Machine} {n : NRel} (S : Sim M n) (Δ : List (List Name))
    (s t : State) : Prop where
  split : ∃ D a b m, scopeNames D = Δ ∧ s.locals = D ++ a ∧ t.locals = D ++ b ∧ S.Bot a b m
  mem : s.mem = t.mem

section
variable {M : Machine} {n : NRel} {S : Sim M n} {Δ : List (List Name)} {s t s' t' : State}

theorem StateRel.agree (h : StateRel S Δ s t) (hkeep : S.Keep s.mem) :
    Agree M (n.under Δ.flatten) s t where
  mem := h.mem
  names x y hrel := by
    obtain ⟨D, a, b, m, rfl, hs, ht, hbot⟩ := h.split
    rw [hs, ht]
    obtain ⟨hx, rfl⟩ | ⟨hx, hy, hrel⟩ := hrel
    · rw [look_inner hx, look_inner hx]
      exact ⟨fun _ => rfl, fun _ => rfl⟩
    · rw [look_outer hx, look_outer hy]
      obtain ⟨hsame, hcopy⟩ := S.names (S.keep hbot hkeep) x y hrel
      exact ⟨fun hro => hsame fun h => hro ⟨hx, hy, h⟩, fun hro => hcopy hro.2.2⟩

theorem StateRel.paired (h : StateRel S Δ s t)
    (hpaired : Paired M (n.under Δ.flatten) s t s' t') : StateRel S Δ s' t' := by
  obtain ⟨⟨D, a, b, m, rfl, hs, ht, hbot⟩, hmem⟩ := h
  cases hpaired with
  | mem m' => exact ⟨⟨D, a, b, m, rfl, hs, ht, hbot⟩, rfl⟩
  | @reg x y o o' hrel hro hlook =>
    obtain ⟨hx, rfl⟩ | ⟨hx, hy, hrel⟩ := hrel
    · refine ⟨⟨setReg y o' D, a, b, m, setReg_names, ?_, ?_, hbot⟩, hmem⟩
      · rw [hs]
        exact setReg_inner hx
      · rw [ht]
        exact setReg_inner hx
    · rw [hs, look_outer hx] at hlook
      have hbot' := S.write o' hbot hrel (fun h => hro ⟨hx, hy, h⟩) hlook
      refine ⟨⟨D, setReg x o' a, setReg y o' b, m, rfl, ?_, ?_, hbot'⟩, hmem⟩
      · rw [hs]
        exact setReg_outer hx
      · rw [ht]
        exact setReg_outer hy

theorem StateRel.openScope (h : StateRel S Δ s t) :
    StateRel S ([] :: Δ) s.openScope t.openScope := by
  obtain ⟨⟨D, a, b, m, rfl, hs, ht, hbot⟩, hmem⟩ := h
  refine ⟨⟨[] :: D, a, b, m, rfl, ?_, ?_, hbot⟩, hmem⟩
  · rw [State.openScope, hs]
    rfl
  · rw [State.openScope, ht]
    rfl

/-- The innermost scope is the same on both sides. -/
theorem StateRel.top {scope : List Name} (h : StateRel S (scope :: Δ) s t) :
    ∃ top ls lt, top.map Prod.fst = scope ∧ s = ⟨top :: ls, s.mem⟩ ∧ t = ⟨top :: lt, s.mem⟩ ∧
      StateRel S Δ ⟨ls, s.mem⟩ ⟨lt, s.mem⟩ := by
  obtain ⟨⟨D, a, b, m, hD, hs, ht, hbot⟩, hmem⟩ := h
  cases D with
  | nil => cases hD
  | cons top D =>
    obtain ⟨htop, hD⟩ := List.cons.inj hD
    obtain ⟨ls, ms⟩ := s
    obtain ⟨lt, mt⟩ := t
    cases hs
    cases ht
    cases hmem
    exact ⟨top, D ++ a, D ++ b, htop, rfl, rfl, ⟨D, a, b, m, hD, rfl, rfl, hbot⟩, rfl⟩

theorem StateRel.push {ls lt : List Scope} {m m' : Mem} (h : StateRel S Δ ⟨ls, m⟩ ⟨lt, m⟩)
    (top : Scope) :
    StateRel S (top.map Prod.fst :: Δ) ⟨top :: ls, m'⟩ ⟨top :: lt, m'⟩ := by
  obtain ⟨⟨D, a, b, m₀, rfl, rfl, rfl, hbot⟩, -⟩ := h
  exact ⟨⟨top :: D, a, b, m₀, rfl, rfl, rfl, hbot⟩, rfl⟩

theorem StateRel.closeScope {scope : List Name} (h : StateRel S (scope :: Δ) s t) :
    StateRel S Δ s.closeScope t.closeScope := by
  obtain ⟨top, ls, lt, -, hs, ht, ⟨D, a, b, m, hD, hls, hlt, hbot⟩, -⟩ := h.top
  rw [hs, ht]
  exact ⟨⟨D, a, b, m, hD, hls, hlt, hbot⟩, rfl⟩

theorem StateRel.bind {scope : List Name} (h : StateRel S (scope :: Δ) s t) (x : Name)
    (binding : Binding) : StateRel S ((x :: scope) :: Δ) (s.bind x binding) (t.bind x binding) := by
  obtain ⟨top, ls, lt, rfl, hs, ht, hrest⟩ := h.top
  rw [hs, ht]
  exact hrest.push ((x, binding) :: top)

theorem StateRel.bindMem {scope : List Name} (h : StateRel S (scope :: Δ) s t) (x : Name)
    (b : Block) (m : Mem) :
    StateRel S ((x :: scope) :: Δ) { s.bind x (.mem b) with mem := m }
      { t.bind x (.mem b) with mem := m } := by
  obtain ⟨top, ls, lt, rfl, hs, ht, hrest⟩ := h.top
  rw [hs, ht]
  exact hrest.push ((x, .mem b) :: top)

end

/-! ## What is still to be done -/

section
variable {n : NRel} {Δ : List (List Name)} {ts ts' : List Task}

/-- What is declared in the innermost scope does not matter to a jump out of it. -/
theorem Passed.redeclare {s : Stmt} (h : Passed n (declare s Δ) ts ts') : Passed n Δ ts ts' := by
  cases Δ with
  | nil => exact h
  | cons scope Δ =>
    induction ts generalizing ts' with
    | nil => cases h
    | cons t ts ih =>
      cases h with
      | skip ht ht' hrest => exact .skip ht ht' (ih hrest)
      | close hrest => exact .close hrest

theorem TasksRel.passed (h : TasksRel n Δ ts ts') : Passed n Δ ts ts' := by
  induction ts generalizing Δ ts' with
  | nil =>
    cases h
    exact .nil
  | cons t ts ih =>
    cases h with
    | stmt _ _ hrest => exact .skip (by simp) (by simp) (ih hrest).redeclare
    | eval _ _ hrest => exact .skip (by simp) (by simp) (ih hrest)
    | iterate _ _ _ hrest => exact .skip (by simp) (by simp) (ih hrest)
    | close hrest => exact .close hrest
    | jump hrest => exact .skip (by simp) (by simp) hrest

theorem TasksRel.items {scope : List Name} {items items' : List Stmt} {c : Closing}
    (h : ItemsRel n (scope ++ Δ.flatten) items items') (hrest : TasksRel n Δ ts ts') :
    TasksRel n (scope :: Δ) (items.map .stmt ++ .close c :: ts)
      (items'.map .stmt ++ .close c :: ts') := by
  induction items generalizing items' scope with
  | nil =>
    cases h
    exact .close hrest
  | cons s items ih =>
    cases h with
    | cons hs hitems =>
      rw [← List.append_assoc] at hitems
      exact .stmt hs (by simp) (ih hitems)

theorem TasksRel.block {items items' : List Stmt} (h : ItemsRel n Δ.flatten items items')
    (c : Closing) (hrest : TasksRel n Δ ts ts') :
    TasksRel n ([] :: Δ) ((items.map .stmt ++ [.close c]) ++ ts)
      ((items'.map .stmt ++ [.close c]) ++ ts') := by
  rw [List.append_assoc, List.append_assoc]
  exact .items h hrest

/-- A label leads to corresponding items. -/
theorem ItemsRel.enterAt {Γ : List Name} {items items' : List Stmt} (h : ItemsRel n Γ items items')
    (i : Nat) : ItemsRel n Γ (C.enterAt i items) (C.enterAt i items') := by
  induction i generalizing Γ items items' with
  | zero => simpa only [C.enterAt] using h
  | succ i ih =>
    cases h with
    | nil => exact .nil
    | cons hs hrest =>
      have hnext := ih hrest
      cases hs with
      | declaration => exact .cons (.declaration .none) hnext
      | expression | compound | ifElse | whileDo | doWhile | forDo | switch | ret | brk | cont =>
        exact hnext

theorem TasksRel.evalIf {e e' : Option Expr} (he : Option.Rel (ERel (n.under Δ.flatten)) e e')
    (hrest : TasksRel n Δ ts ts') : TasksRel n Δ (C.evalIf e ++ ts) (C.evalIf e' ++ ts') := by
  cases he with
  | none => exact hrest
  | some he => exact .eval he .discard hrest

theorem round_append (c step : Option Expr) (body : Stmt) (ts : List Task) :
    round c step body ++ ts =
      .stmt body :: .close .continueTo :: (C.evalIf step ++ .iterate c step body :: ts) := by
  simp [round]

theorem TasksRel.round {c c' step step' : Option Expr} {body body' : Stmt}
    (hc : Option.Rel (ERel (n.under Δ.flatten)) c c')
    (hstep : Option.Rel (ERel (n.under Δ.flatten)) step step')
    (hbody : SRel n Δ.flatten body body') (hrest : TasksRel n Δ ts ts') :
    TasksRel n ([] :: Δ) (C.round c step body ++ ts) (C.round c' step' body' ++ ts') := by
  rw [round_append, round_append]
  exact .stmt hbody (by simp) (.close (.evalIf hstep (.iterate hc hstep hbody hrest)))

end

/-! ## Steps -/

section
variable {M : Machine} {n : NRel} {S : Sim M n} {Δ : List (List Name)} {s s' t : State}

/-- Corresponding expressions step together, over corresponding scopes. -/
theorem StateRel.step {e e' f : Expr} (h : StateRel S Δ s t) (hkeep : S.Keep s.mem)
    (he : ERel (n.under Δ.flatten) e f) (hstep : Step M .value e s e' s') :
    ∃ f' t', Step M .value f t f' t' ∧ ERel (n.under Δ.flatten) e' f' ∧ StateRel S Δ s' t' := by
  obtain ⟨f', t', hstep', hrel, hpaired⟩ := agree_step hstep he (h.agree hkeep)
  exact ⟨f', t', hstep', hrel, h.paired hpaired⟩

/-- A declared local is initialized in the same way. -/
theorem StateRel.init {x : Name} {p : Place} {v w : Val} (h : StateRel S Δ s t)
    (hkeep : S.Keep s.mem) (hx : x ∈ Δ.flatten) (hp : M.placeOf s.locals (.ident x) = some p)
    (hstore : M.store s p v = some (s', w)) :
    ∃ q t', M.placeOf t.locals (.ident x) = some q ∧ M.store t q v = some (t', w) ∧
      StateRel S Δ s' t' := by
  have he : ERel (n.under Δ.flatten) (.ident x) (.ident x) := .ident (.inl ⟨hx, rfl⟩)
  obtain ⟨q, hq, hpair⟩ := he.grab (h.agree hkeep) (fun y z hy hz hro => by
    cases hy
    exact hro.1 hx) hp
  obtain ⟨t', hstore', hpaired⟩ := hpair.store h.mem hstore
  exact ⟨q, t', hq, hstore', h.paired hpaired⟩

theorem declare_none {st : Stmt} (h : st.declares = []) : declare st Δ = Δ := by
  cases Δ with
  | nil => rfl
  | cons scope Δ => rw [declare, h, List.nil_append]

theorem sim_stmt {st st' : Stmt} {ts ts' new : List Task} (hs : SRel n Δ.flatten st st')
    (hopen : Δ = [] → st.declares = []) (hrest : TasksRel n (declare st Δ) ts ts')
    (hstate : StateRel S Δ s t) (hnext : Task.Next M (.stmt st) s new s') :
    ∃ new' t' Δ', Task.Next M (.stmt st') t new' t' ∧ TasksRel n Δ' (new ++ ts) (new' ++ ts') ∧
      StateRel S Δ' s' t' := by
  cases hs with
  | expression he =>
    cases hnext
    rw [declare_none rfl] at hrest
    exact ⟨_, t, Δ, .expression, .eval he .discard hrest, hstate⟩
  | @declaration _ x ty inMemory init init' hinit =>
    -- the local goes to the innermost scope, which is open
    cases Δ with
    | nil => cases hopen rfl
    | cons scope Δ =>
      have htasks : TasksRel n ((x :: scope) :: Δ) (init.toList.map (.eval · (.init x)) ++ ts)
          (init'.toList.map (.eval · (.init x)) ++ ts') := by
        cases hinit with
        | none => exact hrest
        | some he => exact .eval he (.init (by simp)) hrest
      cases hnext with
      | declareReg => exact ⟨_, _, _, .declareReg, htasks, hstate.bind x _⟩
      | declareMem hfree =>
        have hmem := hstate.mem
        rw [hmem] at hfree ⊢
        exact ⟨_, _, _, .declareMem hfree, htasks, hstate.bindMem x _ _⟩
  | compound hitems =>
    cases hnext
    rw [declare_none rfl] at hrest
    exact ⟨_, _, _, .compound, .block hitems .block hrest, hstate.openScope⟩
  | ifElse hc ht hf =>
    cases hnext
    rw [declare_none rfl] at hrest
    exact ⟨_, t, Δ, .ifElse, .eval hc (.branch ht hf) hrest, hstate⟩
  | whileDo hc hbody =>
    cases hnext
    rw [declare_none rfl] at hrest
    refine ⟨_, _, [] :: Δ, .whileDo, ?_, hstate.openScope⟩
    exact .iterate (.some hc) .none hbody (.close hrest)
  | doWhile hbody hc =>
    cases hnext
    rw [declare_none rfl] at hrest
    refine ⟨_, _, _, .doWhile, ?_, hstate.openScope.openScope⟩
    rw [List.append_assoc, List.append_assoc]
    exact .round (.some hc) .none hbody (.close hrest)
  | forDo hinit hc hstep hbody =>
    cases hnext
    rw [declare_none rfl] at hrest
    refine ⟨_, _, _, .forDo, ?_, hstate.openScope⟩
    rw [List.append_assoc, List.append_assoc]
    exact .evalIf hinit (.iterate hc hstep hbody (.close hrest))
  | switch he hitems =>
    cases hnext
    rw [declare_none rfl] at hrest
    exact ⟨_, t, Δ, .switch, .eval he (.select hitems) hrest, hstate⟩
  | ret he =>
    rw [declare_none rfl] at hrest
    cases he with
    | none =>
      cases hnext
      exact ⟨_, t, Δ, .retNone, .jump hrest.passed, hstate⟩
    | some he =>
      cases hnext
      exact ⟨_, t, Δ, .retSome, .eval he .ret hrest, hstate⟩
  | brk =>
    cases hnext
    rw [declare_none rfl] at hrest
    exact ⟨_, t, Δ, .brk, .jump hrest.passed, hstate⟩
  | cont =>
    cases hnext
    rw [declare_none rfl] at hrest
    exact ⟨_, t, Δ, .cont, .jump hrest.passed, hstate⟩

theorem sim_eval {e e' : Expr} {use use' : Use} {ts ts' new : List Task}
    (he : ERel (n.under Δ.flatten) e e') (huse : UseRel n Δ.flatten use use')
    (hrest : TasksRel n Δ ts ts') (hstate : StateRel S Δ s t) (hkeep : S.Keep s.mem)
    (hnext : Task.Next M (.eval e use) s new s') :
    ∃ new' t' Δ', Task.Next M (.eval e' use') t new' t' ∧ TasksRel n Δ' (new ++ ts) (new' ++ ts') ∧
      StateRel S Δ' s' t' := by
  cases hnext with
  | eval hstep =>
    obtain ⟨f', t', hstep', hrel, hstate'⟩ := hstate.step hkeep he hstep
    exact ⟨_, t', Δ, .eval hstep', .eval hrel huse hrest, hstate'⟩
  | discard =>
    obtain rfl := he.of_val
    cases huse
    exact ⟨_, t, Δ, .discard, hrest, hstate⟩
  | @branch v b _ _ _ hb =>
    obtain rfl := he.of_val
    cases huse with
    | branch ht hf =>
      refine ⟨_, _, [] :: Δ, .branch hb, ?_, hstate.openScope⟩
      cases b with
      | true => exact .stmt ht (by simp) (.close hrest)
      | false => exact .stmt hf (by simp) (.close hrest)
  | again hb =>
    obtain rfl := he.of_val
    cases huse with
    | loop hc hstep hbody =>
      exact ⟨_, _, _, .again hb, .round (.some hc) hstep hbody hrest, hstate.openScope⟩
  | leave hb =>
    obtain rfl := he.of_val
    cases huse with
    | loop => exact ⟨_, t, Δ, .leave hb, hrest, hstate⟩
  | select hlabel =>
    obtain rfl := he.of_val
    cases huse with
    | select hitems =>
      exact ⟨_, _, _, .select hlabel, .block (hitems.enterAt _) .breakTo hrest, hstate.openScope⟩
  | skip hlabel =>
    obtain rfl := he.of_val
    cases huse with
    | select => exact ⟨_, t, Δ, .skip hlabel, hrest, hstate⟩
  | init hp hstore =>
    obtain rfl := he.of_val
    cases huse with
    | init hx =>
      obtain ⟨q, t', hq, hstore', hstate'⟩ := hstate.init hkeep hx hp hstore
      exact ⟨_, t', Δ, .init hq hstore', hrest, hstate'⟩
  | ret =>
    obtain rfl := he.of_val
    cases huse
    exact ⟨_, t, Δ, .ret, .jump hrest.passed, hstate⟩

/-- Configurations that correspond. -/
def Related (S : Sim M n) (c d : Config) : Prop :=
  ∃ Δ, TasksRel n Δ c.1 d.1 ∧ StateRel S Δ c.2 d.2

/-- Configurations that correspond step together. -/
theorem sim_next {c c' d : Config} (h : Related S c d) (hkeep : S.Keep c.2.mem)
    (hnext : Config.Next M c c') : ∃ d', Config.Next M d d' ∧ Related S c' d' := by
  obtain ⟨ds, t⟩ := d
  obtain ⟨Δ, htasks, hstate⟩ := h
  cases hnext with
  | task htask =>
    cases htasks with
    | stmt hs hopen hrest =>
      obtain ⟨new', t', Δ', hnext', htasks', hstate'⟩ := sim_stmt hs hopen hrest hstate htask
      exact ⟨_, .task hnext', Δ', htasks', hstate'⟩
    | eval he huse hrest =>
      obtain ⟨new', t', Δ', hnext', htasks', hstate'⟩ :=
        sim_eval he huse hrest hstate hkeep htask
      exact ⟨_, .task hnext', Δ', htasks', hstate'⟩
    | iterate hc hstep hbody hrest =>
      cases htask with
      | test =>
        cases hc with
        | some hc =>
          exact ⟨_, .task .test, Δ, .eval hc (.loop hc hstep hbody) hrest, hstate⟩
      | forever =>
        cases hc
        exact ⟨_, .task .forever, _, .round .none hstep hbody hrest, hstate.openScope⟩
    | close hrest =>
      cases htask
      exact ⟨_, .task .close, _, hrest, hstate.closeScope⟩
    | jump => cases htask
  | pass hclose =>
    cases htasks with
    | jump hpassed =>
      cases hpassed with
      | skip _ hclose' hrest => exact ⟨_, .pass hclose', Δ, .jump hrest, hstate⟩
      | close => exact absurd rfl (hclose _)
  | passScope hends =>
    cases htasks with
    | jump hpassed =>
      cases hpassed with
      | skip hclose => exact absurd rfl (hclose _)
      | close hrest => exact ⟨_, .passScope hends, _, .jump hrest.passed, hstate.closeScope⟩
  | arrive hends =>
    cases htasks with
    | jump hpassed =>
      cases hpassed with
      | skip hclose => exact absurd rfl (hclose _)
      | close hrest => exact ⟨_, .arrive hends, _, hrest, hstate.closeScope⟩

end

/-! ## Either side first -/

theorem ERel.flip_under {n : NRel} {Γ : List Name} {e e' : Expr} (h : ERel (n.under Γ) e e') :
    ERel (n.flip.under Γ) e' e := n.flip_under Γ ▸ h.flip

theorem flip_option {n : NRel} {Γ : List Name} {e e' : Option Expr}
    (h : Option.Rel (ERel (n.under Γ)) e e') : Option.Rel (ERel (n.flip.under Γ)) e' e := by
  cases h with
  | none => exact .none
  | some h => exact .some h.flip_under

theorem SRel.declares {n : NRel} {Γ : List Name} {s s' : Stmt} (h : SRel n Γ s s') :
    s.declares = s'.declares := by
  cases h with
  | declaration | expression | compound | ifElse | whileDo | doWhile | forDo | switch | ret | brk
  | cont => rfl

mutual

theorem SRel.flip {n : NRel} : ∀ {Γ : List Name} {s s' : Stmt}, SRel n Γ s s' → SRel n.flip Γ s' s
  | _, _, _, .expression he => .expression he.flip_under
  | _, _, _, .declaration he => .declaration (flip_option he)
  | _, _, _, .compound h => .compound h.flip
  | _, _, _, .ifElse hc ht hf => .ifElse hc.flip_under ht.flip hf.flip
  | _, _, _, .whileDo hc hbody => .whileDo hc.flip_under hbody.flip
  | _, _, _, .doWhile hbody hc => .doWhile hbody.flip hc.flip_under
  | _, _, _, .forDo hinit hc hstep hbody =>
    .forDo (flip_option hinit) (flip_option hc) (flip_option hstep) hbody.flip
  | _, _, _, .switch he hitems => .switch he.flip_under hitems.flip
  | _, _, _, .ret he => .ret (flip_option he)
  | _, _, _, .brk => .brk
  | _, _, _, .cont => .cont

theorem ItemsRel.flip {n : NRel} :
    ∀ {Γ : List Name} {items items' : List Stmt}, ItemsRel n Γ items items' →
      ItemsRel n.flip Γ items' items
  | _, _, _, .nil => .nil
  | _, _, _, .cons hs hrest => .cons hs.flip (hs.declares ▸ hrest.flip)

end

theorem UseRel.flip {n : NRel} {Γ : List Name} {use use' : Use} (h : UseRel n Γ use use') :
    UseRel n.flip Γ use' use := by
  cases h with
  | discard => exact .discard
  | branch ht hf => exact .branch ht.flip hf.flip
  | loop hc hstep hbody => exact .loop hc.flip_under (flip_option hstep) hbody.flip
  | select hitems => exact .select hitems.flip
  | init hx => exact .init hx
  | ret => exact .ret

theorem declare_congr {s s' : Stmt} (h : s.declares = s'.declares) (Δ : List (List Name)) :
    declare s Δ = declare s' Δ := by
  cases Δ with
  | nil => rfl
  | cons scope Δ => rw [declare, declare, h]

mutual

theorem TasksRel.flip {n : NRel} :
    ∀ {Δ : List (List Name)} {ts ts' : List Task}, TasksRel n Δ ts ts' → TasksRel n.flip Δ ts' ts
  | _, _, _, .nil => .nil
  | Δ, _, _, .stmt hs hopen hrest =>
    .stmt hs.flip (hs.declares ▸ hopen) (declare_congr hs.declares Δ ▸ hrest.flip)
  | _, _, _, .eval he huse hrest => .eval he.flip_under huse.flip hrest.flip
  | _, _, _, .iterate hc hstep hbody hrest =>
    .iterate (flip_option hc) (flip_option hstep) hbody.flip hrest.flip
  | _, _, _, .close hrest => .close hrest.flip
  | _, _, _, .jump hpassed => .jump hpassed.flip

theorem Passed.flip {n : NRel} :
    ∀ {Δ : List (List Name)} {ts ts' : List Task}, Passed n Δ ts ts' → Passed n.flip Δ ts' ts
  | _, _, _, .nil => .nil
  | _, _, _, .skip ht ht' hrest => .skip ht' ht hrest.flip
  | _, _, _, .close hrest => .close hrest.flip

end

section
variable {M : Machine} {n : NRel}

def Sim.flip (S : Sim M n) : Sim M n.flip where
  Bot a b m := S.Bot b a m
  Keep := S.Keep
  keep := S.keep
  names hbot x y hrel :=
    ⟨fun hro => ((S.names hbot y x hrel).same hro).symm,
      fun hro => ((S.names hbot y x hrel).copy hro).symm⟩
  write o' hbot hrel hro hlook :=
    S.write o' hbot hrel hro ((S.names hbot _ _ hrel).same hro ▸ hlook)

variable {S : Sim M n} {c c' d d' : Config}

theorem Related.flip (h : Related S c d) : Related S.flip d c := by
  obtain ⟨Δ, htasks, ⟨D, a, b, m, hD, hs, ht, hbot⟩, hmem⟩ := h
  exact ⟨Δ, htasks.flip, ⟨D, b, a, m, hD, ht, hs, hbot⟩, hmem.symm⟩

theorem Related.mem (h : Related S c d) : c.2.mem = d.2.mem := by
  obtain ⟨Δ, -, hstate⟩ := h
  exact hstate.mem

/-- Where nothing is left to do, the scopes that are left correspond. -/
theorem Related.done {s : State} (h : Related S ([], s) d) :
    d.1 = [] ∧ (∃ m, S.Bot s.locals d.2.locals m) ∧ s.mem = d.2.mem := by
  obtain ⟨ts, t⟩ := d
  obtain ⟨Δ, htasks, ⟨D, a, b, m, hD, hs, ht, hbot⟩, hmem⟩ := h
  cases htasks
  rw [scopeNames, List.map_eq_nil_iff] at hD
  subst hD
  refine ⟨rfl, ⟨m, ?_⟩, hmem⟩
  rw [hs, ht]
  exact hbot

theorem Related.start {st st' : Stmt} {s t : State} {m : Mem} (hst : SRel n [] st st')
    (hdeclares : st.declares = []) (hmem : s.mem = t.mem) (hbot : S.Bot s.locals t.locals m) :
    Related S ([.stmt st], s) ([.stmt st'], t) :=
  ⟨[], .stmt hst (fun _ => hdeclares) .nil, ⟨[], _, _, m, rfl, rfl, rfl, hbot⟩, hmem⟩

theorem Related.unflip (h : Related S.flip d c) : Related S c d := h.flip

/-- Whatever the one side runs to, as long as what is only read is kept, the other side
runs to as well. -/
theorem sim_runs (h : Related S c d) (hkeep : ∀ e, Runs M c e → S.Keep e.2.mem)
    (hruns : Runs M c c') : ∃ d', Runs M d d' ∧ Related S c' d' := by
  induction hruns with
  | refl => exact ⟨d, .refl, h⟩
  | tail hruns hnext ih =>
    obtain ⟨d₁, hruns₁, hrel₁⟩ := ih
    obtain ⟨d₂, hnext₂, hrel₂⟩ := sim_next hrel₁ (hkeep _ hruns) hnext
    exact ⟨d₂, hruns₁.tail hnext₂, hrel₂⟩

theorem sim_runs_back (h : Related S c d) (hkeep : ∀ e, Runs M c e → S.Keep e.2.mem)
    (hruns : Runs M d d') : ∃ c', Runs M c c' ∧ Related S c' d' := by
  induction hruns with
  | refl => exact ⟨c, .refl, h⟩
  | tail _ hnext ih =>
    obtain ⟨c₁, hruns₁, hrel₁⟩ := ih
    have hkeep₁ := hkeep c₁ hruns₁
    rw [hrel₁.mem] at hkeep₁
    obtain ⟨c₂, hnext₂, hrel₂⟩ := sim_next hrel₁.flip hkeep₁ hnext
    exact ⟨c₂, hruns₁.tail hnext₂, hrel₂.unflip⟩

end

end MeleeHarness.Lib.C
