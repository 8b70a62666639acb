import MeleeHarness.Lib.C.Outcome

/-!
# Running the machine

All next steps of a configuration, for a machine without functions to call and tasks that
declare no local in memory.

* `mem_stepList`, `mem_nextList`: they are the steps of the semantics;
* `always_spec`, `sometimes_spec`: what every run, or some run, ends in, by running them.
-/

namespace MeleeHarness.Lib.C

namespace Machine
variable (M : Machine)

/-- What is read at an expression. -/
def readList (s : State) (μ : Mode) (e : Expr) : List (Expr × State) :=
  if μ = .value then ((M.placeOf s.locals e).bind (M.load s)).toList.map fun v => (.val v, s) else []

mutual

def stepList (s : State) (μ : Mode) : Expr → List (Expr × State)
  | .val v => M.readList s μ (.val v)
  | .ident x => M.readList s μ (.ident x)
  | .node k children =>
    stepInside s μ k [] children ++ M.readList s μ (.node k children) ++
      if μ = .value then (M.reduce s k children).toList else []

def stepInside (s : State) (μ : Mode) (k : Kind) (pre : List Expr) :
    List Expr → List (Expr × State)
  | [] => []
  | e :: post =>
    (if k.evaluates pre.length then
      (stepList s (k.use μ pre.length) e).map fun (e', s') => (.node k (pre ++ e' :: post), s')
    else []) ++ stepInside s μ k (pre ++ [e]) post

end

/-- What a value leads to. -/
def useList (s : State) (v : Val) : Use → List (List Task × State)
  | .discard => [([], s)]
  | .branch a b => (M.truth v).toList.map fun t =>
      ([.stmt (if t then a else b), .close .block], s.openScope)
  | .loop c step body => (M.truth v).toList.map fun t =>
      if t then (round (some c) step body, s.openScope) else ([], s)
  | .select labels items =>
    match findLabel labels v with
    | some i => [((enterAt i items).map .stmt ++ [.close .breakTo], s.openScope)]
    | none => [([], s)]
  | .init x =>
    ((M.placeOf s.locals (.ident x)).bind fun p => M.store s p v).toList.map fun (s', _) => ([], s')
  | .ret => [([.jump (.ret (some v))], s)]

def taskList (s : State) : Task → List (List Task × State)
  | .stmt (.expression e) => [([.eval e .discard], s)]
  | .stmt (.declaration x ty false init) =>
    [(init.toList.map (.eval · (.init x)), s.bind x (.reg (.new ty)))]
  | .stmt (.declaration _ _ true _) => []
  | .stmt (.compound items) => [(items.map .stmt ++ [.close .block], s.openScope)]
  | .stmt (.ifElse c t f) => [([.eval c (.branch t f)], s)]
  | .stmt (.whileDo c body) => [([.iterate (some c) none body, .close .breakTo], s.openScope)]
  | .stmt (.doWhile body c) =>
    [(round (some c) none body ++ [.close .breakTo], s.openScope.openScope)]
  | .stmt (.forDo init c step body) =>
    [(evalIf init ++ [.iterate c step body, .close .breakTo], s.openScope)]
  | .stmt (.switch e labels items) => [([.eval e (.select labels items)], s)]
  | .stmt (.ret none) => [([.jump (.ret none)], s)]
  | .stmt (.ret (some e)) => [([.eval e .ret], s)]
  | .stmt .brk => [([.jump .brk], s)]
  | .stmt .cont => [([.jump .cont], s)]
  | .eval e use =>
    (M.stepList s .value e).map (fun (e', s') => ([.eval e' use], s')) ++
      e.val?.toList.flatMap fun v => M.useList s v use
  | .iterate (some c) step body => [([.eval c (.loop c step body)], s)]
  | .iterate none step body => [(round none step body, s.openScope)]
  | .close _ => [([], s.closeScope)]
  | .jump _ => []

def nextList : Config → List Config
  | ([], _) | ([.jump _], _) => []
  | (.jump j :: .close c :: ts, s) =>
    if j.endsAt c then [(ts, s.closeScope)] else [(.jump j :: ts, s.closeScope)]
  | (.jump j :: _ :: ts, s) => [(.jump j :: ts, s)]
  | (t :: ts, s) => (M.taskList s t).map fun (new, s') => (new ++ ts, s')

end Machine

/-- The machine has no functions. -/
def Machine.Callless (M : Machine) : Prop := ∀ f args m m' r, ¬M.call f args m m' r

section
variable {M : Machine} {s s' : State} {μ : Mode} {e e' : Expr}

theorem mem_readList : (e', s') ∈ M.readList s μ e ↔
    μ = .value ∧ ∃ p v, M.placeOf s.locals e = some p ∧ M.load s p = some v ∧
      e' = .val v ∧ s' = s := by
  unfold Machine.readList
  by_cases hμ : μ = .value
  · rw [if_pos hμ]
    simp only [List.mem_map, Option.mem_toList, Option.bind_eq_some_iff, Prod.mk.injEq]
    constructor
    · rintro ⟨v, ⟨p, hp, hv⟩, rfl, rfl⟩
      exact ⟨hμ, p, v, hp, hv, rfl, rfl⟩
    · rintro ⟨-, p, v, hp, hv, rfl, rfl⟩
      exact ⟨v, ⟨p, hp, hv⟩, rfl, rfl⟩
  · rw [if_neg hμ]
    simp [hμ]

theorem mem_stepInside {k : Kind} {pre children : List Expr} :
    (e', s') ∈ M.stepInside s μ k pre children ↔
      ∃ mid c post c', children = mid ++ c :: post ∧ k.evaluates (pre ++ mid).length = true ∧
        (c', s') ∈ M.stepList s (k.use μ (pre ++ mid).length) c ∧
        e' = .node k (pre ++ mid ++ c' :: post) := by
  induction children generalizing pre with
  | nil => simp [Machine.stepInside]
  | cons c post ih =>
    rw [Machine.stepInside, List.mem_append, ih]
    constructor
    · rintro (h | ⟨mid, d, post', d', rfl, hdue, hd, rfl⟩)
      · by_cases hdue : k.evaluates pre.length = true
        · rw [if_pos hdue] at h
          obtain ⟨⟨c', s₁⟩, hc, heq⟩ := List.mem_map.mp h
          obtain ⟨rfl, rfl⟩ := Prod.mk.inj heq
          exact ⟨[], c, post, c', rfl, by simpa using hdue, by simpa using hc, by simp⟩
        · rw [if_neg hdue] at h
          cases h
      · exact ⟨c :: mid, d, post', d', rfl, by simpa using hdue, by simpa using hd, by simp⟩
    · rintro ⟨_ | ⟨d, mid⟩, c₁, post', c', hsplit, hdue, hc, rfl⟩
      · obtain ⟨rfl, rfl⟩ := List.cons.inj hsplit
        rw [List.append_nil] at hdue hc
        refine .inl ?_
        rw [if_pos hdue]
        exact List.mem_map.mpr ⟨(c', s'), hc, by simp⟩
      · obtain ⟨rfl, rfl⟩ := List.cons.inj hsplit
        exact .inr ⟨mid, c₁, post', c', rfl, by simpa using hdue, by simpa using hc, by simp⟩

theorem stepList_sound (h : (e', s') ∈ M.stepList s μ e) : Step M μ e s e' s' := by
  induction e generalizing μ e' with
  | val v =>
    obtain ⟨rfl, p, w, hp, hw, rfl, rfl⟩ := mem_readList.mp h
    exact .read hp hw
  | ident x =>
    obtain ⟨rfl, p, w, hp, hw, rfl, rfl⟩ := mem_readList.mp h
    exact .read hp hw
  | node k children ih =>
    rw [Machine.stepList, List.mem_append, List.mem_append] at h
    obtain (h | h) | h := h
    · obtain ⟨mid, c, post, c', rfl, hdue, hc, rfl⟩ := mem_stepInside.mp h
      exact .inside hdue (ih c (by simp) hc)
    · obtain ⟨rfl, p, w, hp, hw, rfl, rfl⟩ := mem_readList.mp h
      exact .read hp hw
    · by_cases hμ : μ = .value
      · rw [if_pos hμ, Option.mem_toList] at h
        subst hμ
        exact .reduce h
      · rw [if_neg hμ] at h
        cases h

theorem stepList_complete (hM : M.Callless) (h : Step M μ e s e' s') :
    (e', s') ∈ M.stepList s μ e := by
  induction h with
  | inside hdue _ ih =>
    rw [Machine.stepList, List.mem_append, List.mem_append]
    exact .inl (.inl (mem_stepInside.mpr ⟨_, _, _, _, rfl, hdue, ih, rfl⟩))
  | @read e p v s hp hv =>
    have hread := mem_readList.mpr ⟨rfl, p, v, hp, hv, rfl, rfl⟩
    cases e with
    | val | ident => exact hread
    | node k children =>
      rw [Machine.stepList, List.mem_append, List.mem_append]
      exact .inl (.inr hread)
  | reduce hred =>
    rw [Machine.stepList, List.mem_append, if_pos rfl]
    exact .inr (Option.mem_toList.mpr hred)
  | call hcall => exact absurd hcall (hM _ _ _ _ _)

theorem useList_sound {v : Val} {use : Use} {new : List Task}
    (h : (new, s') ∈ M.useList s v use) : Task.Next M (.eval (.val v) use) s new s' := by
  cases use with
  | discard => cases List.mem_singleton.mp h; exact .discard
  | ret => cases List.mem_singleton.mp h; exact .ret
  | branch a b =>
    obtain ⟨r, hr, heq⟩ := List.mem_map.mp h
    cases heq
    exact .branch (Option.mem_toList.mp hr)
  | loop c step body =>
    obtain ⟨r, hr, heq⟩ := List.mem_map.mp h
    cases r with
    | true => cases heq; exact .again (Option.mem_toList.mp hr)
    | false => cases heq; exact .leave (Option.mem_toList.mp hr)
  | select labels items =>
    cases hlabel : findLabel labels v with
    | some i =>
      simp only [Machine.useList, hlabel, List.mem_singleton, Prod.mk.injEq] at h
      obtain ⟨rfl, rfl⟩ := h
      exact .select hlabel
    | none =>
      simp only [Machine.useList, hlabel, List.mem_singleton, Prod.mk.injEq] at h
      obtain ⟨rfl, rfl⟩ := h
      exact .skip hlabel
  | init x =>
    obtain ⟨⟨s₁, w⟩, hstore, heq⟩ := List.mem_map.mp h
    obtain ⟨rfl, rfl⟩ := Prod.mk.inj heq
    obtain ⟨p, hp, hstore⟩ := Option.bind_eq_some_iff.mp (Option.mem_toList.mp hstore)
    exact .init hp hstore

theorem useList_complete {v : Val} {use : Use} {new : List Task}
    (h : (new, s') ∈ M.useList s v use) : (new, s') ∈ M.taskList s (.eval (.val v) use) := by
  rw [Machine.taskList, List.mem_append]
  exact .inr (List.mem_flatMap.mpr ⟨v, Option.mem_toList.mpr rfl, h⟩)

theorem taskList_sound {t : Task} {new : List Task} (h : (new, s') ∈ M.taskList s t) :
    Task.Next M t s new s' := by
  match t, h with
  | .stmt (.expression e), h => cases List.mem_singleton.mp h; exact .expression
  | .stmt (.declaration x ty false init), h => cases List.mem_singleton.mp h; exact .declareReg
  | .stmt (.compound items), h => cases List.mem_singleton.mp h; exact .compound
  | .stmt (.ifElse c t f), h => cases List.mem_singleton.mp h; exact .ifElse
  | .stmt (.whileDo c body), h => cases List.mem_singleton.mp h; exact .whileDo
  | .stmt (.doWhile body c), h => cases List.mem_singleton.mp h; exact .doWhile
  | .stmt (.forDo init c step body), h => cases List.mem_singleton.mp h; exact .forDo
  | .stmt (.switch e labels items), h => cases List.mem_singleton.mp h; exact .switch
  | .stmt (.ret none), h => cases List.mem_singleton.mp h; exact .retNone
  | .stmt (.ret (some e)), h => cases List.mem_singleton.mp h; exact .retSome
  | .stmt .brk, h => cases List.mem_singleton.mp h; exact .brk
  | .stmt .cont, h => cases List.mem_singleton.mp h; exact .cont
  | .iterate (some c) step body, h => cases List.mem_singleton.mp h; exact .test
  | .iterate none step body, h => cases List.mem_singleton.mp h; exact .forever
  | .close c, h => cases List.mem_singleton.mp h; exact .close
  | .eval e use, h =>
    rw [Machine.taskList, List.mem_append] at h
    rcases h with h | h
    · obtain ⟨⟨e', s₁⟩, hstep, heq⟩ := List.mem_map.mp h
      obtain ⟨rfl, rfl⟩ := Prod.mk.inj heq
      exact .eval (stepList_sound hstep)
    · obtain ⟨v, hv, huse⟩ := List.mem_flatMap.mp h
      obtain rfl := val?_eq_some.mp (Option.mem_toList.mp hv)
      exact useList_sound huse

/-- A local is declared in memory. -/
def Task.allocates : Task → Bool
  | .stmt (.declaration _ _ inMemory _) => inMemory
  | _ => false

theorem taskList_complete (hM : M.Callless) {t : Task} {new : List Task}
    (halloc : t.allocates = false) (h : Task.Next M t s new s') : (new, s') ∈ M.taskList s t := by
  cases h with
  | declareMem => cases halloc
  | expression | declareReg | compound | ifElse | whileDo | doWhile | forDo | switch | retNone
  | retSome | brk | cont | test | forever | close => exact List.mem_singleton_self _
  | eval hstep =>
    rw [Machine.taskList, List.mem_append]
    exact .inl (List.mem_map.mpr ⟨_, stepList_complete hM hstep, rfl⟩)
  | discard | ret => exact useList_complete (List.mem_singleton_self _)
  | branch ht => exact useList_complete (List.mem_map.mpr ⟨_, Option.mem_toList.mpr ht, rfl⟩)
  | again ht | leave ht =>
    exact useList_complete (List.mem_map.mpr ⟨_, Option.mem_toList.mpr ht, rfl⟩)
  | select hl | skip hl =>
    apply useList_complete
    simp only [Machine.useList, hl]
    exact List.mem_singleton_self _
  | @init v w x p s s' hp hstore =>
    apply useList_complete
    refine List.mem_map.mpr ⟨(s', w), Option.mem_toList.mpr ?_, rfl⟩
    exact Option.bind_eq_some_iff.mpr ⟨p, hp, hstore⟩

theorem nextList_sound {c d : Config} (h : d ∈ M.nextList c) : Config.Next M c d := by
  unfold Machine.nextList at h
  split at h
  · cases h
  · cases h
  · rename_i j c ts s
    by_cases hends : j.endsAt c = true
    · rw [if_pos hends] at h
      cases List.mem_singleton.mp h
      exact .arrive hends
    · rw [if_neg hends] at h
      cases List.mem_singleton.mp h
      exact .passScope (Bool.eq_false_iff.mpr hends)
  · rename_i hclose
    cases List.mem_singleton.mp h
    exact .pass hclose
  · obtain ⟨⟨new, s'⟩, htask, rfl⟩ := List.mem_map.mp h
    exact .task (taskList_sound htask)

theorem nextList_complete (hM : M.Callless) {c d : Config}
    (halloc : c.1.head?.any Task.allocates = false) (h : Config.Next M c d) : d ∈ M.nextList c := by
  cases h with
  | @task t ts s s' new htask =>
    have hmem := taskList_complete hM halloc htask
    cases t with
    | jump => cases htask
    | stmt | eval | iterate | close => exact List.mem_map.mpr ⟨(new, s'), hmem, rfl⟩
  | @pass j t ts s hclose =>
    cases t with
    | close c => exact absurd rfl (hclose c)
    | stmt | eval | iterate | jump => exact List.mem_singleton_self _
  | passScope hends =>
    rw [Machine.nextList, hends]
    exact List.mem_singleton_self _
  | arrive hends =>
    rw [Machine.nextList, if_pos hends]
    exact List.mem_singleton_self _

end

/-! ## All runs -/

/-- How tasks have ended, if they have. -/
def ended : List Task → Option (Option Jump)
  | [] => some none
  | [.jump j] => some (some j)
  | _ => none

/-- Every run ends within `n` steps, in what `p` holds of. -/
def Machine.always (M : Machine) (p : Option Jump → State → Bool) : Nat → Config → Bool
  | 0, _ => false
  | n + 1, c =>
    (ended c.1).all (p · c.2) && !c.1.head?.any Task.allocates &&
      (M.nextList c).all (always M p n)

/-- Some run ends within `n` steps in what `p` holds of. -/
def Machine.sometimes (M : Machine) (p : Option Jump → State → Bool) : Nat → Config → Bool
  | 0, _ => false
  | n + 1, c => (ended c.1).any (p · c.2) || (M.nextList c).any (sometimes M p n)

section
variable {M : Machine} {p : Option Jump → State → Bool} {n : Nat} {c : Config}

theorem ended_ending (o : Option Jump) : ended (ending o) = some o := by
  cases o with
  | none => rfl
  | some j => rfl

theorem ended_eq_some {ts : List Task} {o : Option Jump} (h : ended ts = some o) : ts = ending o := by
  unfold ended at h
  split at h
  · cases h
    rfl
  · cases h
    rfl
  · cases h

theorem always_spec (hM : M.Callless) (h : M.always p n c = true) {o : Option Jump} {s' : State}
    (hruns : Runs M c (ending o, s')) : p o s' = true := by
  induction n generalizing c with
  | zero => cases h
  | succ n ih =>
    rw [Machine.always, Bool.and_eq_true, Bool.and_eq_true, Bool.not_eq_true'] at h
    obtain ⟨⟨hended, halloc⟩, hall⟩ := h
    obtain rfl | ⟨d, hnext, hruns⟩ := hruns.cases_head
    · rw [ended_ending] at hended
      exact hended
    · exact ih (List.all_eq_true.mp hall d (nextList_complete hM halloc hnext)) hruns

theorem sometimes_spec (h : M.sometimes p n c = true) :
    ∃ o s', Runs M c (ending o, s') ∧ p o s' = true := by
  induction n generalizing c with
  | zero => cases h
  | succ n ih =>
    rw [Machine.sometimes, Bool.or_eq_true] at h
    rcases h with h | h
    · obtain ⟨o, ho, hp⟩ := (Option.any_eq_true _ _).mp h
      obtain ⟨ts, s⟩ := c
      obtain rfl : ts = ending o := ended_eq_some ho
      exact ⟨o, s, .refl, hp⟩
    · obtain ⟨d, hd, hp⟩ := List.any_eq_true.mp h
      obtain ⟨o, s', hruns, hp⟩ := ih hp
      exact ⟨o, s', .head (nextList_sound hd) hruns, hp⟩

end

end MeleeHarness.Lib.C
