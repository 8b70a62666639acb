import MeleeHarness.Lib.C.Semantics

/-!
# A subset of C: evaluation, operand by operand

Where one operand of a node is the only one that moves, a run of the node is a run of
that operand and then the node itself.

* `steps_only_iff`: the rule for every such node;
* `Tests`: the truth value of a condition and the state it leaves, with one rule for
  each kind of node that a condition is made of.
-/

namespace MeleeHarness.Lib.C

section
variable {M : Machine} {μ : Mode} {k : Kind} {e e' a b c : Expr} {s s' : State} {u : Val}

/-- An expression takes no step, whatever the state. -/
def Idle (M : Machine) (μ : Mode) (e : Expr) : Prop := ∀ s e' s', ¬Step M μ e s e' s'

theorem idle_val (v : Val) : Idle M μ (.val v) := by
  intro s e' s' h
  generalize hval : Expr.val v = e at h
  cases h with
  | inside => cases hval
  | read hplace =>
    subst hval
    cases hplace
  | reduce => cases hval
  | call => cases hval

theorem idle_ident (x : Name) : Idle M .place (.ident x) := by
  intro s e' s' h
  cases h

theorem steps_idle (h : Idle M μ e) (hsteps : Steps M μ e s e' s') : e' = e ∧ s' = s := by
  rcases Relation.ReflTransGen.cases_head hsteps with heq | ⟨⟨e₁, s₁⟩, hstep, -⟩
  · cases heq
    exact ⟨rfl, rfl⟩
  · exact absurd hstep (h s e₁ s₁)

/-- An operand that is due may run. -/
theorem steps_inside {pre post : List Expr} (hdue : k.evaluates pre.length = true)
    (h : Steps M (k.use μ pre.length) e s e' s') :
    Steps M μ (.node k (pre ++ e :: post)) s (.node k (pre ++ e' :: post)) s' :=
  h.lift (fun x : Expr × State => (Expr.node k (pre ++ x.1 :: post), x.2))
    fun _ _ hstep => Step.inside hdue hstep

/-- Only one operand of a node ever moves, and the node is no place. -/
structure Only (M : Machine) (k : Kind) (pre post : List Expr) : Prop where
  due : k.evaluates pre.length = true
  idle : ∀ a i d, i ≠ pre.length → k.evaluates i = true → (pre ++ a :: post)[i]? = some d →
    Idle M (k.use .value i) d
  noPlace : ∀ locals a, M.placeOf locals (.node k (pre ++ a :: post)) = none
  noCall : k ≠ .call

/-- A step of such a node is one of the operand, or evaluates the node. -/
theorem step_only {pre post : List Expr} (h : Only M k pre post)
    (hstep : Step M .value (.node k (pre ++ a :: post)) s e' s') :
    (∃ a', Step M (k.use .value pre.length) a s a' s' ∧ e' = .node k (pre ++ a' :: post)) ∨
    M.reduce s k (pre ++ a :: post) = some (e', s') := by
  generalize hnode : Expr.node k (pre ++ a :: post) = e at hstep
  cases hstep with
  | inside hdue hc =>
    rename_i k' pre' post' c c'
    obtain ⟨rfl, hchildren⟩ := Expr.node.inj hnode
    by_cases hlength : pre'.length = pre.length
    · obtain ⟨rfl, hcons⟩ := List.append_inj hchildren hlength.symm
      obtain ⟨rfl, rfl⟩ := List.cons.inj hcons
      exact .inl ⟨c', hc, rfl⟩
    · have hget : (pre ++ a :: post)[pre'.length]? = some c := by
        rw [hchildren, List.getElem?_append_right le_rfl, Nat.sub_self]
        rfl
      exact absurd hc (h.idle a _ c hlength hdue hget _ _ _)
  | read hplace =>
    subst hnode
    rw [h.noPlace] at hplace
    cases hplace
  | reduce hred =>
    obtain ⟨rfl, rfl⟩ := Expr.node.inj hnode
    exact .inr hred
  | call => exact absurd (Expr.node.inj hnode).1 h.noCall

/-- A run of such a node is a run of its operand, then the node itself. -/
theorem steps_only_iff {pre post : List Expr} (h : Only M k pre post) :
    Steps M .value (.node k (pre ++ a :: post)) s (.val u) s' ↔
      ∃ a' s₁ e₂ s₂, Steps M (k.use .value pre.length) a s a' s₁ ∧
        M.reduce s₁ k (pre ++ a' :: post) = some (e₂, s₂) ∧ Steps M .value e₂ s₂ (.val u) s' := by
  constructor
  · intro hsteps
    -- by induction over the run, from its first step on
    have hall : ∀ x : Expr × State, Relation.ReflTransGen
        (fun c d : Expr × State => Step M .value c.1 c.2 d.1 d.2) x (.val u, s') →
        ∀ a s, x = (.node k (pre ++ a :: post), s) →
          ∃ a' s₁ e₂ s₂, Steps M (k.use .value pre.length) a s a' s₁ ∧
            M.reduce s₁ k (pre ++ a' :: post) = some (e₂, s₂) ∧
            Steps M .value e₂ s₂ (.val u) s' := by
      intro x hx
      induction hx using Relation.ReflTransGen.head_induction_on with
      | refl =>
        intro a s hnode
        cases hnode
      | @head x y hstep hrest ih =>
        intro a s hnode
        subst hnode
        obtain ⟨e₁, s₁⟩ := y
        rcases step_only h hstep with ⟨a', ha, rfl⟩ | hred
        · obtain ⟨a'', s₂, e₂, s₃, hoperand, hred, hafter⟩ := ih a' s₁ rfl
          exact ⟨a'', s₂, e₂, s₃, steps_head ha hoperand, hred, hafter⟩
        · exact ⟨a, s, e₁, s₁, .refl, hred, hrest⟩
    exact hall _ hsteps a s rfl
  · rintro ⟨a', s₁, e₂, s₂, hoperand, hred, hafter⟩
    exact (steps_inside h.due hoperand).trans (steps_head (.reduce hred) hafter)

theorem val?_eq_some {v : Val} : e.val? = some v ↔ e = .val v := by
  cases e with
  | val w => simp [Expr.val?]
  | ident | node => simp [Expr.val?]

theorem steps_val_iff {v : Val} : Steps M .value (.val v) s (.val u) s' ↔ u = v ∧ s' = s := by
  constructor
  · intro h
    obtain ⟨heq, hs⟩ := steps_idle (idle_val v) h
    exact ⟨Expr.val.inj heq, hs⟩
  · rintro ⟨rfl, rfl⟩
    exact .refl

theorem steps_ident_iff {x : Name} : Steps M .value (.ident x) s (.val u) s' ↔
    s' = s ∧ ∃ p, M.placeOf s.locals (.ident x) = some p ∧ M.load s p = some u := by
  constructor
  · intro h
    rcases Relation.ReflTransGen.cases_head h with heq | ⟨⟨e₁, s₁⟩, hstep, hrest⟩
    · cases heq
    · generalize hident : Expr.ident x = e at hstep
      cases hstep with
      | inside => cases hident
      | read hplace hload =>
        obtain ⟨rfl, rfl⟩ := steps_val_iff.mp hrest
        exact ⟨rfl, _, hident ▸ hplace, hload⟩
      | reduce => cases hident
      | call => cases hident
  · rintro ⟨rfl, p, hplace, hload⟩
    exact .single (.read hplace hload)

/-! ## Operators -/

/-- The node evaluates its first operand and no other. -/
theorem only_first {rest : List Expr} (hdue : ∀ i, k.evaluates i = true ↔ i = 0)
    (hplace : ∀ locals a, M.placeOf locals (.node k (a :: rest)) = none) (hcall : k ≠ .call) :
    Only M k [] rest where
  due := (hdue 0).mpr rfl
  idle _ i _ hi hev _ := absurd ((hdue i).mp hev) hi
  noPlace := hplace
  noCall := hcall

/-- The node has one operand. -/
theorem only_operand (hdue : k.evaluates 0 = true)
    (hplace : ∀ locals a, M.placeOf locals (.node k [a]) = none) (hcall : k ≠ .call) :
    Only M k [] [] where
  due := hdue
  idle a i d hi _ hget := by
    obtain ⟨i, rfl⟩ := Nat.exists_eq_succ_of_ne_zero hi
    cases hget
  noPlace := hplace
  noCall := hcall

theorem steps_unary_iff {op : UnaryOp} :
    Steps M .value (.node (.unary op) [a]) s (.val u) s' ↔
      ∃ v, Steps M .value a s (.val v) s' ∧ M.unary op v = some u := by
  have honly : Only M (.unary op) [] [] :=
    only_operand rfl (fun _ _ => rfl) (by simp)
  rw [← List.nil_append [a], steps_only_iff honly]
  constructor
  · rintro ⟨a', s₁, e₂, s₂, ha, hred, hafter⟩
    simp only [List.nil_append, Machine.reduce, Option.bind_eq_bind, Option.bind_eq_some_iff,
      val?_eq_some, Option.pure_def, Option.some.injEq, Prod.mk.injEq] at hred
    obtain ⟨v, rfl, w, hw, rfl, rfl⟩ := hred
    obtain ⟨rfl, rfl⟩ := steps_val_iff.mp hafter
    exact ⟨v, ha, hw⟩
  · rintro ⟨v, ha, hu⟩
    exact ⟨.val v, s', .val u, s', ha, by simp [Machine.reduce, Expr.val?, hu], .refl⟩

theorem steps_literal_iff {op : ArithOp} {w : Val} :
    Steps M .value (.node (.binary (.arith op)) [a, .val w]) s (.val u) s' ↔
      ∃ v, Steps M .value a s (.val v) s' ∧ M.binary op v w = some u := by
  have honly : Only M (.binary (.arith op)) [] [.val w] := by
    refine ⟨rfl, ?_, fun _ _ => rfl, by simp⟩
    intro a i d hi _ hget
    match i with
    | 0 => exact absurd rfl hi
    | 1 =>
      obtain rfl := Option.some.inj hget
      exact idle_val w
  rw [← List.nil_append [a, .val w], steps_only_iff honly]
  constructor
  · rintro ⟨a', s₁, e₂, s₂, ha, hred, hafter⟩
    simp only [List.nil_append, Machine.reduce, Option.bind_eq_bind, Option.bind_eq_some_iff,
      val?_eq_some, Option.pure_def, Option.some.injEq, Prod.mk.injEq, Expr.val.injEq] at hred
    obtain ⟨v, rfl, w', rfl, u', hu', rfl, rfl⟩ := hred
    obtain ⟨rfl, rfl⟩ := steps_val_iff.mp hafter
    exact ⟨v, ha, hu'⟩
  · rintro ⟨v, ha, hu⟩
    exact ⟨.val v, s', .val u, s', ha, by simp [Machine.reduce, Expr.val?, hu], .refl⟩

theorem steps_comma_iff :
    Steps M .value (.node .comma [a, b]) s (.val u) s' ↔
      ∃ v s₁, Steps M .value a s (.val v) s₁ ∧ Steps M .value b s₁ (.val u) s' := by
  have honly : Only M .comma [] [b] :=
    only_first (fun i => decide_eq_true_iff) (fun _ _ => rfl) (by simp)
  rw [← List.nil_append [a, b], steps_only_iff honly]
  constructor
  · rintro ⟨a', s₁, e₂, s₂, ha, hred, hafter⟩
    simp only [List.nil_append, Machine.reduce, Option.bind_eq_bind, Option.bind_eq_some_iff,
      val?_eq_some, Option.pure_def, Option.some.injEq, Prod.mk.injEq] at hred
    obtain ⟨v, rfl, rfl, rfl⟩ := hred
    exact ⟨v, s₁, ha, hafter⟩
  · rintro ⟨v, s₁, ha, hb⟩
    exact ⟨.val v, s₁, b, s₁, ha, rfl, hb⟩

theorem steps_conditional_iff :
    Steps M .value (.node .conditional [c, a, b]) s (.val u) s' ↔
      ∃ v s₁ t, Steps M .value c s (.val v) s₁ ∧ M.truth v = some t ∧
        Steps M .value (if t then a else b) s₁ (.val u) s' := by
  have honly : Only M .conditional [] [a, b] :=
    only_first (fun i => decide_eq_true_iff) (fun _ _ => rfl) (by simp)
  rw [← List.nil_append [c, a, b], steps_only_iff honly]
  constructor
  · rintro ⟨c', s₁, e₂, s₂, hc, hred, hafter⟩
    simp only [List.nil_append, Machine.reduce, Option.bind_eq_bind, Option.bind_eq_some_iff,
      val?_eq_some, Option.pure_def, Option.some.injEq, Prod.mk.injEq] at hred
    obtain ⟨v, rfl, t, ht, rfl, rfl⟩ := hred
    exact ⟨v, s₁, t, hc, ht, hafter⟩
  · rintro ⟨v, s₁, t, hc, ht, hbranch⟩
    exact ⟨.val v, s₁, _, s₁, hc, by simp [Machine.reduce, Expr.val?, ht], hbranch⟩

theorem steps_logAnd_iff :
    Steps M .value (.node (.binary .logAnd) [a, b]) s (.val u) s' ↔
      ∃ v s₁ t, Steps M .value a s (.val v) s₁ ∧ M.truth v = some t ∧
        Steps M .value (if t then .node .conditional [b, .val (.int 1), .val (.int 0)]
          else .val (.int 0)) s₁ (.val u) s' := by
  have honly : Only M (.binary .logAnd) [] [b] :=
    only_first (fun i => decide_eq_true_iff) (fun _ _ => rfl) (by simp)
  rw [← List.nil_append [a, b], steps_only_iff honly]
  constructor
  · rintro ⟨a', s₁, e₂, s₂, ha, hred, hafter⟩
    simp only [List.nil_append, Machine.reduce, Option.bind_eq_bind, Option.bind_eq_some_iff,
      val?_eq_some, Option.pure_def, Option.some.injEq, Prod.mk.injEq] at hred
    obtain ⟨v, rfl, t, ht, rfl, rfl⟩ := hred
    exact ⟨v, s₁, t, ha, ht, hafter⟩
  · rintro ⟨v, s₁, t, ha, ht, hafter⟩
    exact ⟨.val v, s₁, _, s₁, ha, by simp [Machine.reduce, Expr.val?, ht], hafter⟩

theorem steps_logOr_iff :
    Steps M .value (.node (.binary .logOr) [a, b]) s (.val u) s' ↔
      ∃ v s₁ t, Steps M .value a s (.val v) s₁ ∧ M.truth v = some t ∧
        Steps M .value (if t then .val (.int 1)
          else .node .conditional [b, .val (.int 1), .val (.int 0)]) s₁ (.val u) s' := by
  have honly : Only M (.binary .logOr) [] [b] :=
    only_first (fun i => decide_eq_true_iff) (fun _ _ => rfl) (by simp)
  rw [← List.nil_append [a, b], steps_only_iff honly]
  constructor
  · rintro ⟨a', s₁, e₂, s₂, ha, hred, hafter⟩
    simp only [List.nil_append, Machine.reduce, Option.bind_eq_bind, Option.bind_eq_some_iff,
      val?_eq_some, Option.pure_def, Option.some.injEq, Prod.mk.injEq] at hred
    obtain ⟨v, rfl, t, ht, rfl, rfl⟩ := hred
    exact ⟨v, s₁, t, ha, ht, hafter⟩
  · rintro ⟨v, s₁, t, ha, ht, hafter⟩
    exact ⟨.val v, s₁, _, s₁, ha, by simp [Machine.reduce, Expr.val?, ht], hafter⟩

theorem step_parenthesized (hstep : Step M .value (.node .parenthesized [a]) s e' s') :
    (∃ a', Step M .value a s a' s' ∧ e' = .node .parenthesized [a']) ∨
      Steps M .value a s e' s' := by
  generalize hnode : Expr.node .parenthesized [a] = e at hstep
  cases hstep with
  | inside _ hc =>
    rename_i k pre post c c' _
    obtain ⟨rfl, hchildren⟩ := Expr.node.inj hnode
    cases pre with
    | nil =>
      obtain ⟨rfl, rfl⟩ := List.cons.inj hchildren
      exact .inl ⟨c', hc, rfl⟩
    | cons d pre => simp at hchildren
  | read hplace hload =>
    subst hnode
    exact .inr (.single (.read hplace hload))
  | reduce hred =>
    obtain ⟨rfl, rfl⟩ := Expr.node.inj hnode
    simp only [Machine.reduce, Option.bind_eq_bind, Option.bind_eq_some_iff, val?_eq_some,
      Option.pure_def, Option.some.injEq, Prod.mk.injEq] at hred
    obtain ⟨v, rfl, rfl, rfl⟩ := hred
    exact .inr .refl
  | call => cases (Expr.node.inj hnode).1

theorem steps_parenthesized_cases (h : Steps M .value (.node .parenthesized [a]) s e' s') :
    (∃ a', e' = .node .parenthesized [a'] ∧ Steps M .value a s a' s') ∨ Steps M .value a s e' s' := by
  induction h using steps_induct with
  | refl => exact .inl ⟨a, rfl, .refl⟩
  | tail _ hstep ih =>
    rcases ih with ⟨a', rfl, ha⟩ | ha
    · rcases step_parenthesized hstep with ⟨a'', ha', rfl⟩ | ha'
      · exact .inl ⟨a'', rfl, ha.tail ha'⟩
      · exact .inr (ha.trans ha')
    · exact .inr (ha.tail hstep)

/-- A value in parentheses is the value: they take one step more, unless they are read
as a place. -/
theorem steps_parenthesized_iff :
    Steps M .value (.node .parenthesized [a]) s (.val u) s' ↔ Steps M .value a s (.val u) s' := by
  constructor
  · intro hsteps
    rcases steps_parenthesized_cases hsteps with ⟨a', hnode, -⟩ | ha
    · cases hnode
    · exact ha
  · intro hsteps
    have hinside : Steps M .value (.node .parenthesized [a]) s
        (.node .parenthesized [.val u]) s' :=
      @steps_inside M .value .parenthesized a (.val u) s s' [] [] rfl hsteps
    exact hinside.tail (.reduce rfl)

end

/-! ## Places -/

/-- An expression denotes a place and leaves a state. -/
def Denotes (M : Machine) (e : Expr) (s : State) (p : Place) (s' : State) : Prop :=
  ∃ e', Steps M .place e s e' s' ∧ M.placeOf s'.locals e' = some p

section
variable {M : Machine} {k : Kind} {e' a : Expr} {s s' : State} {p : Place} {f : Name}

/-- An expression that is used as a place moves in its operand only. -/
theorem steps_place_iff (hdue : k.evaluates 0 = true) :
    Steps M .place (.node k [a]) s e' s' ↔
      ∃ a', e' = .node k [a'] ∧ Steps M (k.use .place 0) a s a' s' := by
  constructor
  · intro h
    induction h using steps_induct with
    | refl => exact ⟨a, rfl, .refl⟩
    | tail _ hstep ih =>
      obtain ⟨a₁, rfl, ha⟩ := ih
      generalize hnode : Expr.node k [a₁] = e₁ at hstep
      cases hstep with
      | inside _ hc =>
        rename_i k' pre post c c' _
        obtain ⟨rfl, hchildren⟩ := Expr.node.inj hnode
        cases pre with
        | nil =>
          obtain ⟨rfl, rfl⟩ := List.cons.inj hchildren
          exact ⟨c', rfl, ha.tail hc⟩
        | cons d pre => simp at hchildren
  · rintro ⟨a', rfl, ha⟩
    exact @steps_inside M .place k a a' s s' [] [] hdue ha

theorem denotes_parenthesized_iff :
    Denotes M (.node .parenthesized [a]) s p s' ↔ Denotes M a s p s' := by
  simp only [Denotes, steps_place_iff (k := .parenthesized) rfl]
  constructor
  · rintro ⟨_, ⟨a', rfl, ha⟩, hplace⟩
    exact ⟨a', ha, hplace⟩
  · rintro ⟨a', ha, hplace⟩
    exact ⟨_, ⟨a', rfl, ha⟩, hplace⟩

theorem denotes_field_iff : Denotes M (.node (.field f) [a]) s p s' ↔
    ∃ q, Denotes M a s q s' ∧ q.shift (M.offset f) = p := by
  simp only [Denotes, steps_place_iff (k := .field f) rfl]
  constructor
  · rintro ⟨_, ⟨a', rfl, ha⟩, hplace⟩
    obtain ⟨q, hq, rfl⟩ := Option.map_eq_some_iff.mp hplace
    exact ⟨q, ⟨a', ha, hq⟩, rfl⟩
  · rintro ⟨q, ⟨a', ha, hq⟩, rfl⟩
    exact ⟨_, ⟨a', rfl, ha⟩, Option.map_eq_some_iff.mpr ⟨q, hq, rfl⟩⟩

theorem denotes_deref_iff : Denotes M (.node .deref [a]) s p s' ↔
    ∃ v, Steps M .value a s (.val v) s' ∧ v.target 0 = some p := by
  simp only [Denotes, steps_place_iff (k := .deref) rfl]
  constructor
  · rintro ⟨_, ⟨a', rfl, ha⟩, hplace⟩
    obtain ⟨v, hv, htarget⟩ := Option.bind_eq_some_iff.mp hplace
    rw [val?_eq_some] at hv
    exact ⟨v, hv ▸ ha, htarget⟩
  · rintro ⟨v, ha, htarget⟩
    exact ⟨_, ⟨.val v, rfl, ha⟩, htarget⟩

theorem denotes_arrow_iff : Denotes M (.node (.arrow f) [a]) s p s' ↔
    ∃ v, Steps M .value a s (.val v) s' ∧ v.target (M.offset f) = some p := by
  simp only [Denotes, steps_place_iff (k := .arrow f) rfl]
  constructor
  · rintro ⟨_, ⟨a', rfl, ha⟩, hplace⟩
    obtain ⟨v, hv, htarget⟩ := Option.bind_eq_some_iff.mp hplace
    rw [val?_eq_some] at hv
    exact ⟨v, hv ▸ ha, htarget⟩
  · rintro ⟨v, ha, htarget⟩
    exact ⟨_, ⟨.val v, rfl, ha⟩, htarget⟩

/-- `(*a).f` and `a->f` are the same member. -/
theorem denotes_member_iff :
    Denotes M (.node (.field f) [.node .parenthesized [.node .deref [a]]]) s p s' ↔
      Denotes M (.node (.arrow f) [a]) s p s' := by
  simp only [denotes_field_iff, denotes_parenthesized_iff, denotes_deref_iff, denotes_arrow_iff]
  constructor
  · rintro ⟨q, ⟨v, ha, hq⟩, rfl⟩
    refine ⟨v, ha, ?_⟩
    cases v with
    | ptr b off =>
      cases hq
      simp [Val.target, Place.shift]
    | int | fn => cases hq
  · rintro ⟨v, ha, hp⟩
    cases v with
    | ptr b off =>
      cases hp
      exact ⟨.mem b off, ⟨_, ha, by simp [Val.target]⟩, rfl⟩
    | int | fn => cases hp

end

/-! ## Conditions -/

/-- A condition has a truth value and leaves a state. -/
def Tests (M : Machine) (e : Expr) (s : State) (t : Bool) (s' : State) : Prop :=
  ∃ v, Steps M .value e s (.val v) s' ∧ M.truth v = some t

/-- Comparisons with zero, and negation, go by the truth value. -/
structure Machine.Truthful (M : Machine) : Prop where
  one : M.truth (.int 1) = some true
  zero : M.truth (.int 0) = some false
  ne_zero : ∀ v, (M.binary .ne v (.int 0)).bind M.truth = M.truth v
  eq_zero : ∀ v, (M.binary .eq v (.int 0)).bind M.truth = (M.truth v).map (!·)
  not : ∀ v, (M.unary .not v).bind M.truth = (M.truth v).map (!·)

section
variable {M : Machine} {a b c : Expr} {s s' : State} {t : Bool}

theorem tests_comma_iff : Tests M (.node .comma [a, b]) s t s' ↔
    ∃ v s₁, Steps M .value a s (.val v) s₁ ∧ Tests M b s₁ t s' := by
  simp only [Tests, steps_comma_iff]
  tauto

theorem tests_conditional_iff : Tests M (.node .conditional [c, a, b]) s t s' ↔
    ∃ r s₁, Tests M c s r s₁ ∧ Tests M (if r then a else b) s₁ t s' := by
  simp only [Tests, steps_conditional_iff]
  constructor
  · rintro ⟨u, ⟨v, s₁, r, hc, hr, hu⟩, ht⟩
    exact ⟨r, s₁, ⟨v, hc, hr⟩, u, hu, ht⟩
  · rintro ⟨r, s₁, ⟨v, hc, hr⟩, u, hu, ht⟩
    exact ⟨u, ⟨v, s₁, r, hc, hr, hu⟩, ht⟩

theorem tests_parenthesized_iff : Tests M (.node .parenthesized [a]) s t s' ↔ Tests M a s t s' := by
  simp only [Tests, steps_parenthesized_iff]

section
variable (h : M.Truthful)
include h

theorem tests_int_iff {r : Bool} : Tests M (.val (.int (if r then 1 else 0))) s t s' ↔
    t = r ∧ s' = s := by
  simp only [Tests, steps_val_iff]
  constructor
  · rintro ⟨v, ⟨rfl, rfl⟩, ht⟩
    cases r with
    | true => exact ⟨(Option.some.inj (h.one.symm.trans ht)).symm, rfl⟩
    | false => exact ⟨(Option.some.inj (h.zero.symm.trans ht)).symm, rfl⟩
  · rintro ⟨rfl, rfl⟩
    refine ⟨_, ⟨rfl, rfl⟩, ?_⟩
    cases t with
    | true => exact h.one
    | false => exact h.zero

/-- What an operator makes of the second operand is its truth value. -/
theorem tests_flag_iff :
    Tests M (.node .conditional [b, .val (.int 1), .val (.int 0)]) s t s' ↔ Tests M b s t s' := by
  rw [tests_conditional_iff]
  have hbranch : ∀ r : Bool, (if r then Expr.val (.int 1) else .val (.int 0)) =
      .val (.int (if r then 1 else 0)) := by
    intro r
    cases r <;> rfl
  constructor
  · rintro ⟨r, s₁, hb, hr⟩
    rw [hbranch, tests_int_iff h] at hr
    obtain ⟨rfl, rfl⟩ := hr
    exact hb
  · intro hb
    refine ⟨t, s', hb, ?_⟩
    rw [hbranch, tests_int_iff h]
    exact ⟨rfl, rfl⟩

theorem tests_logAnd_iff : Tests M (.node (.binary .logAnd) [a, b]) s t s' ↔
    ∃ r s₁, Tests M a s r s₁ ∧ if r then Tests M b s₁ t s' else t = false ∧ s' = s₁ := by
  have hsteps : Tests M (.node (.binary .logAnd) [a, b]) s t s' ↔ ∃ r s₁, Tests M a s r s₁ ∧
      Tests M (if r then .node .conditional [b, .val (.int 1), .val (.int 0)]
        else .val (.int 0)) s₁ t s' := by
    simp only [Tests, steps_logAnd_iff]
    constructor
    · rintro ⟨u, ⟨v, s₁, r, ha, hr, hu⟩, ht⟩
      exact ⟨r, s₁, ⟨v, ha, hr⟩, u, hu, ht⟩
    · rintro ⟨r, s₁, ⟨v, ha, hr⟩, u, hu, ht⟩
      exact ⟨u, ⟨v, s₁, r, ha, hr, hu⟩, ht⟩
  rw [hsteps]
  refine exists_congr fun r => exists_congr fun s₁ => and_congr_right fun _ => ?_
  cases r with
  | true => exact tests_flag_iff h
  | false => exact tests_int_iff h (r := false)

theorem tests_logOr_iff : Tests M (.node (.binary .logOr) [a, b]) s t s' ↔
    ∃ r s₁, Tests M a s r s₁ ∧ if r then t = true ∧ s' = s₁ else Tests M b s₁ t s' := by
  have hsteps : Tests M (.node (.binary .logOr) [a, b]) s t s' ↔ ∃ r s₁, Tests M a s r s₁ ∧
      Tests M (if r then .val (.int 1)
        else .node .conditional [b, .val (.int 1), .val (.int 0)]) s₁ t s' := by
    simp only [Tests, steps_logOr_iff]
    constructor
    · rintro ⟨u, ⟨v, s₁, r, ha, hr, hu⟩, ht⟩
      exact ⟨r, s₁, ⟨v, ha, hr⟩, u, hu, ht⟩
    · rintro ⟨r, s₁, ⟨v, ha, hr⟩, u, hu, ht⟩
      exact ⟨u, ⟨v, s₁, r, ha, hr, hu⟩, ht⟩
  rw [hsteps]
  refine exists_congr fun r => exists_congr fun s₁ => and_congr_right fun _ => ?_
  cases r with
  | true => exact tests_int_iff h (r := true)
  | false => exact tests_flag_iff h

theorem tests_ne_zero_iff :
    Tests M (.node (.binary (.arith .ne)) [a, .val (.int 0)]) s t s' ↔ Tests M a s t s' := by
  simp only [Tests, steps_literal_iff]
  constructor
  · rintro ⟨u, ⟨v, ha, hu⟩, ht⟩
    refine ⟨v, ha, ?_⟩
    rw [← h.ne_zero, hu]
    exact ht
  · rintro ⟨v, ha, ht⟩
    have hne := h.ne_zero v
    rw [ht, Option.bind_eq_some_iff] at hne
    obtain ⟨u, hu, hut⟩ := hne
    exact ⟨u, ⟨v, ha, hu⟩, hut⟩

theorem tests_eq_zero_iff :
    Tests M (.node (.binary (.arith .eq)) [a, .val (.int 0)]) s t s' ↔ Tests M a s (!t) s' := by
  simp only [Tests, steps_literal_iff]
  constructor
  · rintro ⟨u, ⟨v, ha, hu⟩, ht⟩
    have heq := h.eq_zero v
    rw [hu, Option.bind_some, ht, eq_comm, Option.map_eq_some_iff] at heq
    obtain ⟨r, hr, rfl⟩ := heq
    exact ⟨v, ha, by rw [hr, Bool.not_not]⟩
  · rintro ⟨v, ha, ht⟩
    have heq := h.eq_zero v
    rw [ht, Option.map_some, Bool.not_not, Option.bind_eq_some_iff] at heq
    obtain ⟨u, hu, hut⟩ := heq
    exact ⟨u, ⟨v, ha, hu⟩, hut⟩

theorem tests_not_iff :
    Tests M (.node (.unary .not) [a]) s t s' ↔ Tests M a s (!t) s' := by
  simp only [Tests, steps_unary_iff]
  constructor
  · rintro ⟨u, ⟨v, ha, hu⟩, ht⟩
    have hnot := h.not v
    rw [hu, Option.bind_some, ht, eq_comm, Option.map_eq_some_iff] at hnot
    obtain ⟨r, hr, rfl⟩ := hnot
    exact ⟨v, ha, by rw [hr, Bool.not_not]⟩
  · rintro ⟨v, ha, ht⟩
    have hnot := h.not v
    rw [ht, Option.map_some, Bool.not_not, Option.bind_eq_some_iff] at hnot
    obtain ⟨u, hu, hut⟩ := hnot
    exact ⟨u, ⟨v, ha, hu⟩, hut⟩

end

end

end MeleeHarness.Lib.C
