import MeleeHarness.Lib.C.Value

/-!
# Stores

What a store changes, and assignments whose operands have no effect of their own.

* `store_same`: a store of what is there changes nothing;
* `steps_assignment_iff`: an assignment of such operands is one store.
-/

namespace MeleeHarness.Lib.C

section
variable {x y : Name} {o o' : Obj} {l : List Scope}

theorem setScope_self {scope : Scope} (h : scope.lookup x = some (.reg o)) :
    setScope x o scope = scope := by
  induction scope with
  | nil => cases h
  | cons entry rest ih =>
    obtain ⟨z, b⟩ := entry
    rw [setScope]
    by_cases hz : z = x
    · rw [hz, List.lookup_cons_self] at h
      cases h
      rw [if_pos hz]
    · have hne : (x == z) = false := beq_false_of_ne (Ne.symm hz)
      rw [List.lookup_cons, hne] at h
      rw [if_neg hz, ih h]

theorem setReg_self (h : lookup x l = some (.reg o)) : setReg x o l = l := by
  induction l with
  | nil => cases h
  | cons scope outer ih =>
    rw [setReg]
    by_cases hx : (scope.lookup x).isSome = true
    · rw [if_pos hx]
      obtain ⟨b, hb⟩ := Option.isSome_iff_exists.mp hx
      rw [lookup, hb, Option.some_or] at h
      cases h
      rw [setScope_self hb]
    · have hnone : scope.lookup x = none := Option.not_isSome_iff_eq_none.mp hx
      rw [lookup, hnone, Option.none_or] at h
      rw [if_neg hx, ih h]

end

section
variable {M : Machine} {s s' : State} {p q : Place} {v w : Val} {x : Name}

/-- Only a local is kept apart from memory. -/
theorem look_reg_iff {l : List Scope} {o : Obj} :
    M.look l x = some (.reg o) ↔ lookup x l = some (.reg o) := by
  rw [Machine.look]
  cases hx : lookup x l with
  | some b => rw [Option.some_or]
  | none =>
    rw [Option.none_or]
    cases M.global x with
    | none => simp
    | some g => cases g <;> simp

/-- An object with another scalar in one place. -/
def Obj.put (o : Obj) (off : Int) (w : Val) : Obj :=
  { o with cells := Function.update o.cells off (some w) }

theorem Obj.put_same {o : Obj} {off : Int} {w : Val} (h : o.cells off = some w) : o.put off w = o := by
  rw [Obj.put, ← h, Function.update_eq_self]

/-- What a store leaves: an object of a local, or a block of memory. -/
theorem store_cases (h : M.store s p v = some (s', w)) :
    (∃ x off o, p = .reg x off ∧ lookup x s.locals = some (.reg o) ∧ M.fit o.ty off v = some w ∧
      s' = ⟨setReg x (o.put off w) s.locals, s.mem⟩) ∨
    ∃ b off o, p = .mem b off ∧ s.mem b = some o ∧ M.fit o.ty off v = some w ∧
      s' = ⟨s.locals, Function.update s.mem b (some (o.put off w))⟩ := by
  cases p with
  | const u off => cases h
  | reg x off =>
    rw [Machine.store] at h
    split at h
    · rename_i o hlook
      obtain ⟨⟨o', w'⟩, ho, heq⟩ := Option.map_eq_some_iff.mp h
      obtain ⟨u, hu, heq'⟩ := Option.map_eq_some_iff.mp ho
      cases heq'
      cases heq
      exact .inl ⟨x, off, o, rfl, look_reg_iff.mp hlook, hu, rfl⟩
    · cases h
  | mem b off =>
    obtain ⟨o, ho, h⟩ := Option.bind_eq_some_iff.mp h
    obtain ⟨⟨o', w'⟩, ho', heq⟩ := Option.map_eq_some_iff.mp h
    obtain ⟨u, hu, heq'⟩ := Option.map_eq_some_iff.mp ho'
    cases heq'
    cases heq
    exact .inr ⟨b, off, o, rfl, ho, hu, rfl⟩

/-- A store of what is there changes nothing. -/
theorem store_same (h : M.store s p v = some (s', w)) (hload : M.load s p = some w) : s' = s := by
  obtain ⟨x, off, o, rfl, hlook, -, rfl⟩ | ⟨b, off, o, rfl, ho, -, rfl⟩ := store_cases h
  · simp only [Machine.load, look_reg_iff.mpr hlook] at hload
    rw [Obj.put_same hload, setReg_self hlook]
  · simp only [Machine.load, ho, Option.bind_some] at hload
    rw [Obj.put_same hload, ← ho, Function.update_eq_self]

end

/-! ## Assignments -/

/-- No step of the expression leaves the state. -/
def Still (M : Machine) (s : State) (μ : Mode) (e : Expr) : Prop :=
  ∀ e' s', Steps M μ e s e' s' → s' = s

theorem Expr.Quiet.still {M : Machine} {e : Expr} (h : e.Quiet) (s : State) (μ : Mode) :
    Still M s μ e := fun _ _ hsteps => (quiet_steps hsteps h).1

section
variable {M : Machine} {s s' : State} {a b : Expr} {w : Val}

/-- Up to its store an assignment leaves the state. -/
theorem steps_assignment_cases {e' : Expr} (ha : Still M s .place a) (hb : Still M s .value b)
    (h : Steps M .value (.node (.assignment none) [a, b]) s e' s') :
    (∃ a' b', e' = .node (.assignment none) [a', b'] ∧ s' = s ∧ Steps M .place a s a' s ∧
      Steps M .value b s b' s) ∨
    ∃ p v w, Denotes M a s p s ∧ Steps M .value b s (.val v) s ∧
      M.store s p v = some (s', w) ∧ e' = .val w := by
  induction h using steps_induct with
  | refl => exact .inl ⟨a, b, rfl, rfl, .refl, .refl⟩
  | @tail e₁ s₁ e₂ s₂ _ hstep ih =>
    obtain ⟨a', b', rfl, rfl, ha', hb'⟩ | ⟨p, v, w, -, -, -, rfl⟩ := ih
    · generalize hnode : Expr.node (.assignment none) [a', b'] = e at hstep
      cases hstep with
      | read hp =>
        subst hnode
        cases hp
      | call => cases (Expr.node.inj hnode).1
      | reduce hred =>
        obtain ⟨rfl, rfl⟩ := Expr.node.inj hnode
        simp only [Machine.reduce, Option.bind_eq_bind, Option.bind_eq_some_iff, val?_eq_some,
          Option.pure_def, Option.some.injEq, Prod.mk.injEq, Prod.exists] at hred
        obtain ⟨v, rfl, p, hp, s₃, w, hstore, rfl, rfl⟩ := hred
        exact .inr ⟨p, v, w, ⟨a', ha', hp⟩, hb', hstore, rfl⟩
      | @inside _ k pre post c c' _ _ hdue hc =>
        obtain ⟨rfl, hchildren⟩ := Expr.node.inj hnode
        cases pre with
        | nil =>
          obtain ⟨rfl, rfl⟩ := List.cons.inj hchildren
          have hsteps : Steps M .place a _ c' s₂ := ha'.tail hc
          obtain rfl := ha _ _ hsteps
          exact .inl ⟨c', b', rfl, rfl, hsteps, hb'⟩
        | cons _ pre =>
          obtain ⟨rfl, hrest⟩ := List.cons.inj hchildren
          cases pre with
          | nil =>
            obtain ⟨rfl, rfl⟩ := List.cons.inj hrest
            have hsteps : Steps M .value b _ c' s₂ := hb'.tail hc
            obtain rfl := hb _ _ hsteps
            exact .inl ⟨a', c', rfl, rfl, ha', hsteps⟩
          | cons _ pre => simp at hrest
    · exact absurd hstep (idle_val w _ _ _)

/-- The operands of an assignment come to a place and a value, and then it stores. -/
theorem steps_assignment_iff (ha : Still M s .place a) (hb : Still M s .value b) :
    Steps M .value (.node (.assignment none) [a, b]) s (.val w) s' ↔
      ∃ p v, Denotes M a s p s ∧ Steps M .value b s (.val v) s ∧ M.store s p v = some (s', w) := by
  constructor
  · intro h
    obtain ⟨a', b', hnode, -⟩ | ⟨p, v, w', hp, hv, hstore, heq⟩ := steps_assignment_cases ha hb h
    · cases hnode
    · cases heq
      exact ⟨p, v, hp, hv, hstore⟩
  · rintro ⟨p, v, ⟨a', ha', hp⟩, hv, hstore⟩
    refine (steps_two rfl rfl ha' hv).tail (.reduce ?_)
    simp [Machine.reduce, Expr.val?, hp, hstore]

theorem still_parenthesized (h : Still M s .value a) : Still M s .value (.node .parenthesized [a]) := by
  intro e' s' hsteps
  rcases steps_parenthesized_cases hsteps with ⟨a', -, ha⟩ | ha
  · exact h _ _ ha
  · exact h _ _ ha

end

end MeleeHarness.Lib.C
