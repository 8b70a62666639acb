import MeleeHarness.Lib.C.Evaluate
import MeleeHarness.Lib.C.Sequence

/-!
# What statements end in

A run of statements that is over has left no task, or a jump that leaves them all.

* `runsIn_split`: where a run of so many steps has left its first tasks;
* `does_append_iff`, `does_expression_iff`, `does_compound_iff`, …: what a statement ends
  in, from what its parts end in.
-/

namespace MeleeHarness.Lib.C

/-- What is left of tasks that are over. -/
def ending : Option Jump → List Task
  | none => []
  | some j => [.jump j]

theorem over_iff {ts : List Task} : Over ts ↔ ∃ o, ts = ending o := by
  constructor
  · rintro (_ | j)
    · exact ⟨none, rfl⟩
    · exact ⟨some j, rfl⟩
  · rintro ⟨_ | j, rfl⟩
    · exact .done
    · exact .left j

/-- The tasks end in a state, with the jump that leaves them if there is one. -/
def Ends (M : Machine) (ts : List Task) (s : State) (o : Option Jump) (s' : State) : Prop :=
  Runs M (ts, s) (ending o, s')

/-- The statements do. -/
abbrev Does (M : Machine) (items : List Stmt) (s : State) (o : Option Jump) (s' : State) : Prop :=
  Ends M (items.map .stmt) s o s'

/-! ## Runs of so many steps -/

inductive RunsIn (M : Machine) : Nat → Config → Config → Prop
  | refl {c : Config} : RunsIn M 0 c c
  | head {n : Nat} {c d e : Config} : Config.Next M c d → RunsIn M n d e → RunsIn M (n + 1) c e

section
variable {M : Machine} {n : Nat} {c d e : Config} {ts us rest : List Task} {s s' : State}
  {o : Option Jump}

theorem RunsIn.runs (h : RunsIn M n c d) : Runs M c d := by
  induction h with
  | refl => exact .refl
  | head hnext _ ih => exact .head hnext ih

theorem exists_runsIn (h : Runs M c d) : ∃ n, RunsIn M n c d := by
  induction h using Relation.ReflTransGen.head_induction_on with
  | refl => exact ⟨0, .refl⟩
  | head hnext _ ih =>
    obtain ⟨n, hruns⟩ := ih
    exact ⟨n + 1, .head hnext hruns⟩

theorem over_first (h : Over (ts ++ rest)) : Over ts := by
  obtain ⟨o, ho⟩ := over_iff.mp h
  match ts, o, ho with
  | [], _, _ => exact .done
  | [_], some j, ho =>
    obtain ⟨rfl, -⟩ := List.cons.inj ho
    exact .left j
  | _ :: _ :: _, some j, ho => cases ho

theorem over_stuck (h : Over ts) : ¬Config.Next M (ts, s) d := by
  intro hnext
  cases h with
  | done => cases hnext
  | left j =>
    cases hnext with
    | task htask => cases htask

/-- A run that is over has left its first tasks before. -/
theorem runsIn_split (h : RunsIn M n (ts ++ rest, s) (us, s')) (hover : Over us) :
    ∃ m k o s₁, m + k = n ∧ RunsIn M m (ts, s) (ending o, s₁) ∧
      RunsIn M k (ending o ++ rest, s₁) (us, s') := by
  generalize hc : (ts ++ rest, s) = c at h
  generalize hd : (us, s') = d at h
  induction h generalizing ts s with
  | refl =>
    cases hc
    cases hd
    obtain ⟨o, rfl⟩ := over_iff.mp (over_first hover)
    exact ⟨0, 0, o, _, rfl, .refl, .refl⟩
  | @head n c d e hnext hruns ih =>
    subst hc hd
    by_cases hts : Over ts
    · obtain ⟨o, rfl⟩ := over_iff.mp hts
      exact ⟨0, n + 1, o, s, Nat.zero_add _, .refl, .head hnext hruns⟩
    · obtain ⟨ts', hd, hnext'⟩ := next_split hts hnext
      obtain ⟨ds, s₂⟩ := d
      cases hd
      obtain ⟨m, k, o, s₁, hn, hfirst, hrest⟩ := ih rfl rfl
      exact ⟨m + 1, k, o, s₁, by omega, .head hnext' hfirst, hrest⟩

theorem ends_nil_iff : Ends M [] s o s' ↔ o = none ∧ s' = s := by
  constructor
  · intro h
    obtain heq | ⟨d, hnext, -⟩ := h.cases_head
    · cases o with
      | none =>
        cases heq
        exact ⟨rfl, rfl⟩
      | some j => cases heq
    · cases hnext
  · rintro ⟨rfl, rfl⟩
    exact .refl

/-- A jump leaves everything behind it up to a scope that closes. -/
theorem jump_stmts_iff {j : Jump} {items : List Stmt} :
    Runs M (.jump j :: items.map .stmt, s) (ending o, s') ↔ o = some j ∧ s' = s := by
  induction items with
  | nil =>
    constructor
    · intro h
      obtain heq | ⟨d, hnext, -⟩ := h.cases_head
      · cases o with
        | none => cases heq
        | some j' =>
          cases heq
          exact ⟨rfl, rfl⟩
      · exact absurd hnext (over_stuck (.left j))
    · rintro ⟨rfl, rfl⟩
      exact .refl
  | cons st items ih =>
    rw [← ih]
    constructor
    · intro h
      obtain heq | ⟨d, hnext, hruns⟩ := h.cases_head
      · cases o with
        | none => cases heq
        | some j' => cases heq
      · cases hnext with
        | task htask => cases htask
        | pass => exact hruns
    · intro h
      exact .head (.pass (by simp)) h

theorem jump_nil_iff {j : Jump} :
    Runs M ([.jump j], s) (ending o, s') ↔ o = some j ∧ s' = s :=
  @jump_stmts_iff M s s' o j []

theorem ends_append_iff : Ends M (ts ++ rest) s o s' ↔
    ∃ o₁ s₁, Ends M ts s o₁ s₁ ∧ Runs M (ending o₁ ++ rest, s₁) (ending o, s') := by
  constructor
  · intro h
    obtain ⟨n, hn⟩ := exists_runsIn h
    obtain ⟨m, k, o₁, s₁, -, hfirst, hrest⟩ := runsIn_split hn (over_iff.mpr ⟨o, rfl⟩)
    exact ⟨o₁, s₁, hfirst.runs, hrest.runs⟩
  · rintro ⟨o₁, s₁, hfirst, hrest⟩
    exact (runs_append hfirst).trans hrest

/-- Statements one after another: the first ones jump, or the others go on. -/
theorem does_append_iff {a b : List Stmt} : Does M (a ++ b) s o s' ↔
    (∃ s₁, Does M a s none s₁ ∧ Does M b s₁ o s') ∨ ∃ j, o = some j ∧ Does M a s (some j) s' := by
  rw [Does, List.map_append, ends_append_iff]
  constructor
  · rintro ⟨_ | j, s₁, ha, hb⟩
    · exact .inl ⟨s₁, ha, hb⟩
    · obtain ⟨rfl, rfl⟩ := jump_stmts_iff.mp hb
      exact .inr ⟨j, rfl, ha⟩
  · rintro (⟨s₁, ha, hb⟩ | ⟨j, rfl, ha⟩)
    · exact ⟨none, s₁, ha, hb⟩
    · exact ⟨some j, s', ha, jump_stmts_iff.mpr ⟨rfl, rfl⟩⟩

theorem does_cons_iff {st : Stmt} {items : List Stmt} : Does M (st :: items) s o s' ↔
    (∃ s₁, Does M [st] s none s₁ ∧ Does M items s₁ o s') ∨
      ∃ j, o = some j ∧ Does M [st] s (some j) s' :=
  does_append_iff (a := [st])

/-! ## One statement -/

/-- The first step of a task that is no jump is one of its own. -/
theorem ends_task_iff {t : Task} (hjump : ∀ j, t ≠ .jump j) : Ends M (t :: ts) s o s' ↔
    ∃ new s₁, Task.Next M t s new s₁ ∧ Ends M (new ++ ts) s₁ o s' := by
  constructor
  · intro h
    obtain heq | ⟨d, hnext, hruns⟩ := h.cases_head
    · cases o with
      | none => cases heq
      | some j =>
        obtain ⟨rfl, -⟩ := List.cons.inj (congrArg Prod.fst heq)
        exact absurd rfl (hjump j)
    · cases hnext with
      | task htask => exact ⟨_, _, htask, hruns⟩
      | pass | passScope | arrive => exact absurd rfl (hjump _)
  · rintro ⟨new, s₁, htask, hruns⟩
    exact .head (.task htask) hruns

theorem runs_eval_steps {a a' : Expr} {use : Use} (h : Steps M .value a s a' s') :
    Runs M (.eval a use :: ts, s) (.eval a' use :: ts, s') := by
  induction h using steps_induct with
  | refl => exact .refl
  | tail _ hstep ih => exact ih.tail (.task (.eval hstep))

/-- An expression is evaluated, and its value is used. -/
theorem ends_eval_iff {a : Expr} {use : Use} : Ends M (.eval a use :: ts) s o s' ↔
    ∃ v s₁, Steps M .value a s (.val v) s₁ ∧ Ends M (.eval (.val v) use :: ts) s₁ o s' := by
  constructor
  · intro h
    unfold Ends at h
    generalize hc : (Task.eval a use :: ts, s) = c at h
    induction h using Relation.ReflTransGen.head_induction_on generalizing a s with
    | refl =>
      cases o with
      | none => cases hc
      | some j => cases hc
    | head hnext hruns ih =>
      subst hc
      cases hnext with
      | task htask =>
        cases htask with
        | eval hstep =>
          obtain ⟨v, s₁, hsteps, hends⟩ := ih rfl
          exact ⟨v, s₁, steps_head hstep hsteps, hends⟩
        | discard => exact ⟨_, s, .refl, .head (.task .discard) hruns⟩
        | branch ht => exact ⟨_, s, .refl, .head (.task (.branch ht)) hruns⟩
        | again ht => exact ⟨_, s, .refl, .head (.task (.again ht)) hruns⟩
        | leave ht => exact ⟨_, s, .refl, .head (.task (.leave ht)) hruns⟩
        | select hl => exact ⟨_, s, .refl, .head (.task (.select hl)) hruns⟩
        | skip hl => exact ⟨_, s, .refl, .head (.task (.skip hl)) hruns⟩
        | init hp hstore => exact ⟨_, s, .refl, .head (.task (.init hp hstore)) hruns⟩
        | ret => exact ⟨_, s, .refl, .head (.task .ret) hruns⟩
  · rintro ⟨v, s₁, hsteps, hends⟩
    exact (runs_eval_steps hsteps).trans hends

theorem does_expression_iff {a : Expr} : Does M [.expression a] s o s' ↔
    o = none ∧ ∃ v, Steps M .value a s (.val v) s' := by
  rw [Does, List.map_cons, ends_task_iff (by simp)]
  constructor
  · rintro ⟨new, s₁, htask, hends⟩
    cases htask
    obtain ⟨v, s₂, hsteps, hends⟩ := ends_eval_iff.mp hends
    obtain ⟨new, s₃, htask, hends⟩ := (ends_task_iff (by simp)).mp hends
    cases htask with
    | eval hstep => exact absurd hstep (idle_val v _ _ _)
    | discard =>
      obtain ⟨rfl, rfl⟩ := ends_nil_iff.mp hends
      exact ⟨rfl, v, hsteps⟩
  · rintro ⟨rfl, v, hsteps⟩
    refine ⟨_, s, .expression, ends_eval_iff.mpr ⟨v, s', hsteps, ?_⟩⟩
    exact .single (.task .discard)

theorem does_compound_iff {items : List Stmt} : Does M [.compound items] s o s' ↔
    ∃ s₁, Does M items s.openScope o s₁ ∧ s' = s₁.closeScope := by
  rw [Does, List.map_cons, ends_task_iff (by simp)]
  constructor
  · rintro ⟨new, s₁, htask, hends⟩
    cases htask
    rw [List.map_nil, List.append_nil] at hends
    obtain ⟨o₁, s₁, hitems, hclose⟩ := ends_append_iff.mp hends
    cases o₁ with
    | none =>
      obtain ⟨new, s₂, htask, hends⟩ := (ends_task_iff (by simp)).mp hclose
      cases htask
      obtain ⟨rfl, rfl⟩ := ends_nil_iff.mp hends
      exact ⟨s₁, hitems, rfl⟩
    | some j =>
      obtain heq | ⟨d, hnext, hruns⟩ := hclose.cases_head
      · cases o with
        | none => cases heq
        | some j' => cases heq
      · cases hnext with
        | task htask => cases htask
        | pass hc => exact absurd rfl (hc .block)
        | passScope =>
          obtain ⟨rfl, rfl⟩ := jump_nil_iff.mp hruns
          exact ⟨s₁, hitems, rfl⟩
        | arrive hends =>
          cases j with
          | brk | cont | ret => cases hends
  · rintro ⟨s₁, hitems, rfl⟩
    refine ⟨_, _, .compound, ?_⟩
    rw [List.map_nil, List.append_nil]
    refine ends_append_iff.mpr ⟨o, s₁, hitems, ?_⟩
    cases o with
    | none => exact .single (.task .close)
    | some j =>
      have hblock : j.endsAt .block = false := by
        cases j with
        | brk | cont | ret => rfl
      exact .single (.passScope hblock)

/-- A block in which one statement is another that does the same wherever it is reached. -/
theorem does_compound_congr {pre post : List Stmt} {x y : Stmt}
    (h : ∀ s₁, Does M pre s.openScope none s₁ → ∀ o s₂, Does M [x] s₁ o s₂ ↔ Does M [y] s₁ o s₂) :
    Does M [.compound (pre ++ x :: post)] s o s' ↔ Does M [.compound (pre ++ y :: post)] s o s' := by
  have hrest : ∀ s₁, Does M pre s.openScope none s₁ → ∀ o s₂,
      Does M (x :: post) s₁ o s₂ ↔ Does M (y :: post) s₁ o s₂ := by
    intro s₁ hs₁ o s₂
    rw [does_cons_iff, does_cons_iff]
    simp only [h s₁ hs₁]
  have hall : ∀ o s₂, Does M (pre ++ x :: post) s.openScope o s₂ ↔
      Does M (pre ++ y :: post) s.openScope o s₂ := by
    intro o s₂
    rw [does_append_iff, does_append_iff]
    refine or_congr (exists_congr fun s₁ => and_congr_right fun hs₁ => ?_) Iff.rfl
    exact hrest s₁ hs₁ o s₂
  rw [does_compound_iff, does_compound_iff]
  simp only [hall]

end

end MeleeHarness.Lib.C
