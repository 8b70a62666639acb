import MeleeHarness.Lib.C.Semantics

/-!
# Runs of one part after another

What comes later does not matter to a run until the earlier tasks are over: none of
them is left, or only a jump that leaves them.

* `runs_append`, `runs_split`: a run of tasks with others after them;
* `runs_done`: statements whose jumps stay inside end with none.
-/

namespace MeleeHarness.Lib.C

/-- No task is left, or only a jump that nothing here ends. -/
inductive Over : List Task → Prop
  | done : Over []
  | left (j : Jump) : Over [.jump j]

section
variable {M : Machine} {ts us rest : List Task} {s s' : State}

theorem next_append {d : Config} (h : Config.Next M (ts, s) d) :
    Config.Next M (ts ++ rest, s) (d.1 ++ rest, d.2) := by
  cases h with
  | task htask =>
    rw [List.append_assoc]
    exact .task htask
  | pass hclose => exact .pass hclose
  | passScope hends => exact .passScope hends
  | arrive hends => exact .arrive hends

theorem runs_append (h : Runs M (ts, s) (us, s')) :
    Runs M (ts ++ rest, s) (us ++ rest, s') :=
  h.lift (fun c : Config => (c.1 ++ rest, c.2)) fun _ _ hnext => next_append hnext

/-- A step, while the earlier tasks are not over, is a step of theirs. -/
theorem next_split {d : Config} (hover : ¬Over ts) (h : Config.Next M (ts ++ rest, s) d) :
    ∃ ts', d.1 = ts' ++ rest ∧ Config.Next M (ts, s) (ts', d.2) := by
  match ts, hover with
  | [], hover => exact absurd .done hover
  | [.jump j], hover => exact absurd (.left j) hover
  | .jump j :: t :: ts, _ =>
    cases h with
    | task htask => cases htask
    | pass hclose => exact ⟨_, rfl, .pass hclose⟩
    | passScope hends => exact ⟨_, rfl, .passScope hends⟩
    | arrive hends => exact ⟨_, rfl, .arrive hends⟩
  | .stmt st :: ts, _ =>
    cases h with
    | task htask => exact ⟨_, (List.append_assoc ..).symm, .task htask⟩
  | .eval e use :: ts, _ =>
    cases h with
    | task htask => exact ⟨_, (List.append_assoc ..).symm, .task htask⟩
  | .iterate c step body :: ts, _ =>
    cases h with
    | task htask => exact ⟨_, (List.append_assoc ..).symm, .task htask⟩
  | .close c :: ts, _ =>
    cases h with
    | task htask => exact ⟨_, (List.append_assoc ..).symm, .task htask⟩

/-- A run is still in the earlier tasks, or it has gone on after they were over. -/
theorem runs_split {d : Config} (h : Runs M (ts ++ rest, s) d) :
    (∃ ts', d.1 = ts' ++ rest ∧ Runs M (ts, s) (ts', d.2)) ∨
      ∃ ended s₁, Over ended ∧ Runs M (ts, s) (ended, s₁) ∧ Runs M (ended ++ rest, s₁) d := by
  induction h with
  | refl => exact .inl ⟨ts, rfl, .refl⟩
  | @tail c d _ hnext ih =>
    rcases ih with ⟨ts', hc, hruns⟩ | ⟨ended, s₁, hover, hruns, hruns'⟩
    · obtain ⟨cs, s'⟩ := c
      cases hc
      by_cases hover : Over ts'
      · exact .inr ⟨ts', s', hover, hruns, .single hnext⟩
      · obtain ⟨ts'', hd, hnext'⟩ := next_split hover hnext
        exact .inl ⟨ts'', hd, hruns.tail hnext'⟩
    · exact .inr ⟨ended, s₁, hover, hruns, hruns'.tail hnext⟩

/-- A run to the end passes through the end of the earlier tasks. -/
theorem runs_split_over (h : Runs M (ts ++ rest, s) (us, s')) (hlen : us.length < rest.length) :
    ∃ ended s₁, Over ended ∧ Runs M (ts, s) (ended, s₁) ∧ Runs M (ended ++ rest, s₁) (us, s') := by
  rcases runs_split h with ⟨ts', hus, -⟩ | hover
  · have hlength := congrArg List.length hus
    simp only [List.length_append] at hlength
    omega
  · exact hover

theorem runs_close {c : Closing} (h : Runs M ([.close c], s) ([], s')) : s' = s.closeScope := by
  obtain heq | ⟨d, hnext, hruns⟩ := h.cases_head
  · cases heq
  · cases hnext with
    | task htask =>
      cases htask
      obtain heq | ⟨d, hnext, -⟩ := hruns.cases_head
      · cases heq
        rfl
      · cases hnext

end

/-! ## Jumps that stay inside -/

mutual

/-- Every `break` and `continue` has a loop or `switch` to go to, here or around where
the flags say so, and nothing returns. -/
def Stmt.stays (b c : Bool) : Stmt → Bool
  | .expression _ | .declaration _ _ _ _ => true
  | .compound items => itemsStay b c items
  | .switch _ _ items => itemsStay true c items
  | .ifElse _ t f => t.stays b c && f.stays b c
  | .whileDo _ body | .doWhile body _ | .forDo _ _ _ body => body.stays true true
  | .ret _ => false
  | .brk => b
  | .cont => c

def itemsStay (b c : Bool) : List Stmt → Bool
  | [] => true
  | s :: rest => s.stays b c && itemsStay b c rest

end

def Use.stays (b c : Bool) : Use → Bool
  | .branch t f => t.stays b c && f.stays b c
  | .loop _ _ body => b && body.stays true true
  | .select _ items => itemsStay true c items
  | .discard | .init _ => true
  | .ret => false

def Task.stays (b c : Bool) : Task → Bool
  | .stmt s => s.stays b c
  | .eval _ use => use.stays b c
  | .iterate _ _ body => b && body.stays true true
  | .close _ => true
  | .jump .brk => b
  | .jump .cont => c
  | .jump (.ret _) => false

/-- A scope of that kind is still to be closed. -/
def closesLater (c : Closing) (ts : List Task) : Bool :=
  ts.any fun t => match t with
    | .close c' => c' = c
    | _ => false

def tasksStay : List Task → Bool
  | [] => true
  | t :: ts => t.stays (closesLater .breakTo ts) (closesLater .continueTo ts) && tasksStay ts

section
variable {b c : Bool} {ts : List Task}

theorem tasksStay_cons {t : Task} :
    tasksStay (t :: ts) = true ↔
      t.stays (closesLater .breakTo ts) (closesLater .continueTo ts) = true ∧
        tasksStay ts = true := by
  rw [tasksStay, Bool.and_eq_true]

@[simp]
theorem closesLater_close (c c' : Closing) :
    closesLater c (.close c' :: ts) = (decide (c' = c) || closesLater c ts) := rfl

theorem closesLater_stmts (items : List Stmt) (c : Closing) :
    closesLater c (items.map .stmt ++ ts) = closesLater c ts := by
  induction items with
  | nil => rfl
  | cons s items ih => exact ih

theorem itemsStay_tasks {items : List Stmt}
    (h : itemsStay (closesLater .breakTo ts) (closesLater .continueTo ts) items = true)
    (hrest : tasksStay ts = true) : tasksStay (items.map .stmt ++ ts) = true := by
  induction items with
  | nil => exact hrest
  | cons s items ih =>
    rw [itemsStay, Bool.and_eq_true] at h
    rw [List.map_cons, List.cons_append]
    refine tasksStay_cons.mpr ⟨?_, ih h.2⟩
    rw [closesLater_stmts, closesLater_stmts]
    exact h.1

theorem enterAt_stays {items : List Stmt} (h : itemsStay b c items = true) (i : Nat) :
    itemsStay b c (enterAt i items) = true := by
  induction i generalizing items with
  | zero => simpa only [enterAt] using h
  | succ i ih =>
    cases items with
    | nil => rfl
    | cons s rest =>
      rw [itemsStay, Bool.and_eq_true] at h
      have hrest := ih h.2
      cases s with
      | declaration x ty inMemory init =>
        rw [enterAt, itemsStay, Stmt.stays, hrest]
        rfl
      | expression | compound | ifElse | whileDo | doWhile | forDo | switch | ret | brk | cont =>
        exact hrest

theorem evalIf_stays (e : Option Expr) (h : tasksStay ts = true) :
    tasksStay (evalIf e ++ ts) = true := by
  cases e with
  | none => exact h
  | some e => exact tasksStay_cons.mpr ⟨rfl, h⟩

theorem closesLater_evalIf (e : Option Expr) (c : Closing) :
    closesLater c (evalIf e ++ ts) = closesLater c ts := by
  cases e with
  | none => rfl
  | some e => rfl

theorem round_stays {cond step : Option Expr} {body : Stmt} (hbody : body.stays true true = true)
    (hbreak : closesLater .breakTo ts = true) (hrest : tasksStay ts = true) :
    tasksStay (round cond step body ++ ts) = true := by
  have hround : round cond step body ++ ts =
      .stmt body :: .close .continueTo :: (evalIf step ++ .iterate cond step body :: ts) := by
    simp [round]
  rw [hround]
  refine tasksStay_cons.mpr ⟨?_, tasksStay_cons.mpr ⟨rfl, ?_⟩⟩
  · rw [closesLater_close, closesLater_close, closesLater_evalIf]
    have hbreak' : closesLater .breakTo (.iterate cond step body :: ts) = true := hbreak
    rw [hbreak']
    exact hbody
  · refine evalIf_stays step (tasksStay_cons.mpr ⟨?_, hrest⟩)
    rw [Task.stays, hbreak, hbody]
    rfl

theorem task_stays {M : Machine} {t : Task} {new : List Task} {s s' : State}
    (ht : t.stays (closesLater .breakTo ts) (closesLater .continueTo ts) = true)
    (hrest : tasksStay ts = true) (h : Task.Next M t s new s') : tasksStay (new ++ ts) = true := by
  cases h with
  | discard | leave | skip | init | close => exact hrest
  | expression => exact tasksStay_cons.mpr ⟨rfl, hrest⟩
  | ifElse | switch | eval | test | brk | cont => exact tasksStay_cons.mpr ⟨ht, hrest⟩
  | retNone | retSome | ret => cases ht
  | @declareReg x ty init =>
    cases init with
    | none => exact hrest
    | some e => exact tasksStay_cons.mpr ⟨rfl, hrest⟩
  | @declareMem x ty init =>
    cases init with
    | none => exact hrest
    | some e => exact tasksStay_cons.mpr ⟨rfl, hrest⟩
  | compound =>
    rw [List.append_assoc]
    exact itemsStay_tasks ht (tasksStay_cons.mpr ⟨rfl, hrest⟩)
  | @branch v b t f s hb =>
    rw [Task.stays, Use.stays, Bool.and_eq_true] at ht
    refine tasksStay_cons.mpr ⟨?_, tasksStay_cons.mpr ⟨rfl, hrest⟩⟩
    cases b with
    | true => exact ht.1
    | false => exact ht.2
  | select =>
    rw [List.append_assoc]
    exact itemsStay_tasks (enterAt_stays ht _) (tasksStay_cons.mpr ⟨rfl, hrest⟩)
  | whileDo => exact tasksStay_cons.mpr ⟨ht, tasksStay_cons.mpr ⟨rfl, hrest⟩⟩
  | doWhile =>
    rw [List.append_assoc]
    exact round_stays ht rfl (tasksStay_cons.mpr ⟨rfl, hrest⟩)
  | forDo =>
    rw [List.append_assoc]
    exact evalIf_stays _ (tasksStay_cons.mpr ⟨ht, tasksStay_cons.mpr ⟨rfl, hrest⟩⟩)
  | again | forever =>
    obtain ⟨hbreak, hbody⟩ := Bool.and_eq_true_iff.mp ht
    exact round_stays hbody hbreak hrest

/-- A jump that stays inside has a scope to go to, which it reaches. -/
theorem next_stays {M : Machine} {c d : Config} (h : tasksStay c.1 = true)
    (hnext : Config.Next M c d) : tasksStay d.1 = true := by
  cases hnext with
  | task htask =>
    obtain ⟨ht, hrest⟩ := tasksStay_cons.mp h
    exact task_stays ht hrest htask
  | @pass j t ts s hclose =>
    obtain ⟨hj, hrest⟩ := tasksStay_cons.mp h
    obtain ⟨-, hrest⟩ := tasksStay_cons.mp hrest
    refine tasksStay_cons.mpr ⟨?_, hrest⟩
    cases t with
    | close c => exact absurd rfl (hclose c)
    | stmt | eval | iterate | jump => exact hj
  | @passScope j c ts s hends =>
    obtain ⟨hj, hrest⟩ := tasksStay_cons.mp h
    obtain ⟨-, hrest⟩ := tasksStay_cons.mp hrest
    refine tasksStay_cons.mpr ⟨?_, hrest⟩
    cases j with
    | ret => cases hj
    | brk =>
      cases c with
      | breakTo => cases hends
      | block | continueTo => exact hj
    | cont =>
      cases c with
      | continueTo => cases hends
      | block | breakTo => exact hj
  | arrive hends =>
    obtain ⟨-, hrest⟩ := tasksStay_cons.mp h
    exact (tasksStay_cons.mp hrest).2

/-- A run that is over, of tasks whose jumps stay inside, has left nothing. -/
theorem runs_done {M : Machine} {us : List Task} {s s' : State} (h : tasksStay ts = true)
    (hruns : Runs M (ts, s) (us, s')) (hover : Over us) : us = [] := by
  have hall : ∀ d, Runs M (ts, s) d → tasksStay d.1 = true := by
    intro d hd
    induction hd with
    | refl => exact h
    | tail _ hnext ih => exact next_stays ih hnext
  have hus := hall _ hruns
  cases hover with
  | done => rfl
  | left j =>
    cases j with
    | brk | cont | ret => cases hus

end

end MeleeHarness.Lib.C
