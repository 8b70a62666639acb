import Mathlib.Algebra.BigOperators.Fin
import Mathlib.Algebra.Order.BigOperators.Group.Finset
import Mathlib.Tactic.Common

/-!
# Interleaved threads

Any number of threads over one shared state. A step of a thread is atomic: it
reads and writes the shared state and the thread's own state, and reports what
has happened. Between two steps the environment may act on the shared state.

* `reaches_invariant`: what every thread's own step keeps, and what the steps of
  the others do not disturb, holds in every state a run reaches;
* `runSchedule_reaches`: a schedule that runs is a run;
* `total_move`: what a step adds to a quantity summed over the threads;
* `run_spends`: what a thread still may do bounds what it does.
-/

namespace MeleeHarness.Lib

variable {σ ω ι ε : Type} {n : Nat}

/-- The shared state, the threads' own states and what has happened so far. -/
structure System (σ ω ε : Type) (n : Nat) where
  shared : σ
  threads : Fin n → ω
  events : List ε

/-- One atomic step of one thread, on the input it is given. -/
abbrev ThreadStep (σ ω ι ε : Type) := σ → ω → ι → Option (σ × ω × List ε)

def System.move (step : ThreadStep σ ω ι ε) (c : System σ ω ε n) (i : Fin n) (x : ι) :
    Option (System σ ω ε n) :=
  (step c.shared (c.threads i) x).map fun (s, t, es) =>
    ⟨s, Function.update c.threads i t, c.events ++ es⟩

theorem System.move_eq_some {step : ThreadStep σ ω ι ε} {c d : System σ ω ε n} {i : Fin n} {x : ι}
    (h : c.move step i x = some d) :
    ∃ s t es, step c.shared (c.threads i) x = some (s, t, es) ∧
      d = ⟨s, Function.update c.threads i t, c.events ++ es⟩ := by
  obtain ⟨⟨s, t, es⟩, hstep, rfl⟩ := Option.map_eq_some_iff.mp h
  exact ⟨s, t, es, hstep, rfl⟩

/-- The states a run from `c` reaches, in any interleaving. -/
inductive Reaches (step : ThreadStep σ ω ι ε) (env : σ → σ) (c : System σ ω ε n) :
    System σ ω ε n → Prop
  | refl : Reaches step env c c
  | thread {d e : System σ ω ε n} (i : Fin n) (x : ι) :
      Reaches step env c d → d.move step i x = some e → Reaches step env c e
  | outside {d : System σ ω ε n} :
      Reaches step env c d → Reaches step env c { d with shared := env d.shared }

/-- What holds of the shared state, and of each thread against it. -/
structure Holds (Shared : σ → List ε → Prop) (Own : σ → List ε → ω → Prop)
    (c : System σ ω ε n) : Prop where
  shared : Shared c.shared c.events
  own : ∀ i, Own c.shared c.events (c.threads i)

/-- The invariant rule: a step keeps what its own thread relies on, and disturbs
what no other thread relies on. -/
theorem reaches_invariant {step : ThreadStep σ ω ι ε} {env : σ → σ}
    (Shared : σ → List ε → Prop) (Own : σ → List ε → ω → Prop)
    (keeps : ∀ s log t x s' t' es, Shared s log → Own s log t → step s t x = some (s', t', es) →
      Shared s' (log ++ es) ∧ Own s' (log ++ es) t')
    (others : ∀ s log t x s' t' es u, Shared s log → Own s log t → step s t x = some (s', t', es) →
      Own s log u → Own s' (log ++ es) u)
    (outside : ∀ s log, Shared s log → Shared (env s) log ∧ ∀ u, Own s log u → Own (env s) log u)
    {c d : System σ ω ε n} (start : Holds Shared Own c) (run : Reaches step env c d) :
    Holds Shared Own d := by
  induction run with
  | refl => exact start
  | @thread d e i x _ move ih =>
    obtain ⟨s, t, es, hstep, rfl⟩ := System.move_eq_some move
    obtain ⟨hs, ht⟩ := keeps _ _ _ _ _ _ _ ih.shared (ih.own i) hstep
    refine ⟨hs, fun j => ?_⟩
    by_cases hj : j = i
    · subst hj
      simpa using ht
    · simpa [Function.update_of_ne hj] using
        others _ _ _ _ _ _ _ _ ih.shared (ih.own i) hstep (ih.own j)
  | outside _ ih =>
    obtain ⟨hs, ho⟩ := outside _ _ ih.shared
    exact ⟨hs, fun j => ho _ (ih.own j)⟩

theorem Reaches.trans {step : ThreadStep σ ω ι ε} {env : σ → σ} {c d e : System σ ω ε n}
    (h : Reaches step env c d) (h' : Reaches step env d e) : Reaches step env c e := by
  induction h' with
  | refl => exact h
  | thread i x _ move ih => exact .thread i x ih move
  | outside _ ih => exact .outside ih

/-- A run of fewer steps is a run. -/
theorem Reaches.mono {step step' : ThreadStep σ ω ι ε} {env : σ → σ} {c d : System σ ω ε n}
    (le : ∀ s t x r, step s t x = some r → step' s t x = some r) (h : Reaches step env c d) :
    Reaches step' env c d := by
  induction h with
  | refl => exact .refl
  | thread i x _ move ih =>
    obtain ⟨s, t, es, hstep, rfl⟩ := System.move_eq_some move
    refine .thread i x ih ?_
    rw [System.move, le _ _ _ _ hstep]
    rfl
  | outside _ ih => exact .outside ih

/-- The threads of a schedule take their steps in turn. -/
def runSchedule (step : ThreadStep σ ω ι ε) (c : System σ ω ε n) :
    List (Fin n × ι) → Option (System σ ω ε n)
  | [] => some c
  | (i, x) :: rest => (c.move step i x).bind fun d => runSchedule step d rest

theorem runSchedule_reaches {step : ThreadStep σ ω ι ε} {env : σ → σ} {c d : System σ ω ε n}
    {moves : List (Fin n × ι)} (h : runSchedule step c moves = some d) :
    Reaches step env c d := by
  induction moves generalizing c with
  | nil =>
    cases h
    exact .refl
  | cons m rest ih =>
    obtain ⟨b, hb, h⟩ := Option.bind_eq_some_iff.mp h
    exact Reaches.trans (.thread m.1 m.2 .refl hb) (ih h)

/-! ## Quantities -/

/-- A quantity summed over the threads. -/
def System.total (weigh : ω → Nat) (c : System σ ω ε n) : Nat := ∑ i, weigh (c.threads i)

theorem System.total_le {weigh : ω → Nat} {bound : Nat} (h : ∀ t, weigh t ≤ bound)
    (c : System σ ω ε n) : c.total weigh ≤ n * bound := by
  have hsum := Finset.sum_le_card_nsmul Finset.univ (fun i => weigh (c.threads i)) bound
    fun i _ => h (c.threads i)
  simpa [System.total] using hsum

/-- Only the thread that has stepped weighs something else. -/
theorem System.total_move (weigh : ω → Nat) (c : System σ ω ε n) (i : Fin n) (s : σ) (t : ω)
    (es : List ε) :
    System.total weigh ⟨s, Function.update c.threads i t, es⟩ + weigh (c.threads i) =
      c.total weigh + weigh t := by
  have hafter := Finset.add_sum_erase Finset.univ
    (fun j => weigh (Function.update c.threads i t j)) (Finset.mem_univ i)
  have hbefore := Finset.add_sum_erase Finset.univ (fun j => weigh (c.threads j))
    (Finset.mem_univ i)
  have hothers : ∑ j ∈ Finset.univ.erase i, weigh (Function.update c.threads i t j) =
      ∑ j ∈ Finset.univ.erase i, weigh (c.threads j) := by
    refine Finset.sum_congr rfl fun j hj => ?_
    rw [Function.update_of_ne (Finset.ne_of_mem_erase hj)]
  simp only [Function.update_self] at hafter
  simp only [System.total]
  omega

/-- What one thread did in a step: who, on what input, and what it reported. -/
structure Move (ι ε : Type) (n : Nat) where
  thread : Fin n
  input : ι
  events : List ε

/-- The runs from `c`, with the threads' moves in order. -/
inductive Runs (step : ThreadStep σ ω ι ε) (env : σ → σ) (c : System σ ω ε n) :
    List (Move ι ε n) → System σ ω ε n → Prop
  | refl : Runs step env c [] c
  | thread {moves : List (Move ι ε n)} {d : System σ ω ε n} (i : Fin n) (x : ι) {s : σ} {t : ω}
      {es : List ε} :
      Runs step env c moves d → step d.shared (d.threads i) x = some (s, t, es) →
      Runs step env c (moves ++ [⟨i, x, es⟩]) ⟨s, Function.update d.threads i t, d.events ++ es⟩
  | outside {moves : List (Move ι ε n)} {d : System σ ω ε n} :
      Runs step env c moves d → Runs step env c moves { d with shared := env d.shared }

/-- How much thread `i` did in these moves. -/
def spent (cost : ι → List ε → Nat) (i : Fin n) (moves : List (Move ι ε n)) : Nat :=
  ((moves.filter fun m => m.thread = i).map fun m => cost m.input m.events).sum

/-- If every step from a shared state of some kind leads to one of that kind and is
paid from what its thread has left, no thread does more than it had left. -/
theorem run_spends {step : ThreadStep σ ω ι ε} {env : σ → σ} (Kind : σ → Prop)
    (cost : ι → List ε → Nat) (left : ω → Nat)
    (pays : ∀ s t x s' t' es, Kind s → step s t x = some (s', t', es) →
      Kind s' ∧ cost x es + left t' ≤ left t)
    (outside : ∀ s, Kind s → Kind (env s)) {c d : System σ ω ε n} {moves : List (Move ι ε n)}
    (start : Kind c.shared) (run : Runs step env c moves d) :
    Kind d.shared ∧ ∀ i, spent cost i moves + left (d.threads i) ≤ left (c.threads i) := by
  induction run with
  | refl => exact ⟨start, fun i => by simp [spent]⟩
  | @thread moves d i x s t es _ hstep ih =>
    obtain ⟨hkind, hleft⟩ := ih
    obtain ⟨hkind', hpays⟩ := pays _ _ _ _ _ _ hkind hstep
    refine ⟨hkind', fun j => ?_⟩
    have hj := hleft j
    by_cases same : i = j
    · subst same
      simp only [spent, List.filter_append, List.map_append, List.sum_append, List.filter_cons,
        decide_true, if_true, List.filter_nil, List.map_cons, List.map_nil, List.sum_cons,
        List.sum_nil, Function.update_self] at hj ⊢
      omega
    · simpa [spent, List.filter_append, same, Function.update_of_ne (Ne.symm same)] using hj
  | outside _ ih => exact ⟨outside _ ih.1, ih.2⟩

end MeleeHarness.Lib
