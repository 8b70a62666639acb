import MeleeHarness.Permute.BestKept

/-!
# Past the iteration limit

`stop` is read outside the lock before a candidate is scored, and set under it
when a scored candidate is entered. Between the two a worker has one candidate
pending, so each worker but the one that reaches the limit enters at most one more.

* `workerStep_pending`: a candidate becomes pending only while `stop` is not set;
* `change_limit`: while `stop` is not set the limit has not been reached;
* `overshoot_bounded`: what follows for every interleaving.
-/

namespace MeleeHarness.Permute

open MeleeHarness.Lib

section
variable {τ : Type} {setup : Setup τ} {s s' : Shared τ} {w w' : Worker τ} {es : List (Event τ)}

/-- The worker has seen `stop` unset and has its candidate still to score. -/
def Worker.toScore : Worker τ → Nat
  | .running _ _ (.score ..) => 1
  | _ => 0

/-- The worker has a candidate to score, or one to enter. -/
def Worker.pending : Worker τ → Nat
  | .running _ _ (.score ..) | .running _ _ (.record ..) => 1
  | _ => 0

/-- The calls of `scorer.score` in a step. -/
def Input.scoreCalls : Input τ → List (Event τ) → Nat
  | .reply .vanished, _ => 0
  | .reply _, _ => 1
  | _, _ => 0

/-- The scored candidates that a step enters. -/
def entered (es : List (Event τ)) : Nat := (es.filterMap Event.scoredKey?).length

theorem pending_le_one (w : Worker τ) : w.pending ≤ 1 := by
  unfold Worker.pending
  split
  all_goals omega

theorem toScore_le_one (w : Worker τ) : w.toScore ≤ 1 := by
  unfold Worker.toScore
  split
  all_goals omega

theorem mutateStep_pending (a : Cache τ) (cur : Candidate) (cands : List Candidate) (attempts : Nat)
    (mutateFn : Text) (pool : List (Text × List Edit)) :
    (mutateStep setup a cur cands attempts mutateFn pool).pending = 0 ∧
      (mutateStep setup a cur cands attempts mutateFn pool).toScore = 0 := by
  unfold mutateStep
  split
  · exact ⟨rfl, rfl⟩
  · exact ⟨rfl, rfl⟩

/-- A step that leaves nothing pending and neither scores nor enters anything. -/
def Idle (x : Input τ) (w' : Worker τ) (es : List (Event τ)) : Prop :=
  x.scoreCalls es = 0 ∧ entered es = 0 ∧ w'.toScore = 0 ∧ w'.pending = 0

/-- A step scores and enters what was pending, unless it finds `stop` unset and
takes the next candidate. -/
theorem workerStep_pending {x : Input τ} (h : workerStep setup s w x = some (s', w', es)) :
    (x.scoreCalls es + w'.toScore ≤ w.toScore ∧ entered es + w'.pending ≤ w.pending) ∨
      s.stop = false ∧ es = [] := by
  have idle (hidle : Idle x w' es) :
      (x.scoreCalls es + w'.toScore ≤ w.toScore ∧ entered es + w'.pending ≤ w.pending) ∨
        s.stop = false ∧ es = [] := by
    obtain ⟨hcalls, hentered, hscore, hpending⟩ := hidle
    exact .inl ⟨by omega, by omega⟩
  -- one case for each transition of `workerStep`, in its order
  unfold workerStep at h
  split at h
  · cases h
    exact idle ⟨rfl, rfl, rfl, rfl⟩
  · cases h
    apply idle
    split
    · exact ⟨rfl, rfl, rfl, rfl⟩
    · exact ⟨rfl, rfl, rfl, rfl⟩
  · cases h
    apply idle
    split
    · exact ⟨rfl, rfl, rfl, rfl⟩
    · exact ⟨rfl, rfl, rfl, rfl⟩
  · cases h
    apply idle
    split
    · exact ⟨rfl, rfl, rfl, rfl⟩
    · exact ⟨rfl, rfl, rfl, rfl⟩
  · split at h
    · cases h
      obtain ⟨hpending, hscore⟩ := mutateStep_pending ..
      exact idle ⟨rfl, rfl, hscore, hpending⟩
    · cases h
  · split at h
    · cases h
    · cases h
      apply idle
      split
      · exact ⟨rfl, rfl, rfl, rfl⟩
      · exact ⟨rfl, rfl, rfl, rfl⟩
  · cases h
    exact idle ⟨rfl, rfl, rfl, rfl⟩
  · cases h
    exact idle ⟨rfl, rfl, rfl, rfl⟩
  · cases h
    exact idle ⟨rfl, rfl, rfl, rfl⟩
  · cases h
    cases hs : s.stop with
    | false => exact .inr ⟨rfl, rfl⟩
    | true => exact .inl ⟨le_refl 0, le_refl 0⟩
  · cases h
    exact idle ⟨rfl, rfl, rfl, rfl⟩
  · split at h
    · cases h
      exact idle ⟨rfl, rfl, rfl, rfl⟩
    · cases h
      exact .inl ⟨le_refl 1, Nat.zero_le 1⟩
    · cases h
      exact .inl ⟨le_refl 1, Nat.zero_le 1⟩
    · cases h
      exact .inl ⟨le_refl 1, le_refl 1⟩
  · cases h
    refine .inl ⟨le_refl 0, ?_⟩
    rw [entered, recordEvents_keys]
    exact le_refl 1
  · cases h
    exact idle ⟨rfl, rfl, rfl, rfl⟩
  · cases h
    apply idle
    split
    · exact ⟨rfl, rfl, rfl, rfl⟩
    · split
      · exact ⟨rfl, rfl, rfl, rfl⟩
      · exact ⟨rfl, rfl, rfl, rfl⟩
  · cases h
    apply idle
    split
    · exact ⟨rfl, rfl, rfl, rfl⟩
    · exact ⟨rfl, rfl, rfl, rfl⟩
  · cases h
    exact idle ⟨rfl, rfl, rfl, rfl⟩
  · cases h
    exact idle ⟨rfl, rfl, rfl, rfl⟩
  · split at h
    · cases h
      exact idle ⟨rfl, rfl, rfl, rfl⟩
    · cases h
      exact idle ⟨rfl, rfl, rfl, rfl⟩
  · cases h

theorem change_stop (change : Change setup s w s' w' es) (stopped : s.stop = true) :
    s'.stop = true := by
  rcases change.best with ⟨same, -⟩ | ⟨cand, key, asmHash, rfl, -⟩
  · exact same.stop stopped
  · simp [Shared.record, stopped]

/-- The counter counts what is entered, and an entry that does not set `stop` leaves
it below the limit. -/
theorem change_limit {n : Int} (hn : setup.maxIters = some n) (change : Change setup s w s' w' es) :
    s'.iters = s.iters + entered es ∧
      (s'.stop = false → entered es = 0 ∨ (s'.iters : Int) < n) := by
  rcases change.best with ⟨same, silent⟩ | ⟨cand, key, asmHash, rfl, rfl⟩
  · have hsilent : entered es = 0 := by rw [entered, silent, List.length_nil]
    rw [same.iters, hsilent]
    exact ⟨rfl, fun _ => .inl rfl⟩
  · have hentered : entered (s.recordEvents cand key asmHash) = 1 := by
      rw [entered, recordEvents_keys, List.length_singleton]
    rw [hentered]
    refine ⟨rfl, ?_⟩
    intro going
    simp only [Shared.record, hn, Option.any_some, Bool.or_eq_false_iff,
      decide_eq_false_iff_not] at going
    refine .inr ?_
    simp only [Shared.record]
    push_cast
    omega

/-- Once `stop` is set, a step only scores and enters what was pending. -/
theorem stopped_step {x : Input τ} (stopped : s.stop = true)
    (h : workerStep setup s w x = some (s', w', es)) :
    s'.stop = true ∧ x.scoreCalls es + w'.toScore ≤ w.toScore ∧
      entered es + w'.pending ≤ w.pending := by
  refine ⟨change_stop (workerStep_change setup h) stopped, ?_⟩
  rcases workerStep_pending h with hpending | ⟨going, -⟩
  · exact hpending
  · simp [stopped] at going

/-- What is entered and what is pending stay below the limit and one more for each
other worker. -/
structure Bounded (n : Int) {jobs : Nat} (c : SearchState τ jobs) : Prop where
  going : c.shared.stop = false → (c.shared.iters : Int) < max n 1
  pending : (c.shared.iters : Int) + c.total Worker.pending ≤ max n 1 + jobs - 1

theorem total_pending_le {jobs : Nat} (c : SearchState τ jobs) :
    c.total Worker.pending ≤ jobs := by
  simpa using System.total_le pending_le_one c

theorem Bounded.step {n : Int} (hn : setup.maxIters = some n) {jobs : Nat} {c : SearchState τ jobs}
    (h : Bounded n c) {i : Fin jobs} {x : Input τ}
    (hstep : workerStep setup c.shared (c.threads i) x = some (s', w', es)) :
    Bounded n (⟨s', Function.update c.threads i w', c.events ++ es⟩ : SearchState τ jobs) := by
  obtain ⟨hcount, hlimit⟩ := change_limit hn (workerStep_change setup hstep)
  have htotal := System.total_move Worker.pending c i s' w' (c.events ++ es)
  have hbound := total_pending_le (⟨s', Function.update c.threads i w', c.events ++ es⟩ :
    SearchState τ jobs)
  have hpending := h.pending
  refine ⟨?_, ?_⟩
  · intro going
    have before : c.shared.stop = false := by
      cases hs : c.shared.stop with
      | false => rfl
      | true => simp [change_stop (workerStep_change setup hstep) hs] at going
    have hlt := h.going before
    rcases hlimit going with hnone | hlt'
    · simp only [hcount, hnone, Nat.add_zero]
      exact hlt
    · exact lt_of_lt_of_le hlt' (le_max_left n 1)
  · simp only [hcount]
    push_cast
    rcases workerStep_pending hstep with ⟨-, hle⟩ | ⟨going, rfl⟩
    · omega
    · -- one candidate more is pending, with the counter still below the limit
      have hlt := h.going going
      have hnone : entered ([] : List (Event τ)) = 0 := rfl
      omega

theorem searched_bounded {n : Int} (hn : setup.maxIters = some n) {jobs : Nat} (pos : 0 < jobs)
    {c : SearchState τ jobs} (run : Searched setup c) : Bounded n c := by
  unfold Searched at run
  induction run with
  | refl =>
    have hzero : (searchStart setup jobs).total Worker.pending = 0 := by
      simp [System.total, searchStart, Worker.pending]
    have hmax : (1 : Int) ≤ max n 1 := le_max_right n 1
    refine ⟨fun _ => ?_, ?_⟩
    · simp only [searchStart, Shared.initial]
      omega
    · rw [hzero]
      simp only [searchStart, Shared.initial]
      omega
  | thread i x _ move ih =>
    obtain ⟨s, w, es, hstep, rfl⟩ := System.move_eq_some move
    exact ih.step hn hstep
  | outside _ ih =>
    refine ⟨fun going => ?_, ih.pending⟩
    cases going

/-- **Overshoot.** With a limit of `n` and `jobs` workers the counter never passes
`max n 1 + jobs - 1`, and from a state in which `stop` is set no worker scores or
enters more than one candidate, in any interleaving. -/
theorem overshoot_bounded (setup : Setup τ) (n : Int) (hn : setup.maxIters = some n) (jobs : Nat)
    (pos : 0 < jobs) (c : SearchState τ jobs) (run : Searched setup c) :
    (c.shared.iters : Int) ≤ max n 1 + jobs - 1 ∧
    (c.shared.stop = true → ∀ moves d, Runs (workerStep setup) Shared.halt c moves d →
      ∀ i, spent Input.scoreCalls i moves ≤ 1 ∧ spent (fun _ es => entered es) i moves ≤ 1) := by
  refine ⟨?_, ?_⟩
  · have h := (searched_bounded hn pos run).pending
    omega
  · intro stopped moves d further i
    have calls := (run_spends (fun s : Shared τ => s.stop = true) Input.scoreCalls Worker.toScore
      (fun s w x s' w' es hs h => ⟨(stopped_step hs h).1, (stopped_step hs h).2.1⟩)
      (fun _ _ => rfl) stopped further).2 i
    have entries := (run_spends (fun s : Shared τ => s.stop = true) (fun _ es => entered es)
      Worker.pending (fun s w x s' w' es hs h => ⟨(stopped_step hs h).1, (stopped_step hs h).2.2⟩)
      (fun _ _ => rfl) stopped further).2 i
    have hscore := toScore_le_one (c.threads i)
    have hpending := pending_le_one (c.threads i)
    exact ⟨by omega, by omega⟩

end

/-! ## Two workers and a limit of one -/

def racingSetup : Setup Unit := { swapSetup with batch := 1, maxIters := some 1 }

/-- A worker builds a batch of one candidate, compiles it and finds `stop` unset. -/
def racingMoves (i : Fin 2) (swap : Input Unit) : List (Fin 2 × Input Unit) :=
  [.next, .next, .next, swap, .next, .next, .compiled [true], .next].map (i, ·)

/-- Both workers have a candidate to score when the first of them is entered. -/
theorem racing_overshoot : ∃ c : SearchState Unit 2, Searched racingSetup c ∧
    c.shared.stop = true ∧ c.shared.iters = 2 ∧ (c.shared.iters : Int) ≤ max 1 1 + 2 - 1 := by
  have h : (runSchedule (workerStep racingSetup) (searchStart racingSetup 2)
      (racingMoves 0 (commutative 45 49 "a" "b") ++ racingMoves 1 (commutative 55 59 "c" "d") ++
        [(0, .reply (.scored ⟨2, 0, 0, 10, true⟩ "5d41402abc4b2a76".toList)), (0, .next),
          (1, .reply (.scored ⟨2, 0, 0, 10, true⟩ "5d41402abc4b2a76".toList)), (1, .next)])).map
      (fun c => (c.shared.stop, c.shared.iters)) = some (true, 2) := by
    unfold racingSetup swapSetup swapSha256 swapBase swapOnce swapTwice ascii
    simp only [toList_literal rfl]
    decide +kernel
  obtain ⟨c, hrun, hc⟩ := Option.map_eq_some_iff.mp h
  obtain ⟨hstop, hiters⟩ := Prod.mk.inj hc
  have run : Searched racingSetup c := runSchedule_reaches hrun
  exact ⟨c, run, hstop, hiters, (overshoot_bounded racingSetup 1 rfl 2 (by decide) c run).1⟩

end MeleeHarness.Permute
