import MeleeHarness.Permute.Steps

/-!
# Stored traces replay

A worker carries a source and its trace through its copy of the anchor, its
current candidate, the batch and the candidate it may re-anchor to. Each of these
moves as a pair, so every trace that is stored replays to the source it is stored
with.

* `replays_mutated`: a mutation extends a pair to a pair;
* `change_replays`: a step keeps the pairs of the shared state and its worker.
-/

namespace MeleeHarness.Permute

open MeleeHarness.Lib

section
variable {τ : Type} {setup : Setup τ}

variable (setup) in
/-- The trace replays from the base to the source. -/
def Replays (c : Candidate) : Prop :=
  applyReplayTrace setup.sha256 setup.baseSource c.trace = .ok c.source

variable (setup) in
/-- The anchor's pair replays, and the best's if there is one. -/
structure SharedReplays (s : Shared τ) : Prop where
  anchor : Replays setup s.anchor
  best : ∀ source, s.bestSource = some source →
    ∃ trace, s.bestTrace = some trace ∧ Replays setup ⟨source, trace⟩

theorem replays_base : Replays setup setup.base := rfl

theorem replays_mutated {cur : Candidate} {r : MutationResult} (h : Replays setup cur)
    (edits : applyEdits cur.source r.edits = .ok r.source) (mutateFn : Text) :
    Replays setup (mutated setup cur mutateFn r) :=
  applyReplayTrace_append setup.sha256 h edits _ _ _ _

theorem Quiet.anchor {s s' : Shared τ} (q : Quiet s s') : s'.anchor = s.anchor := by
  have h := q.findings
  simp only [Shared.findings, Shared.mk.injEq] at h
  simp [Shared.anchor, h]

theorem SharedReplays.quiet {s s' : Shared τ} (h : SharedReplays setup s) (q : Quiet s s') :
    SharedReplays setup s' := by
  have hf := q.findings
  simp only [Shared.findings, Shared.mk.injEq] at hf
  refine ⟨q.anchor ▸ h.anchor, ?_⟩
  intro source hs
  obtain ⟨trace, ht, hr⟩ := h.best source (by simp_all)
  exact ⟨trace, by simp_all, hr⟩

theorem SharedReplays.record {s : Shared τ} (h : SharedReplays setup s) {cand : Candidate}
    (hc : Replays setup cand) (key : ScoreKey) (asmHash : Text) :
    SharedReplays setup (s.record setup cand key asmHash) := by
  refine ⟨h.anchor, ?_⟩
  intro source hs
  by_cases better : s.improves key = true
  · simp only [Shared.record, better, ↓reduceIte, Option.some.injEq] at hs ⊢
    subst hs
    exact ⟨cand.trace, rfl, hc⟩
  · simp only [Shared.record, better, Bool.false_eq_true, ↓reduceIte] at hs ⊢
    exact h.best source hs

theorem change_replays {s s' : Shared τ} {w w' : Worker τ} {es : List (Event τ)}
    (change : Change setup s w s' w' es) (shared : SharedReplays setup s)
    (own : ∀ c ∈ w.candidates, Replays setup c) :
    SharedReplays setup s' ∧ ∀ c ∈ w'.candidates, Replays setup c := by
  cases change with
  | move quiet candidates picks retyped =>
    refine ⟨shared.quiet quiet, fun c hc => ?_⟩
    rcases List.mem_cons.mp (candidates hc) with rfl | hw
    · exact shared.anchor
    · exact own c hw
  | mutate cur mutateFn r mem edits candidates picks retyped =>
    refine ⟨shared, fun c hc => ?_⟩
    rcases List.mem_cons.mp (candidates hc) with rfl | hw
    · exact replays_mutated (own cur mem) edits mutateFn
    · exact own c hw
  | record a cur cand key asmHash todo pick =>
    have hcand : Replays setup cand := own cand (by simp [Worker.candidates, Phase.candidates])
    refine ⟨shared.record hcand key asmHash, fun c hc => own c ?_⟩
    simp only [Worker.candidates, Phase.candidates, List.mem_cons, List.mem_append] at hc ⊢
    rcases hc with rfl | rfl | hc | hc
    · simp
    · simp
    · simp [hc]
    · rcases choosePick_eq setup pick cand key (s.improves key) (s.isNovel asmHash)
        (s.record setup cand key asmHash).bestScore with h | ⟨h, -⟩
      · simp [h ▸ hc]
      · rw [h] at hc
        simp only [Option.toList_some, List.map_cons, List.map_nil, List.mem_singleton] at hc
        simp [hc]
  | learn a cur p types =>
    exact ⟨shared, own⟩
  | commit a cur p types ok =>
    refine ⟨⟨own p.cand (by simp [Worker.candidates, Phase.candidates]), shared.best⟩, ?_⟩
    intro c hc
    apply own c
    simp only [Worker.candidates, Phase.candidates, List.mem_cons] at hc ⊢
    tauto

theorem searched_replays {jobs : Nat} {c : SearchState τ jobs}
    (run : Searched setup c) :
    Holds (fun s _ => SharedReplays setup s) (fun _ _ w => ∀ c ∈ w.candidates, Replays setup c)
      c := by
  refine reaches_invariant _ _ ?_ ?_ ?_ ?_ run
  · intro s log w x s' w' es shared own hstep
    exact change_replays (workerStep_change setup hstep) shared own
  · intro s log w x s' w' es u shared own hstep hu
    exact hu
  · intro s log shared
    exact ⟨shared.quiet (quiet_halt s), fun u hu => hu⟩
  · refine ⟨⟨replays_base, ?_⟩, ?_⟩
    · intro source hs
      cases hs
    · intro i c hc
      cases hc

/-- **Stored traces replay.** In every state of every interleaving, the anchor's
trace, the best's and every worker's lead from the base to their sources. -/
theorem stored_traces_replay {jobs : Nat} {c : SearchState τ jobs}
    (run : Searched setup c) :
    applyReplayTrace setup.sha256 setup.baseSource c.shared.anchorTrace =
      .ok c.shared.anchorSource ∧
    (∀ source, c.shared.bestSource = some source → ∃ trace, c.shared.bestTrace = some trace ∧
      applyReplayTrace setup.sha256 setup.baseSource trace = .ok source) ∧
    (∀ i a cur phase, c.threads i = .running a cur phase →
      applyReplayTrace setup.sha256 setup.baseSource cur.trace = .ok cur.source ∧
      ∀ cand ∈ phase.candidates,
        applyReplayTrace setup.sha256 setup.baseSource cand.trace = .ok cand.source) := by
  have h := searched_replays run
  refine ⟨h.shared.anchor, h.shared.best, ?_⟩
  intro i a cur phase hi
  have own := h.own i
  rw [hi] at own
  refine ⟨own cur (by simp [Worker.candidates]), fun cand hc => own cand ?_⟩
  simp [Worker.candidates, hc]

end

theorem swapMoves_replays : ∃ c : SearchState Unit 1, Searched swapSetup c ∧
    ∃ trace, c.shared.bestTrace = some trace ∧
      applyReplayTrace swapSha256 swapBase trace = .ok swapTwice := by
  obtain ⟨c, hrun, hbest, -⟩ := swapMoves_run
  have hsource : c.shared.bestSource = some swapTwice := congrArg (·.2.1) hbest
  exact ⟨c, hrun, (stored_traces_replay hrun).2.1 swapTwice hsource⟩

end MeleeHarness.Permute
