import MeleeHarness.Permute.BestKept

/-!
# The anchor

A worker checks a candidate, types it without the lock and checks it again before
it becomes the anchor, while others move the best, the anchor and the count of
scored candidates.

* `change_anchored`: a step keeps the anchor whole, not before the best, and its
  distance in scored candidates;
* `Promised.grow`: what a worker relies on about its own candidate survives the
  steps of the others;
* `change_anchorKey_le`: improvements alone never move the anchor back.
-/

namespace MeleeHarness.Permute

open MeleeHarness.Lib

section
variable {τ : Type} {setup : Setup τ} {s s' : Shared τ} {w w' : Worker τ}
  {log es : List (Event τ)}

variable (setup) in
/-- The anchor's fields are the base's, or all those of one candidate that was
scored and typed. -/
inductive AnchorOf (s : Shared τ) (log : List (Event τ)) : Prop
  | base (source : s.anchorSource = setup.baseSource) (types : s.anchorTypes = setup.types)
      (split : s.anchorSplit = setup.split) (score : s.anchorScore = setup.baseScore)
      (key : s.anchorKey = setup.baseKey) (trace : s.anchorTrace = [])
  | candidate (cand : Candidate) (key : ScoreKey) (asmHash : Text)
      (scored : .scored cand key asmHash ∈ log) (source : s.anchorSource = cand.source)
      (types : .typed cand.source s.anchorTypes ∈ log)
      (split : s.anchorSplit = setup.prefixSplit cand.source) (score : s.anchorScore = key.raw)
      (key_eq : s.anchorKey = key) (trace : s.anchorTrace = cand.trace)

/-- The number of candidates scored since the last re-anchor, if there was one. -/
def sinceReanchor (log : List (Event τ)) : Option Nat :=
  log.foldl (fun count e =>
    match e with
    | .reanchored .. => some 0
    | .scored .. => count.map (· + 1)
    | .found .. | .typed .. => count) none

theorem sinceReanchor_append (es : List (Event τ)) :
    sinceReanchor (log ++ es) = es.foldl (fun count e =>
      match e with
      | .reanchored .. => some 0
      | .scored .. => count.map (· + 1)
      | .found .. | .typed .. => count) (sinceReanchor log) := by
  simp [sinceReanchor]

theorem sinceReanchor_record (s : Shared τ) (cand : Candidate) (key : ScoreKey) (asmHash : Text) :
    sinceReanchor (log ++ s.recordEvents cand key asmHash) = (sinceReanchor log).map (· + 1) := by
  rw [sinceReanchor_append, Shared.recordEvents]
  split
  · rfl
  · rfl

variable (setup) in
structure Anchored (s : Shared τ) (log : List (Event τ)) : Prop where
  best_le : s.bestKey ≤ s.anchorKey
  whole : AnchorOf setup s log
  clock : ∀ n, sinceReanchor log = some n → s.iters - s.lastReanchorIter = n

variable (setup) in
/-- What a worker relies on about the candidate it may re-anchor to. -/
structure Promised (s : Shared τ) (log : List (Event τ)) (w : Worker τ) : Prop where
  best_le : ∀ p ∈ w.picks, s.bestKey ≤ p.key
  scored : ∀ p ∈ w.picks, ∃ asmHash, .scored p.cand p.key asmHash ∈ log
  improved : setup.reanchorMode = .improve → ∀ p ∈ w.picks, p.improved = true
  typed : ∀ p types, w.retyped = some (p, types) → .typed p.cand.source types ∈ log

theorem Promised.grow (h : Promised setup s log w) (better : s'.bestKey ≤ s.bestKey) :
    Promised setup s' (log ++ es) w := by
  refine ⟨fun p hp => better.trans (h.best_le p hp), fun p hp => ?_, h.improved, fun p types hr => ?_⟩
  · obtain ⟨asmHash, hmem⟩ := h.scored p hp
    exact ⟨asmHash, List.mem_append_left _ hmem⟩
  · exact List.mem_append_left _ (h.typed p types hr)

theorem Promised.fewer (h : Promised setup s log w) (picks : w'.picks ⊆ w.picks)
    (retyped : w'.retyped = none) : Promised setup s log w' := by
  refine ⟨fun p hp => h.best_le p (picks hp), fun p hp => h.scored p (picks hp),
    fun hm p hp => h.improved hm p (picks hp), fun p types hr => ?_⟩
  rw [retyped] at hr
  cases hr

theorem AnchorOf.grow (h : AnchorOf setup s log) (source : s'.anchorSource = s.anchorSource)
    (types : s'.anchorTypes = s.anchorTypes) (split : s'.anchorSplit = s.anchorSplit)
    (score : s'.anchorScore = s.anchorScore) (key : s'.anchorKey = s.anchorKey)
    (trace : s'.anchorTrace = s.anchorTrace) : AnchorOf setup s' (log ++ es) := by
  cases h with
  | base hsource htypes hsplit hscore hkey htrace =>
    exact .base (source.trans hsource) (types.trans htypes) (split.trans hsplit)
      (score.trans hscore) (key.trans hkey) (trace.trans htrace)
  | candidate cand k asmHash scored hsource htypes hsplit hscore hkey htrace =>
    exact .candidate cand k asmHash (List.mem_append_left _ scored) (source.trans hsource)
      (types ▸ List.mem_append_left _ htypes) (split.trans hsplit) (score.trans hscore)
      (key.trans hkey) (trace.trans htrace)

theorem Anchored.quiet (h : Anchored setup s log) (q : Quiet s s')
    (same : sinceReanchor (log ++ es) = sinceReanchor log) : Anchored setup s' (log ++ es) := by
  have hf := q.findings
  simp only [Shared.findings, Shared.mk.injEq] at hf
  refine ⟨?_, h.whole.grow ?_ ?_ ?_ ?_ ?_ ?_, ?_⟩
  · have hbest : s'.bestKey = s.bestKey := by tauto
    have hanchor : s'.anchorKey = s.anchorKey := by tauto
    rw [hbest, hanchor]
    exact h.best_le
  all_goals first | tauto | skip
  intro n hn
  have hiters : s'.iters = s.iters := by tauto
  have hlast : s'.lastReanchorIter = s.lastReanchorIter := by tauto
  rw [hiters, hlast]
  exact h.clock n (same ▸ hn)

theorem Anchored.record (h : Anchored setup s log) (cand : Candidate) (key : ScoreKey)
    (asmHash : Text) :
    Anchored setup (s.record setup cand key asmHash) (log ++ s.recordEvents cand key asmHash) := by
  refine ⟨(record_bestKey_le setup s cand key asmHash).1.trans h.best_le,
    h.whole.grow rfl rfl rfl rfl rfl rfl, ?_⟩
  intro n hn
  rw [sinceReanchor_record] at hn
  obtain ⟨m, hm, rfl⟩ := Option.map_eq_some_iff.mp hn
  have hclock := h.clock m hm
  change ((s.iters + 1 : Nat) : Int) - s.lastReanchorIter = (m + 1 : Nat)
  omega

theorem Anchored.reanchor {p : Pick} {types : τ} {asmHash : Text}
    (best_le : s.bestKey ≤ p.key) (scored : .scored p.cand p.key asmHash ∈ log)
    (typed : .typed p.cand.source types ∈ log) :
    Anchored setup (s.reanchor setup p types)
      (log ++ [.reanchored p.cand p.key p.improved]) := by
  refine ⟨best_le, ?_, ?_⟩
  · exact .candidate p.cand p.key asmHash (List.mem_append_left _ scored) rfl
      (List.mem_append_left _ typed) rfl rfl rfl rfl
  · intro n hn
    rw [sinceReanchor_append] at hn
    cases hn
    change (s.iters : Int) - s.iters = (0 : Nat)
    omega

theorem promised_record {a : Cache τ} {cur cand : Candidate} {key : ScoreKey} {asmHash : Text}
    {todo : List (Candidate × Bool)} {pick : Option Pick}
    (h : Promised setup s log (.running a cur (.record cand key asmHash todo pick))) :
    Promised setup (s.record setup cand key asmHash) (log ++ s.recordEvents cand key asmHash)
      (.running a cur (.scoreNext todo (choosePick setup pick cand key (s.improves key)
        (s.isNovel asmHash) (s.record setup cand key asmHash).bestScore))) := by
  obtain ⟨hold, hnew⟩ := record_bestKey_le setup s cand key asmHash
  rcases choosePick_eq setup pick cand key (s.improves key) (s.isNovel asmHash)
    (s.record setup cand key asmHash).bestScore with heq | ⟨heq, himproved⟩
  · rw [heq]
    exact (h.grow hold).fewer (fun p hp => hp) rfl
  · rw [heq]
    refine ⟨fun p hp => ?_, fun p hp => ?_, fun hm p hp => ?_, fun p types hr => by cases hr⟩
    · cases List.mem_singleton.mp hp
      exact hnew
    · cases List.mem_singleton.mp hp
      exact ⟨asmHash, List.mem_append_right _ (mem_recordEvents s cand key asmHash)⟩
    · cases List.mem_singleton.mp hp
      exact himproved hm

theorem change_anchored (change : Change setup s w s' w' es) (h : Anchored setup s log)
    (own : Promised setup s log w) :
    Anchored setup s' (log ++ es) ∧ Promised setup s' (log ++ es) w' := by
  have better := best_le_of_change change
  cases change with
  | move quiet candidates picks retyped =>
    exact ⟨h.quiet quiet (by simp), (own.grow better).fewer picks retyped⟩
  | mutate cur mutateFn r mem edits candidates picks retyped =>
    exact ⟨h.quiet (.refl s) (by simp), (own.grow better).fewer (by simp [picks]) retyped⟩
  | record a cur cand key asmHash todo pick =>
    exact ⟨h.record cand key asmHash, promised_record own⟩
  | learn a cur p types =>
    refine ⟨h.quiet (.refl s) (by rw [sinceReanchor_append]; rfl), ?_⟩
    have hgrown : Promised setup s (log ++ [.typed p.cand.source types])
        (.running a cur (.retype p)) := own.grow better
    refine ⟨hgrown.best_le, hgrown.scored, hgrown.improved, ?_⟩
    intro q t hr
    cases hr
    exact List.mem_append_right _ (List.mem_singleton_self _)
  | commit a cur p types ok =>
    have hpick : p ∈ (Worker.running a cur (.commit p types)).picks := List.mem_singleton_self p
    obtain ⟨asmHash, hscored⟩ := own.scored p hpick
    exact ⟨.reanchor (own.best_le p hpick) hscored (own.typed p types rfl),
      (own.grow better).fewer (by simp [Worker.picks, Phase.picks]) rfl⟩

theorem searched_anchored {jobs : Nat} {c : SearchState τ jobs} (run : Searched setup c) :
    Holds (Anchored setup) (Promised setup) c := by
  refine reaches_invariant _ _ ?_ ?_ ?_ ?_ run
  · intro s log w x s' w' es h own hstep
    exact change_anchored (workerStep_change setup hstep) h own
  · intro s log w x s' w' es u h own hstep hu
    exact hu.grow (best_le_of_change (workerStep_change setup hstep))
  · intro s log h
    have hq : Anchored setup s.halt (log ++ []) := h.quiet (quiet_halt s) (by simp)
    refine ⟨by simpa using hq, fun u hu => ?_⟩
    exact ⟨hu.best_le, hu.scored, hu.improved, hu.typed⟩
  · refine ⟨⟨le_refl _, .base rfl rfl rfl rfl rfl rfl, fun n hn => ?_⟩, fun i => ?_⟩
    · cases hn
    · exact ⟨fun p hp => (by cases hp), fun p hp => (by cases hp), fun _ p hp => (by cases hp),
        fun p types hr => (by cases hr)⟩

/-- In `improve` mode a step does not move the anchor back. -/
theorem change_anchorKey_le (change : Change setup s w s' w' es) (own : Promised setup s log w)
    (mode : setup.reanchorMode = .improve) : s'.anchorKey ≤ s.anchorKey := by
  cases change with
  | move quiet =>
    have hf := quiet.findings
    simp only [Shared.findings, Shared.mk.injEq] at hf
    have hkey : s'.anchorKey = s.anchorKey := by tauto
    exact hkey.le
  | mutate => exact le_refl _
  | record => exact le_refl _
  | learn => exact le_refl _
  | commit a cur p types ok =>
    have himproved : p.improved = true := own.improved mode p (List.mem_singleton_self p)
    simpa [Shared.reanchorOk, Shared.reanchor, himproved] using ok

theorem reaches_anchorKey_le {jobs : Nat} {c d : SearchState τ jobs} (run : Searched setup c)
    (mode : setup.reanchorMode = .improve) (later : Reaches (workerStep setup) Shared.halt c d) :
    d.shared.anchorKey ≤ c.shared.anchorKey := by
  induction later with
  | refl => exact le_refl _
  | thread i x earlier move ih =>
    obtain ⟨s, t, es, hstep, rfl⟩ := System.move_eq_some move
    have own := (searched_anchored (run.trans earlier)).own i
    exact (change_anchorKey_le (workerStep_change setup hstep) own mode).trans ih
  | outside _ ih => exact ih

/-- A lateral commit passed the second check. -/
theorem lateral_commit {cand : Candidate} {key : ScoreKey} (change : Change setup s w s' w' es)
    (lateral : es = [.reanchored cand key false]) :
    key.raw ≤ s.bestScore + reanchorValleyMargin ∧
      (reanchorCooldown : Int) ≤ s.iters - s.lastReanchorIter := by
  cases change with
  | move | mutate | learn => cases lateral
  | record a cur c k asmHash => simp [Shared.recordEvents] at lateral
  | commit a cur p types ok =>
    obtain ⟨-, rfl, himproved⟩ := by simpa using lateral
    simpa [Shared.reanchorOk, himproved] using ok

/-- **Anchor discipline.** In every state of every interleaving the anchor is not
before the best and its fields belong together; in `improve` mode its key never
increases; and a lateral re-anchor commits within the margin of the best, with
the cooldown's number of candidates scored since the re-anchor before it. -/
theorem anchor_discipline {jobs : Nat} {c : SearchState τ jobs} (run : Searched setup c) :
    c.shared.bestKey ≤ c.shared.anchorKey ∧
    AnchorOf setup c.shared c.events ∧
    (setup.reanchorMode = .improve → ∀ d, Reaches (workerStep setup) Shared.halt c d →
      d.shared.anchorKey ≤ c.shared.anchorKey) ∧
    (∀ i x d cand key, c.move (workerStep setup) i x = some d →
      d.events = c.events ++ [.reanchored cand key false] →
      key.raw ≤ c.shared.bestScore + reanchorValleyMargin ∧
      ∀ n, sinceReanchor c.events = some n → reanchorCooldown ≤ n) := by
  have h := searched_anchored run
  refine ⟨h.shared.best_le, h.shared.whole, fun mode d later => reaches_anchorKey_le run mode later,
    ?_⟩
  intro i x d cand key move hevents
  obtain ⟨s, t, es, hstep, rfl⟩ := System.move_eq_some move
  obtain ⟨hmargin, hcooldown⟩ :=
    lateral_commit (workerStep_change setup hstep) (List.append_cancel_left hevents)
  refine ⟨hmargin, fun n hn => ?_⟩
  have hclock := h.shared.clock n hn
  omega

end

def lateralSetup : Setup Unit :=
  { swapSetup with baseKey := ⟨0, 0, 1, 1, true⟩, batch := 1, reanchorMode := .novel }

/-- The worker scores a swap that is worse than the base and types it. -/
def lateralMoves : List (Fin 1 × Input Unit) :=
  [.next, .next, .next, commutative 45 49 "a" "b", .next, .next, .compiled [true], .next,
    .reply (.scored ⟨2, 0, 0, 10, true⟩ "5d41402abc4b2a76".toList), .next, .next, .next, .next,
    .retyped (some ())].map (onlyWorker, ·)

theorem lateralMoves_commit : ∃ (c d : SearchState Unit 1) (cand : Candidate),
    Searched lateralSetup c ∧ c.move (workerStep lateralSetup) 0 .next = some d ∧
    d.events = c.events ++ [.reanchored cand ⟨2, 0, 0, 10, true⟩ false] ∧
    10 ≤ c.shared.bestScore + reanchorValleyMargin := by
  have h : (runSchedule (workerStep lateralSetup) (searchStart lateralSetup 1) lateralMoves).map
      (fun c => (c.threads 0).retyped.map fun (p, _) =>
        (p.key, p.improved, c.shared.reanchorOk p)) =
      some (some (⟨2, 0, 0, 10, true⟩, false, true)) := by
    decide +kernel
  obtain ⟨c, hrun, h⟩ := Option.map_eq_some_iff.mp h
  obtain ⟨⟨⟨cand, key, improved⟩, types⟩, hretyped, h⟩ := Option.map_eq_some_iff.mp h
  simp only [Prod.mk.injEq] at h
  obtain ⟨rfl, rfl, ok⟩ := h
  obtain ⟨a, cur, hthread⟩ := retyped_eq_some hretyped
  have run : Searched lateralSetup c := runSchedule_reaches hrun
  have hmove : c.move (workerStep lateralSetup) 0 .next = some
      ⟨c.shared.reanchor lateralSetup ⟨cand, ⟨2, 0, 0, 10, true⟩, false⟩ types,
        Function.update c.threads 0 (.running a cur (.refresh true)),
        c.events ++ [.reanchored cand ⟨2, 0, 0, 10, true⟩ false]⟩ := by
    simp [System.move, hthread, workerStep, ok]
  exact ⟨c, _, cand, run, hmove, rfl,
    ((anchor_discipline run).2.2.2 0 .next _ cand ⟨2, 0, 0, 10, true⟩ hmove rfl).1⟩

end MeleeHarness.Permute
