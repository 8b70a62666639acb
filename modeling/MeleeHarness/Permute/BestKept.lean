import MeleeHarness.Permute.Steps

/-!
# The best is not lost

Workers enter scored candidates one at a time, under the lock. What has been
entered decides the best: it is the first of the least keys.

* `change_best`: a step keeps the best least among the keys entered so far;
* `best_le_of_change`: the best never gets worse.
-/

namespace MeleeHarness.Permute

open MeleeHarness.Lib

section
variable {τ : Type} {setup : Setup τ} {s s' : Shared τ} {w w' : Worker τ}
  {log es : List (Event τ)}

variable (setup) in
/-- The base key and the keys entered so far. -/
def keys (log : List (Event τ)) : List ScoreKey := setup.baseKey :: log.filterMap Event.scoredKey?

theorem mem_keys {key : ScoreKey} :
    key ∈ keys setup log ↔ key = setup.baseKey ∨ ∃ cand asmHash, .scored cand key asmHash ∈ log := by
  simp only [keys, List.mem_cons, List.mem_filterMap]
  constructor
  · rintro (h | ⟨e, he, h⟩)
    · exact .inl h
    · cases e with
      | scored cand k asmHash =>
        cases h
        exact .inr ⟨cand, asmHash, he⟩
      | found | typed | reanchored => cases h
  · rintro (h | ⟨cand, asmHash, h⟩)
    · exact .inl h
    · exact .inr ⟨_, h, rfl⟩

theorem keys_append : keys setup (log ++ es) = keys setup log ++ es.filterMap Event.scoredKey? := by
  simp [keys]

theorem recordEvents_keys (s : Shared τ) (cand : Candidate) (key : ScoreKey) (asmHash : Text) :
    (s.recordEvents cand key asmHash).filterMap Event.scoredKey? = [key] := by
  simp only [Shared.recordEvents, List.filterMap_cons, Event.scoredKey?]
  split
  · rfl
  · rfl

variable (setup) in
/-- The best is the least key so far, with the candidate that was entered with it. -/
structure BestKept (s : Shared τ) (log : List (Event τ)) : Prop where
  score : s.bestScore = s.bestKey.raw
  least : ∀ key ∈ keys setup log, s.bestKey ≤ key
  attained : (s.bestKey = setup.baseKey ∧ s.bestSource = none) ∨
    ∃ cand asmHash, .scored cand s.bestKey asmHash ∈ log ∧
      s.bestSource = some cand.source ∧ s.bestTrace = some cand.trace
  stopped : ∀ cand key asmHash, .scored cand key asmHash ∈ log → key.raw = 0 → s.stop = true
  counted : s.iters = (log.filterMap Event.scoredKey?).length

/-- The best is as it was, with no candidate more, and a stop that was set stays set. -/
structure SameBest (s s' : Shared τ) : Prop where
  score : s'.bestScore = s.bestScore
  key : s'.bestKey = s.bestKey
  source : s'.bestSource = s.bestSource
  trace : s'.bestTrace = s.bestTrace
  stop : s.stop = true → s'.stop = true
  iters : s'.iters = s.iters

theorem Quiet.best (q : Quiet s s') : SameBest s s' := by
  have h := q.findings
  simp only [Shared.findings, Shared.mk.injEq] at h
  exact ⟨by tauto, by tauto, by tauto, by tauto, q.stop, by tauto⟩

/-- Only the entry of a scored candidate touches the best. -/
theorem Change.best (change : Change setup s w s' w' es) :
    (SameBest s s' ∧ es.filterMap Event.scoredKey? = []) ∨
      ∃ cand key asmHash, s' = s.record setup cand key asmHash ∧
        es = s.recordEvents cand key asmHash := by
  cases change with
  | move quiet => exact .inl ⟨quiet.best, rfl⟩
  | mutate => exact .inl ⟨(Quiet.refl s).best, rfl⟩
  | record a cur cand key asmHash => exact .inr ⟨cand, key, asmHash, rfl, rfl⟩
  | learn => exact .inl ⟨(Quiet.refl s).best, rfl⟩
  | commit => exact .inl ⟨⟨rfl, rfl, rfl, rfl, id, rfl⟩, rfl⟩

theorem BestKept.same (h : BestKept setup s log) (same : SameBest s s')
    (silent : es.filterMap Event.scoredKey? = []) : BestKept setup s' (log ++ es) := by
  have hkeys : keys setup (log ++ es) = keys setup log := by
    rw [keys_append, silent, List.append_nil]
  have hscored : ∀ cand key asmHash, .scored cand key asmHash ∉ es := by
    intro cand key asmHash hmem
    have hkey : key ∈ es.filterMap Event.scoredKey? := List.mem_filterMap.mpr ⟨_, hmem, rfl⟩
    simp [silent] at hkey
  refine ⟨?_, ?_, ?_, ?_, ?_⟩
  · rw [same.score, same.key]
    exact h.score
  · rw [hkeys, same.key]
    exact h.least
  · rw [same.key, same.source, same.trace]
    rcases h.attained with hbase | ⟨cand, asmHash, hmem, hbest⟩
    · exact .inl hbase
    · exact .inr ⟨cand, asmHash, List.mem_append_left _ hmem, hbest⟩
  · intro cand key asmHash hmem hzero
    rcases List.mem_append.mp hmem with hmem | hmem
    · exact same.stop (h.stopped cand key asmHash hmem hzero)
    · exact absurd hmem (hscored cand key asmHash)
  · rw [same.iters, h.counted, List.filterMap_append, silent, List.append_nil]

variable (setup) in
theorem record_bestKey_le (s : Shared τ) (cand : Candidate) (key : ScoreKey) (asmHash : Text) :
    (s.record setup cand key asmHash).bestKey ≤ s.bestKey ∧
      (s.record setup cand key asmHash).bestKey ≤ key := by
  by_cases better : key < s.bestKey
  · simp [Shared.record, Shared.improves, better, better.le]
  · simp [Shared.record, Shared.improves, better, ScoreKey.le_of_not_gt better]

theorem mem_recordEvents (s : Shared τ) (cand : Candidate) (key : ScoreKey) (asmHash : Text) :
    .scored cand key asmHash ∈ s.recordEvents cand key asmHash := by
  simp [Shared.recordEvents]

theorem scored_of_mem_recordEvents {cand c : Candidate} {key k : ScoreKey} {asmHash h : Text}
    (mem : .scored c k h ∈ s.recordEvents cand key asmHash) : c = cand ∧ k = key ∧ h = asmHash := by
  simp only [Shared.recordEvents, List.mem_cons, Event.scored.injEq] at mem
  rcases mem with mem | mem
  · exact mem
  · split at mem
    · simp at mem
    · cases mem

theorem BestKept.record (h : BestKept setup s log) (cand : Candidate) (key : ScoreKey)
    (asmHash : Text) :
    BestKept setup (s.record setup cand key asmHash) (log ++ s.recordEvents cand key asmHash) := by
  obtain ⟨hold, hnew⟩ := record_bestKey_le setup s cand key asmHash
  refine ⟨?_, ?_, ?_, ?_, ?_⟩
  · by_cases better : s.improves key = true
    · simp [Shared.record, better]
    · simpa [Shared.record, better] using h.score
  · intro k hk
    rw [keys_append, recordEvents_keys, List.mem_append, List.mem_singleton] at hk
    rcases hk with hk | rfl
    · exact hold.trans (h.least k hk)
    · exact hnew
  · by_cases better : s.improves key = true
    · refine .inr ⟨cand, asmHash, ?_, ?_, ?_⟩
      · simpa [Shared.record, better] using
          .inr (mem_recordEvents s cand key asmHash)
      · simp [Shared.record, better]
      · simp [Shared.record, better]
    · simp only [Shared.record, better, Bool.false_eq_true, ↓reduceIte]
      rcases h.attained with hbase | ⟨c, hash, hmem, hbest⟩
      · exact .inl hbase
      · exact .inr ⟨c, hash, List.mem_append_left _ hmem, hbest⟩
  · intro c k hash hmem hzero
    rcases List.mem_append.mp hmem with hmem | hmem
    · simp [Shared.record, h.stopped c k hash hmem hzero]
    · obtain ⟨-, rfl, -⟩ := scored_of_mem_recordEvents hmem
      simp [Shared.record, hzero]
  · rw [List.filterMap_append, recordEvents_keys, List.length_append, ← h.counted]
    rfl

theorem change_best (change : Change setup s w s' w' es) (h : BestKept setup s log) :
    BestKept setup s' (log ++ es) := by
  rcases change.best with ⟨same, silent⟩ | ⟨cand, key, asmHash, rfl, rfl⟩
  · exact h.same same silent
  · exact h.record cand key asmHash

theorem best_le_of_change (change : Change setup s w s' w' es) : s'.bestKey ≤ s.bestKey := by
  rcases change.best with ⟨same, -⟩ | ⟨cand, key, asmHash, rfl, -⟩
  · exact same.key.le
  · exact (record_bestKey_le setup s cand key asmHash).1

theorem searched_best {jobs : Nat} {c : SearchState τ jobs} (run : Searched setup c) :
    BestKept setup c.shared c.events := by
  refine (reaches_invariant (BestKept setup) (fun _ _ _ => True) ?_ ?_ ?_ ?_ run).shared
  · intro s log w x s' w' es h _ hstep
    exact ⟨change_best (workerStep_change setup hstep) h, trivial⟩
  · intros
    trivial
  · intro s log h
    have hq : BestKept setup s.halt (log ++ []) := h.same (quiet_halt s).best rfl
    exact ⟨by simpa using hq, fun _ _ => trivial⟩
  · refine ⟨⟨rfl, ?_, .inl ⟨rfl, rfl⟩, ?_, rfl⟩, fun _ => trivial⟩
    · intro key hk
      rw [List.mem_singleton.mp hk]
      exact le_refl _
    · intro cand key asmHash hmem
      cases hmem

/-- **No lost best.** In every state of every interleaving the best key is the
least of the base key and the keys of the candidates counted as scored, and a best
below the base is the candidate that was entered with it. Once a candidate without
penalty has stopped the search the best has none either, if no reply names
mismatches without a penalty. -/
theorem best_is_least {jobs : Nat} {c : SearchState τ jobs} (run : Searched setup c) :
    c.shared.iters = (c.events.filterMap Event.scoredKey?).length ∧
    (c.shared.bestKey ∈ keys setup c.events ∧
      ∀ key ∈ keys setup c.events, c.shared.bestKey ≤ key) ∧
    c.shared.bestScore = c.shared.bestKey.raw ∧
    (c.shared.bestKey < setup.baseKey → ∃ cand asmHash,
      .scored cand c.shared.bestKey asmHash ∈ c.events ∧
      c.shared.bestSource = some cand.source ∧ c.shared.bestTrace = some cand.trace) ∧
    ((∀ cand key asmHash, .scored cand key asmHash ∈ c.events → key.raw = 0 →
        key.hard = 0 ∧ key.regswap = 0 ∧ key.stack = 0) →
      ∀ cand key asmHash, .scored cand key asmHash ∈ c.events → key.raw = 0 →
        c.shared.stop = true ∧ c.shared.bestKey.raw = 0) := by
  have h := searched_best run
  refine ⟨h.counted, ⟨?_, h.least⟩, h.score, ?_, ?_⟩
  · rw [mem_keys]
    rcases h.attained with ⟨hbase, -⟩ | ⟨cand, asmHash, hmem, -⟩
    · exact .inl hbase
    · exact .inr ⟨cand, asmHash, hmem⟩
  · intro below
    rcases h.attained with ⟨hbase, -⟩ | hscored
    · exact absurd below (hbase ▸ lt_irrefl _)
    · exact hscored
  · intro clean cand key asmHash hmem hzero
    obtain ⟨hard, regswap, stack⟩ := clean cand key asmHash hmem hzero
    refine ⟨h.stopped cand key asmHash hmem hzero, ?_⟩
    exact ScoreKey.raw_eq_zero_of_le (h.least key (mem_keys.mpr (.inr ⟨cand, asmHash, hmem⟩)))
      hard regswap stack hzero

end

theorem swapMoves_best : ∃ c : SearchState Unit 1, Searched swapSetup c ∧
    c.shared.bestKey < swapSetup.baseKey ∧ ∃ cand asmHash,
      .scored cand c.shared.bestKey asmHash ∈ c.events ∧ cand.source = swapTwice := by
  obtain ⟨c, hrun, hbest, -⟩ := swapMoves_run
  have hkey : c.shared.bestKey = ⟨0, 0, 0, 0, true⟩ := congrArg (·.1) hbest
  have hsource : c.shared.bestSource = some swapTwice := congrArg (·.2.1) hbest
  have below : c.shared.bestKey < swapSetup.baseKey := by
    rw [hkey]
    decide
  obtain ⟨cand, asmHash, hmem, hcand, -⟩ := (best_is_least hrun).2.2.2.1 below
  exact ⟨c, hrun, below, cand, asmHash, hmem, Option.some.inj (hcand.symm.trans hsource)⟩

end MeleeHarness.Permute
