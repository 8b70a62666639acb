import MeleeHarness.Permute.Search

/-!
# The steps of a worker

* `choosePick_eq`: the candidate to re-anchor to stays, or is the one just scored;
* `workerStep_change`: a step moves on with candidates that were there, mutates
  one, records a scored one, learns its types, or commits it as the anchor.
-/

namespace MeleeHarness.Permute

open MeleeHarness.Lib

section
variable {τ : Type} (setup : Setup τ)

theorem choosePick_eq (pick : Option Pick) (cand : Candidate) (key : ScoreKey)
    (improved novel : Bool) (best : Nat) :
    choosePick setup pick cand key improved novel best = pick ∨
      choosePick setup pick cand key improved novel best = some ⟨cand, key, improved⟩ ∧
        (setup.reanchorMode = .improve → improved = true) := by
  simp only [choosePick]
  split
  · next h =>
    refine .inr ⟨rfl, fun hm => ?_⟩
    simpa [hm] using h.2.2.1
  · exact .inl rfl

/-- The shared state up to the counters, the source hashes and the stop. -/
def Shared.findings (s : Shared τ) : Shared τ :=
  { s with compilesFailed := 0, scoreErrs := 0, nDup := 0, seenSource := [], stop := false }

/-- Nothing of the search's findings has changed; the stop may have been set. -/
structure Quiet (s s' : Shared τ) : Prop where
  findings : s'.findings = s.findings
  stop : s.stop = true → s'.stop = true

theorem Quiet.refl (s : Shared τ) : Quiet s s := ⟨rfl, id⟩

theorem quiet_halt (s : Shared τ) : Quiet s s.halt := ⟨rfl, fun _ => rfl⟩

theorem quiet_dedup (s : Shared τ) (h : Text) : Quiet s (s.dedup h) := by
  unfold Shared.dedup
  split
  · exact ⟨rfl, id⟩
  · split
    · exact ⟨rfl, id⟩
    · exact .refl s

/-- The candidates a phase still works with. -/
def Phase.candidates : Phase τ → List Candidate
  | .build cands _ | .compile cands => cands
  | .dedup cands _ cand => cand :: cands
  | .scoreNext todo pick => todo.map Prod.fst ++ pick.toList.map Pick.cand
  | .score cand _ todo pick | .record cand _ _ todo pick =>
    cand :: (todo.map Prod.fst ++ pick.toList.map Pick.cand)
  | .afterBatch pick => pick.toList.map Pick.cand
  | .precheck p | .retype p | .commit p _ => [p.cand]
  | .loopHead | .checkVersion | .refresh _ | .finished => []

/-- The candidates a worker holds: its copy of the anchor, the current one and
those of its batch. -/
def Worker.candidates : Worker τ → List Candidate
  | .starting => []
  | .running a cur phase => a.cand :: cur :: phase.candidates

def Phase.picks : Phase τ → List Pick
  | .scoreNext _ pick | .score _ _ _ pick | .record _ _ _ _ pick | .afterBatch pick => pick.toList
  | .precheck p | .retype p | .commit p _ => [p]
  | _ => []

def Worker.picks : Worker τ → List Pick
  | .starting => []
  | .running _ _ phase => phase.picks

/-- The types a worker is about to commit, with their candidate. -/
def Worker.retyped : Worker τ → Option (Pick × τ)
  | .running _ _ (.commit p types) => some (p, types)
  | _ => none

theorem retyped_eq_some {w : Worker τ} {p : Pick} {types : τ} (h : w.retyped = some (p, types)) :
    ∃ a cur, w = .running a cur (.commit p types) := by
  unfold Worker.retyped at h
  split at h
  · cases h
    exact ⟨_, _, rfl⟩
  · cases h

/-- What a step does: it moves on with candidates that were there, mutates one
of them, records a scored one, learns its types, or commits it as the anchor. -/
inductive Change (s : Shared τ) : Worker τ → Shared τ → Worker τ → List (Event τ) → Prop
  | move {w w' s'} (quiet : Quiet s s') (candidates : w'.candidates ⊆ s.anchor :: w.candidates)
      (picks : w'.picks ⊆ w.picks) (retyped : w'.retyped = none) : Change s w s' w' []
  | mutate {w w'} (cur mutateFn r) (mem : cur ∈ w.candidates)
      (edits : applyEdits cur.source r.edits = .ok r.source)
      (candidates : w'.candidates ⊆ mutated setup cur mutateFn r :: w.candidates)
      (picks : w'.picks = []) (retyped : w'.retyped = none) : Change s w s w' []
  | record (a cur cand key asmHash todo pick) :
      Change s (.running a cur (.record cand key asmHash todo pick))
        (s.record setup cand key asmHash)
        (.running a cur (.scoreNext todo (choosePick setup pick cand key (s.improves key)
          (s.isNovel asmHash) (s.record setup cand key asmHash).bestScore)))
        (s.recordEvents cand key asmHash)
  | learn (a cur p types) :
      Change s (.running a cur (.retype p)) s (.running a cur (.commit p types))
        [.typed p.cand.source types]
  | commit (a cur p types) (ok : s.reanchorOk p = true) :
      Change s (.running a cur (.commit p types)) (s.reanchor setup p types)
        (.running a cur (.refresh true)) [.reanchored p.cand p.key p.improved]

section
variable {setup : Setup τ} {s s' : Shared τ} {a : Cache τ} {cur : Candidate}
  {phase phase' : Phase τ}

/-- A worker that keeps its anchor and its current candidate. -/
theorem Change.stay (quiet : Quiet s s') (candidates : phase'.candidates ⊆ phase.candidates)
    (picks : phase'.picks ⊆ phase.picks)
    (retyped : (Worker.running a cur phase').retyped = none) :
    Change setup s (.running a cur phase) s' (.running a cur phase') [] := by
  refine .move quiet ?_ picks retyped
  intro c hc
  simp only [Worker.candidates, List.mem_cons] at hc ⊢
  rcases hc with rfl | rfl | hc
  · simp
  · simp
  · simp [candidates hc]

/-- A worker whose phase has moved on to one with nothing in it. -/
theorem Change.drop (quiet : Quiet s s') (candidates : phase'.candidates = [])
    (picks : phase'.picks = []) (retyped : (Worker.running a cur phase').retyped = none) :
    Change setup s (.running a cur phase) s' (.running a cur phase') [] :=
  .stay quiet (by simp [candidates]) (by simp [picks]) retyped

theorem Change.refresh {w : Worker τ} (candidates : phase'.candidates = [])
    (picks : phase'.picks = []) (retyped : (Worker.refreshed s phase').retyped = none) :
    Change setup s w s (.refreshed s phase') [] := by
  refine .move (.refl s) ?_ ?_ retyped
  · intro c hc
    simp only [Worker.refreshed, Worker.candidates, candidates, List.mem_cons, List.not_mem_nil,
      or_false, or_self] at hc
    simp [hc]
  · simp [Worker.refreshed, Worker.picks, picks]

theorem mutateStep_change {cands : List Candidate} {attempts : Nat} {start : Candidate}
    (mem : start = a.cand ∨ start = cur) (mutateFn : Text) (pool : List (Text × List Edit)) :
    Change setup s (.running a cur (.build cands attempts)) s
      (mutateStep setup a start cands attempts mutateFn pool) [] := by
  unfold mutateStep
  cases hr : stepResult start.source pool with
  | none =>
    refine .move (.refl s) ?_ (by simp [Worker.picks, Phase.picks]) rfl
    intro c hc
    simp only [Worker.candidates, Phase.candidates, List.mem_cons] at hc ⊢
    tauto
  | some r =>
    have hmem : start ∈ (Worker.running a cur (.build cands attempts)).candidates := by
      simp only [Worker.candidates, List.mem_cons]
      tauto
    refine .mutate start mutateFn r hmem (stepResult_spec hr) ?_ rfl rfl
    intro c hc
    simp only [Worker.candidates, Phase.candidates, List.mem_cons] at hc ⊢
    tauto

end

theorem workerStep_change {s s' : Shared τ} {w w' : Worker τ} {x : Input τ} {es : List (Event τ)}
    (h : workerStep setup s w x = some (s', w', es)) : Change setup s w s' w' es := by
  -- one case for each transition of `workerStep`, in its order
  unfold workerStep at h
  split at h
  · cases h
    exact .refresh rfl rfl rfl
  · cases h
    split
    · exact .drop (.refl s) rfl rfl rfl
    · exact .drop (.refl s) rfl rfl rfl
  · cases h
    split
    · exact .drop (.refl s) rfl rfl rfl
    · exact .drop (.refl s) rfl rfl rfl
  · cases h
    split
    · exact .refresh rfl rfl rfl
    · exact .refresh rfl rfl rfl
  · split at h
    · cases h
      apply mutateStep_change
      split <;> simp
    · cases h
  · split at h
    · cases h
    · cases h
      split
      · exact .drop (.refl s) rfl rfl rfl
      · exact .stay (.refl s) (by simp [Phase.candidates]) (by simp [Phase.picks]) rfl
  · cases h
    refine .stay (quiet_dedup s _) ?_ (by simp [Phase.picks]) rfl
    simp only [Phase.candidates]
    split
    · exact List.subset_cons_self _ _
    · simp
  · cases h
    refine .stay (.refl s) ?_ (by simp [Phase.picks]) rfl
    intro c hc
    simp only [Phase.candidates, Option.toList_none, List.map_nil, List.append_nil] at hc
    obtain ⟨d, hd, rfl⟩ := List.mem_map.mp hc
    exact (List.of_mem_zip hd).1
  · cases h
    exact .stay (.refl s) (by simp [Phase.candidates]) (by simp [Phase.picks]) rfl
  · cases h
    split
    · exact .stay (.refl s) (by simp [Phase.candidates]) (by simp [Phase.picks]) rfl
    · exact .stay (.refl s) (by simp [Phase.candidates]) (by simp [Phase.picks]) rfl
  · cases h
    exact .stay ⟨rfl, id⟩ (by simp [Phase.candidates]) (by simp [Phase.picks]) rfl
  · split at h
    · cases h
      exact .stay (.refl s) (by simp [Phase.candidates]) (by simp [Phase.picks]) rfl
    · cases h
      exact .stay ⟨rfl, id⟩ (by simp [Phase.candidates]) (by simp [Phase.picks]) rfl
    · cases h
      exact .stay ⟨rfl, fun _ => rfl⟩ (by simp [Phase.candidates])
        (by simp [Phase.picks]) rfl
    · cases h
      exact .stay (.refl s) (by simp [Phase.candidates]) (by simp [Phase.picks]) rfl
  · cases h
    exact .record ..
  · cases h
    exact .drop (.refl s) rfl rfl rfl
  · cases h
    split
    · exact .drop (.refl s) rfl rfl rfl
    · split
      · exact .stay (.refl s) (by simp [Phase.candidates]) (by simp [Phase.picks]) rfl
      · exact .stay (.refl s) (by simp [Phase.candidates]) (by simp [Phase.picks]) rfl
  · cases h
    split
    · exact .drop (.refl s) rfl rfl rfl
    · exact .stay (.refl s) (by simp [Phase.candidates]) (by simp [Phase.picks]) rfl
  · cases h
    exact .drop (.refl s) rfl rfl rfl
  · cases h
    exact .learn ..
  · split at h
    · cases h
      exact .commit _ _ _ _ (by assumption)
    · cases h
      exact .drop (.refl s) rfl rfl rfl
  · cases h

end

end MeleeHarness.Permute
