import MeleeHarness.Permute.BestKept
import MeleeHarness.Permute.Recipe

/-!
# What the search prints

`report_find` prints a candidate's diff while the search runs; when it has ended
the main thread reads the best, narrows it and prints how it leaves the source.

* `guardedStep`: the steps in which no improvement repeats a code hash;
* `searched_shown`: over such steps the best's diff has been printed;
* `best_diff_shown`: and so has the final source's before the last line.
-/

namespace MeleeHarness.Permute

open MeleeHarness.Lib

/-- A line on standard output, or the lines of one unified diff from the base. -/
inductive Line where
  | improvement (key : ScoreKey)
  | diff (source : Bytes)
  | noImprovement (best : ScoreKey)
  | bestScore (key : ScoreKey)
  | narrowed (stats : NarrowStats)
  | narrowedScore (key : ScoreKey)
  | savedRecipe
  | applied
  | notApplied
  deriving DecidableEq, Repr

structure ReportArgs where
  noNarrow : Bool
  narrowPasses : Int
  saveReplay : Bool
  apply : ApplyMode
  deriving DecidableEq, Repr

section
variable {τ : Type}

/-- What the workers have printed. -/
def printed (log : List (Event τ)) : List Line :=
  log.flatMap fun e =>
    match e with
    | .found key source => [.improvement key, .diff source]
    | .scored .. | .typed .. | .reanchored .. => []

theorem diff_mem_printed {log : List (Event τ)} {source : Bytes} :
    .diff source ∈ printed log ↔ source ∈ log.filterMap Event.foundSource? := by
  simp only [printed, List.mem_flatMap, List.mem_filterMap]
  constructor
  · rintro ⟨e, he, hline⟩
    cases e with
    | found key s =>
      refine ⟨_, he, ?_⟩
      simpa [Event.foundSource?, eq_comm] using hline
    | scored | typed | reanchored => simp at hline
  · rintro ⟨e, he, hsource⟩
    cases e with
    | found key s =>
      cases hsource
      exact ⟨_, he, by simp⟩
    | scored | typed | reanchored => cases hsource

variable (env : Narrower) (setup : Setup τ) (args : ReportArgs)

/-- The best that `main` ends with, and what it prints on the way. -/
structure FinalBest where
  source : Bytes
  key : ScoreKey
  trace : ReplayTrace
  lines : List Line

/-- The narrowing part of `main`. -/
def finishBest (bestSource : Bytes) (bestKey : ScoreKey) (bestTrace : ReplayTrace) : FinalBest :=
  if args.noNarrow then ⟨bestSource, bestKey, bestTrace, []⟩
  else
    let st := narrowBestSource env setup.baseSource bestSource bestKey bestTrace
      (max 0 args.narrowPasses)
    let summary := if st.stats.attempts ≠ 0 then [.narrowed st.stats] else []
    if st.current ≠ bestSource ∨ !st.currentKey.same bestKey then
      ⟨st.current, st.currentKey, st.currentTrace,
        summary ++ [.narrowedScore st.currentKey, .diff st.current]⟩
    else ⟨bestSource, bestKey, bestTrace, summary⟩

/-- The best at the end of `main`, if it is better than the base. -/
def finalBest (s : Shared τ) : Option FinalBest :=
  s.bestSource.bind fun source =>
    if s.bestKey < setup.baseKey then
      some (finishBest env setup args source s.bestKey (s.bestTrace.getD []))
    else none

/-- The last line of `main`. -/
def lastLine (key : ScoreKey) : Line := if args.apply.applies key then .applied else .notApplied

/-- What `main` prints from its look at the best on. -/
def mainReport (s : Shared τ) : List Line :=
  match finalBest env setup args s with
  | none => [.noImprovement s.bestKey]
  | some best =>
    .bestScore s.bestKey :: best.lines ++ (if args.saveReplay then [.savedRecipe] else []) ++
      [lastLine args best.key]

/-- The run ends with a better best, whose diff was printed before the last line. -/
def Shown (s : Shared τ) (log : List (Event τ)) : Prop :=
  ∃ best before, finalBest env setup args s = some best ∧
    printed log ++ mainReport env setup args s = before ++ [lastLine args best.key] ∧
    .diff best.source ∈ before

/-- No improvement repeats a code hash: the gate of `report_find` lets it through. -/
def gateOpen (s : Shared τ) : Worker τ → Bool
  | .running _ _ (.record _ key asmHash _ _) => !s.improves key || s.isNovel asmHash
  | _ => true

/-- The worker's steps without those in which an improvement repeats a code hash. -/
def guardedStep : ThreadStep (Shared τ) (Worker τ) (Input τ) (Event τ) :=
  fun s w x => if gateOpen s w then workerStep setup s w x else none

/-- The best's diff has been printed. -/
def BestPrinted (s : Shared τ) (log : List (Event τ)) : Prop :=
  ∀ source, s.bestSource = some source → .diff source ∈ printed log

variable {setup}

theorem printed_append (log es : List (Event τ)) : printed (log ++ es) = printed log ++ printed es := by
  simp [printed]

theorem guardedStep_eq_some {s : Shared τ} {w : Worker τ} {x : Input τ}
    {r : Shared τ × Worker τ × List (Event τ)} (h : guardedStep setup s w x = some r) :
    gateOpen s w = true ∧ workerStep setup s w x = some r := by
  unfold guardedStep at h
  split at h
  · next hgate => exact ⟨hgate, h⟩
  · cases h

theorem bestPrinted_same {s s' : Shared τ} {log : List (Event τ)} (es : List (Event τ))
    (h : BestPrinted s log) (same : s'.bestSource = s.bestSource) : BestPrinted s' (log ++ es) := by
  intro source hs
  rw [printed_append]
  exact List.mem_append_left _ (h source (same ▸ hs))

theorem bestPrinted_record {s : Shared τ} {log : List (Event τ)} {cand : Candidate} {key : ScoreKey}
    {asmHash : Text} (h : BestPrinted s log)
    (gate : (!s.improves key || s.isNovel asmHash) = true) :
    BestPrinted (s.record setup cand key asmHash) (log ++ s.recordEvents cand key asmHash) := by
  by_cases better : s.improves key = true
  · have novel : s.isNovel asmHash = true := by simpa [better] using gate
    intro source hs
    simp only [Shared.record, better, ↓reduceIte, Option.some.injEq] at hs
    rw [printed_append, List.mem_append]
    right
    simp [printed, Shared.recordEvents, better, novel, hs]
  · refine bestPrinted_same _ h ?_
    simp [Shared.record, better]

theorem guarded_bestPrinted {s s' : Shared τ} {w w' : Worker τ} {x : Input τ}
    {log es : List (Event τ)} (h : BestPrinted s log)
    (hstep : guardedStep setup s w x = some (s', w', es)) : BestPrinted s' (log ++ es) := by
  obtain ⟨gate, hstep⟩ := guardedStep_eq_some hstep
  cases workerStep_change setup hstep with
  | move quiet => exact bestPrinted_same _ h quiet.best.source
  | mutate => exact bestPrinted_same _ h rfl
  | record => exact bestPrinted_record h gate
  | learn => exact bestPrinted_same _ h rfl
  | commit => exact bestPrinted_same _ h rfl

theorem guarded_searched {jobs : Nat} {c : SearchState τ jobs}
    (run : Reaches (guardedStep setup) Shared.halt (searchStart setup jobs) c) : Searched setup c :=
  run.mono fun _ _ _ _ h => (guardedStep_eq_some h).2

theorem searched_shown {jobs : Nat} {c : SearchState τ jobs}
    (run : Reaches (guardedStep setup) Shared.halt (searchStart setup jobs) c) :
    BestPrinted c.shared c.events := by
  refine (reaches_invariant BestPrinted (fun _ _ _ => True) ?_ ?_ ?_ ?_ run).shared
  · intro s log w x s' w' es h _ hstep
    exact ⟨guarded_bestPrinted h hstep, trivial⟩
  · intros
    trivial
  · intro s log h
    exact ⟨h, fun _ _ => trivial⟩
  · refine ⟨?_, fun _ => trivial⟩
    intro source hs
    cases hs

variable (setup) in
/-- Narrowing prints the diff of what it changes the best to. -/
theorem finishBest_shown (source : Bytes) (key : ScoreKey) (trace : ReplayTrace) :
    (finishBest env setup args source key trace).source = source ∨
      .diff (finishBest env setup args source key trace).source ∈
        (finishBest env setup args source key trace).lines := by
  simp only [finishBest]
  split
  · exact .inl rfl
  · split
    · right
      simp
    · exact .inl rfl

/-- **The best diff is shown.** In every run in which no improvement repeats a code
hash, and that ends with a best below the base, the diff of the final source is
printed before the last line of `main`. -/
theorem best_diff_shown {jobs : Nat} {c : SearchState τ jobs}
    (run : Reaches (guardedStep setup) Shared.halt (searchStart setup jobs) c)
    (below : c.shared.bestKey < setup.baseKey) : Shown env setup args c.shared c.events := by
  obtain ⟨cand, asmHash, -, hsource, htrace⟩ : ∃ cand asmHash,
      .scored cand c.shared.bestKey asmHash ∈ c.events ∧
      c.shared.bestSource = some cand.source ∧ c.shared.bestTrace = some cand.trace := by
    rcases (searched_best (guarded_searched run)).attained with ⟨hbase, -⟩ | h
    · exact absurd below (hbase ▸ lt_irrefl _)
    · exact h
  have hfinal : finalBest env setup args c.shared =
      some (finishBest env setup args cand.source c.shared.bestKey cand.trace) := by
    simp [finalBest, hsource, htrace, below]
  refine ⟨_, printed c.events ++ .bestScore c.shared.bestKey ::
    (finishBest env setup args cand.source c.shared.bestKey cand.trace).lines ++
    (if args.saveReplay then [.savedRecipe] else []), hfinal, ?_, ?_⟩
  · simp [mainReport, hfinal]
  · rcases finishBest_shown env setup args cand.source c.shared.bestKey cand.trace with
      heq | hmem
    · have hprinted := searched_shown run cand.source hsource
      rw [heq]
      simp [hprinted]
    · simp [hmem]

variable (setup) in
/-- A best that narrowing leaves as it was is not printed by it. -/
theorem finishBest_rejects {key : ScoreKey} (worse : ∀ k source, ∀ trialKey,
      env.outcome k source = .scored trialKey → ¬trialKey ≤ key) (source : Bytes)
    (trace : ReplayTrace) :
    (finishBest env setup args source key trace).source = source ∧
      ∀ s, .diff s ∉ (finishBest env setup args source key trace).lines := by
  have hsame : (narrowBestSource env setup.baseSource source key trace
        (max 0 args.narrowPasses)).current = source ∧
      (narrowBestSource env setup.baseSource source key trace
        (max 0 args.narrowPasses)).currentKey = key :=
    narrowBestSource_rejects worse _
  simp only [finishBest]
  split
  · exact ⟨rfl, by simp⟩
  · rw [if_neg (by simp [hsame, ScoreKey.same])]
    refine ⟨rfl, fun s hs => ?_⟩
    split at hs <;> simp at hs

/-- A best that is not printed as a find and that narrowing leaves as it was is
not shown. -/
theorem not_shown {s : Shared τ} {log : List (Event τ)} {source : Bytes}
    (worse : ∀ k source, ∀ trialKey,
      env.outcome k source = .scored trialKey → ¬trialKey ≤ s.bestKey)
    (best : s.bestSource = some source) (silent : source ∉ log.filterMap Event.foundSource?) :
    ¬Shown env setup args s log := by
  rintro ⟨final, before, hfinal, hlines, hmem⟩
  obtain ⟨hsource, hdiff⟩ := finishBest_rejects env setup args worse source (s.bestTrace.getD [])
  have hbelow : final = finishBest env setup args source s.bestKey (s.bestTrace.getD []) := by
    simp only [finalBest, best, Option.bind_some] at hfinal
    split at hfinal
    · exact (Option.some.inj hfinal).symm
    · cases hfinal
  have hall : .diff source ∈ printed log ++ mainReport env setup args s := by
    rw [hlines, ← hsource, ← hbelow]
    exact List.mem_append_left _ hmem
  have hlast : .diff source ≠ lastLine args final.key := by
    unfold lastLine
    split <;> simp
  have hsaved : .diff source ∉ (if args.saveReplay then [Line.savedRecipe] else []) := by
    split <;> simp
  have hline : .diff source ∉ mainReport env setup args s := by
    simp only [mainReport, hfinal, List.mem_append, List.mem_cons, List.not_mem_nil, or_false,
      not_or]
    exact ⟨⟨⟨by simp, hbelow ▸ hdiff source⟩, hsaved⟩, hlast⟩
  rcases List.mem_append.mp hall with hprinted | hreport
  · exact silent (diff_mem_printed.mp hprinted)
  · exact hline hreport

end

/-- Narrowing the two swaps: the second line is the changed one, there is no cast,
and every trial scores as the base does. -/
def swapNarrower : Narrower where
  sha256 := swapSha256
  getOpcodes a b :=
    if h : a.length = 2 ∧ b.length = 2 then
      [⟨.equal, 0, 1, 0, 1, by omega, by omega, by omega, by omega⟩,
        ⟨.replace, 1, 2, 1, 2, by omega, by omega, by omega, by omega⟩]
    else []
  parse source := .mk .other 0 source.length 0 none []
  outcome _ _ := .scored swapSetup.baseKey

/-- The second swap improves on the first with the same code, and is the best at
the end: its diff is never printed. -/
theorem swapMoves_not_shown : ∃ c : SearchState Unit 1, Searched swapSetup c ∧
    c.shared.bestKey < swapSetup.baseKey ∧
    ¬Shown swapNarrower swapSetup ⟨false, 3, false, .never⟩ c.shared c.events := by
  obtain ⟨c, hrun, hbest, hfound⟩ := swapMoves_run
  have hkey : c.shared.bestKey = ⟨0, 0, 0, 0, true⟩ := congrArg (·.1) hbest
  have hsource : c.shared.bestSource = some swapTwice := congrArg (·.2.1) hbest
  have hworse : ¬swapSetup.baseKey ≤ (⟨0, 0, 0, 0, true⟩ : ScoreKey) := by decide
  have hsilent : swapTwice ∉ c.events.filterMap Event.foundSource? := by
    rw [hfound]
    decide +kernel
  refine ⟨c, hrun, ?_, not_shown swapNarrower _ ?_ hsource hsilent⟩
  · rw [hkey]
    decide
  · intro k source trialKey houtcome
    cases houtcome
    rw [hkey]
    exact hworse

/-- Up to the first swap's score every improvement is novel. -/
theorem swapMoves_shown : ∃ c : SearchState Unit 1,
    Reaches (guardedStep swapSetup) Shared.halt (searchStart swapSetup 1) c ∧
    c.shared.bestKey < swapSetup.baseKey ∧
    Shown swapNarrower swapSetup ⟨false, 3, false, .never⟩ c.shared c.events := by
  have h : (runSchedule (guardedStep swapSetup) (searchStart swapSetup 1) (swapMoves.take 12)).map
      (fun c => decide (c.shared.bestKey < swapSetup.baseKey)) = some true := by
    unfold swapSetup swapSha256 swapBase swapOnce swapTwice ascii
    simp only [toList_literal rfl]
    decide +kernel
  obtain ⟨c, hrun, hbelow⟩ := Option.map_eq_some_iff.mp h
  have below : c.shared.bestKey < swapSetup.baseKey := of_decide_eq_true hbelow
  have run : Reaches (guardedStep swapSetup) Shared.halt (searchStart swapSetup 1) c :=
    runSchedule_reaches hrun
  exact ⟨c, run, below, best_diff_shown swapNarrower _ run below⟩

end MeleeHarness.Permute
