import MeleeHarness.Lib.Interleave
import MeleeHarness.Permute.Replay
import MeleeHarness.Permute.ScoreKey

/-!
# The search

The permuter's workers over the state they share. Every section under the lock
is one atomic step, and so is every unlocked read of the shared state; what the
compiler, the score server, the type oracle and the random choices give is the
step's input.
-/

namespace MeleeHarness.Permute

open MeleeHarness.Lib

def reanchorValleyMargin : Nat := 120

def reanchorCooldown : Nat := 25

/-- The size at which `seen_source` and `seen_asm` stop growing. -/
def seenLimit : Nat := 200000

/-- A source and the trace that leads to it from the base. -/
structure Candidate where
  source : Bytes
  trace : ReplayTrace
  deriving DecidableEq, Repr

inductive ReanchorMode where
  | off
  | improve
  | novel
  deriving DecidableEq, Repr

/-- The fields of `Shared` that never change, the hash, and where the leading
preprocessor block of a source ends. -/
structure Setup (τ : Type) where
  sha256 : Bytes → Text
  prefixSplit : Bytes → Nat
  baseKey : ScoreKey
  baseSource : Bytes
  types : τ
  split : Nat
  batch : Nat
  maxIters : Option Int
  reanchorMode : ReanchorMode
  mutateFns : List Text

structure Shared (τ : Type) where
  anchorSource : Bytes
  anchorTypes : τ
  anchorSplit : Nat
  anchorScore : Nat
  anchorKey : ScoreKey
  anchorTrace : ReplayTrace
  anchorVersion : Nat
  lastReanchorIter : Int
  stop : Bool
  bestScore : Nat
  bestKey : ScoreKey
  bestSource : Option Bytes
  bestTrace : Option ReplayTrace
  iters : Nat
  compilesFailed : Nat
  scoreErrs : Nat
  nReanchor : Nat
  nDup : Nat
  seenSource : List Text
  seenAsm : List Text

/-- What has happened: a key entered the books, `report_find` printed, the type
oracle answered, the anchor moved. -/
inductive Event (τ : Type) where
  | scored (cand : Candidate) (key : ScoreKey) (asmHash : Text)
  | found (key : ScoreKey) (source : Bytes)
  | typed (source : Bytes) (types : τ)
  | reanchored (cand : Candidate) (key : ScoreKey) (improved : Bool)

/-- The key of a candidate that was scored. -/
def Event.scoredKey? {τ : Type} : Event τ → Option ScoreKey
  | .scored _ key _ => some key
  | _ => none

/-- The source whose diff `report_find` has printed. -/
def Event.foundSource? {τ : Type} : Event τ → Option Bytes
  | .found _ source => some source
  | _ => none

/-- `reanchor_cand` -/
structure Pick where
  cand : Candidate
  key : ScoreKey
  improved : Bool
  deriving DecidableEq, Repr

section
variable {τ : Type} (setup : Setup τ)

def Setup.base : Candidate := ⟨setup.baseSource, []⟩

def Setup.baseScore : Nat := setup.baseKey.raw

def Shared.initial : Shared τ where
  anchorSource := setup.baseSource
  anchorTypes := setup.types
  anchorSplit := setup.split
  anchorScore := setup.baseScore
  anchorKey := setup.baseKey
  anchorTrace := []
  anchorVersion := 0
  lastReanchorIter := -(10 ^ 9)
  stop := false
  bestScore := setup.baseScore
  bestKey := setup.baseKey
  bestSource := none
  bestTrace := none
  iters := 0
  compilesFailed := 0
  scoreErrs := 0
  nReanchor := 0
  nDup := 0
  seenSource := []
  seenAsm := []

namespace Shared
variable (s : Shared τ)

def anchor : Candidate := ⟨s.anchorSource, s.anchorTrace⟩

/-! ## Sections under the lock -/

def isDup (h : Text) : Bool := h ∈ s.seenSource

def dedup (h : Text) : Shared τ :=
  if s.isDup h then { s with nDup := s.nDup + 1 }
  else if s.seenSource.length < seenLimit then { s with seenSource := h :: s.seenSource }
  else s

def improves (key : ScoreKey) : Bool := key < s.bestKey

/-- Never-seen codegen. -/
def isNovel (asmHash : Text) : Bool := asmHash ∉ s.seenAsm

/-- The section that enters a scored candidate. -/
def record (cand : Candidate) (key : ScoreKey) (asmHash : Text) : Shared τ :=
  { s with
    iters := s.iters + 1
    seenAsm :=
      if s.isNovel asmHash ∧ s.seenAsm.length < seenLimit then asmHash :: s.seenAsm else s.seenAsm
    bestScore := if s.improves key then key.raw else s.bestScore
    bestKey := if s.improves key then key else s.bestKey
    bestSource := if s.improves key then some cand.source else s.bestSource
    bestTrace := if s.improves key then some cand.trace else s.bestTrace
    stop := s.stop || key.raw == 0 || setup.maxIters.any fun n : Int => n ≤ s.iters + 1 }

def recordEvents (cand : Candidate) (key : ScoreKey) (asmHash : Text) : List (Event τ) :=
  .scored cand key asmHash ::
    if (s.improves key || key.raw == 0) && s.isNovel asmHash then [.found key cand.source] else []

/-- The check of `_reanchor` before the re-type, for a lateral move. -/
def lateralBlocked (score : Nat) : Bool :=
  s.bestScore + reanchorValleyMargin < score || s.iters - s.lastReanchorIter < reanchorCooldown

/-- The check of `_reanchor` after the re-type. -/
def reanchorOk (p : Pick) : Bool :=
  if p.improved then p.key ≤ s.anchorKey
  else p.key.raw ≤ s.bestScore + reanchorValleyMargin &&
    reanchorCooldown ≤ s.iters - s.lastReanchorIter

def reanchor (p : Pick) (types : τ) : Shared τ :=
  { s with
    anchorSource := p.cand.source
    anchorTypes := types
    anchorSplit := setup.prefixSplit p.cand.source
    anchorScore := p.key.raw
    anchorKey := p.key
    anchorTrace := p.cand.trace
    anchorVersion := s.anchorVersion + 1
    lastReanchorIter := s.iters
    nReanchor := s.nReanchor + 1 }

end Shared

/-- The choice of `reanchor_cand` after a candidate was entered; `best` is the
best score at the end of that section. -/
def choosePick (pick : Option Pick) (cand : Candidate) (key : ScoreKey) (improved novel : Bool)
    (best : Nat) : Option Pick :=
  let take := improved ||
    setup.reanchorMode = .novel && novel && key.raw ≤ best + reanchorValleyMargin
  if key.raw ≠ 0 ∧ setup.reanchorMode ≠ .off ∧ take ∧ pick.all fun p => key < p.key then
    some ⟨cand, key, improved⟩
  else pick

/-! ## Workers -/

/-- A worker's copy of the anchor. -/
structure Cache (τ : Type) where
  cand : Candidate
  types : τ
  version : Nat

/-- Where a worker stands in its loop. -/
inductive Phase (τ : Type) where
  | loopHead
  | checkVersion
  | refresh (reanchored : Bool)
  | build (cands : List Candidate) (attempts : Nat)
  | dedup (cands : List Candidate) (attempts : Nat) (cand : Candidate)
  | compile (cands : List Candidate)
  | scoreNext (todo : List (Candidate × Bool)) (pick : Option Pick)
  | score (cand : Candidate) (compiled : Bool) (todo : List (Candidate × Bool)) (pick : Option Pick)
  | record (cand : Candidate) (key : ScoreKey) (asmHash : Text) (todo : List (Candidate × Bool))
      (pick : Option Pick)
  | afterBatch (pick : Option Pick)
  | precheck (pick : Pick)
  | retype (pick : Pick)
  | commit (pick : Pick) (types : τ)
  | finished

/-- A worker has a current candidate from its first refresh on. -/
inductive Worker (τ : Type) where
  | starting
  | running (anchor : Cache τ) (cur : Candidate) (phase : Phase τ)

/-- What comes of handing a compiled candidate to the score server. -/
inductive Reply where
  | vanished
  | scoreError
  | pipeClosed
  | scored (key : ScoreKey) (asmHash : Text)
  deriving DecidableEq, Repr

/-- What a step takes from outside. -/
inductive Input (τ : Type) where
  | next
  | mutate (restart : Bool) (mutateFn : Text) (pool : List (Text × List Edit))
  | compiled (objs : List Bool)
  | reply (r : Reply)
  | retyped (types : Option τ)

def Worker.refreshed (s : Shared τ) (phase : Phase τ) : Worker τ :=
  .running ⟨s.anchor, s.anchorTypes, s.anchorVersion⟩ s.anchor phase

/-- The candidate a mutation makes of `cur`. -/
def mutated (cur : Candidate) (mutateFn : Text) (r : MutationResult) : Candidate :=
  ⟨r.source, cur.trace ++ [makeReplayStep setup.sha256 "mutation".toList (some mutateFn) r.passName
    cur.source r.edits r.source none]⟩

/-- One round of the batch-building loop up to the look at `seen_source`. -/
def mutateStep (a : Cache τ) (cur : Candidate) (cands : List Candidate) (attempts : Nat)
    (mutateFn : Text) (pool : List (Text × List Edit)) : Worker τ :=
  match stepResult cur.source pool with
  | none => .running a a.cand (.build cands (attempts + 1))
  | some r =>
    .running a (mutated setup cur mutateFn r)
      (.dedup cands (attempts + 1) (mutated setup cur mutateFn r))

/-- One atomic step of `worker`. -/
def workerStep : ThreadStep (Shared τ) (Worker τ) (Input τ) (Event τ)
  | s, .starting, .next => some (s, .refreshed s .loopHead, [])
  | s, .running a cur .loopHead, .next =>
    some (s, .running a cur (if s.stop then .finished else .checkVersion), [])
  | s, .running a cur .checkVersion, .next =>
    some (s, .running a cur (if s.anchorVersion ≠ a.version then .refresh false else .build [] 0), [])
  | s, .running _ _ (.refresh reanchored), .next =>
    some (s, .refreshed s (if reanchored then .loopHead else .build [] 0), [])
  | s, .running a cur (.build cands attempts), .mutate restart mutateFn pool =>
    if cands.length < setup.batch ∧ attempts < setup.batch * 4 ∧ mutateFn ∈ setup.mutateFns then
      some (s, mutateStep setup a (if restart then a.cand else cur) cands attempts mutateFn pool, [])
    else none
  | s, .running a cur (.build cands attempts), .next =>
    if cands.length < setup.batch ∧ attempts < setup.batch * 4 then none
    else some (s, .running a cur (if cands = [] then .loopHead else .compile cands), [])
  | s, .running a cur (.dedup cands attempts cand), .next =>
    let h := setup.sha256 cand.source
    some (s.dedup h,
      .running a cur (.build (if s.isDup h then cands else cands ++ [cand]) attempts), [])
  | s, .running a cur (.compile cands), .compiled objs =>
    some (s, .running a cur (.scoreNext (cands.zip objs) none), [])
  | s, .running a cur (.scoreNext [] pick), .next => some (s, .running a cur (.afterBatch pick), [])
  | s, .running a cur (.scoreNext ((cand, compiled) :: todo) pick), .next =>
    some (s, .running a cur
      (if s.stop then .afterBatch pick else .score cand compiled todo pick), [])
  | s, .running a cur (.score _ false todo pick), .next =>
    some ({ s with compilesFailed := s.compilesFailed + 1 }, .running a cur (.scoreNext todo pick), [])
  | s, .running a cur (.score cand true todo pick), .reply r =>
    match r with
    | .vanished => some (s, .running a cur (.scoreNext todo pick), [])
    | .scoreError =>
      some ({ s with scoreErrs := s.scoreErrs + 1 }, .running a cur (.scoreNext todo pick), [])
    | .pipeClosed => some ({ s with stop := true }, .running a cur (.afterBatch pick), [])
    | .scored key asmHash => some (s, .running a cur (.record cand key asmHash todo pick), [])
  | s, .running a cur (.record cand key asmHash todo pick), .next =>
    let s' := s.record setup cand key asmHash
    some (s', .running a cur (.scoreNext todo
        (choosePick setup pick cand key (s.improves key) (s.isNovel asmHash) s'.bestScore)),
      s.recordEvents cand key asmHash)
  | s, .running a cur (.afterBatch none), .next => some (s, .running a cur .loopHead, [])
  | s, .running a cur (.afterBatch (some p)), .next =>
    some (s, .running a cur
      (if s.stop then .loopHead else if p.improved then .retype p else .precheck p), [])
  | s, .running a cur (.precheck p), .next =>
    some (s, .running a cur (if s.lateralBlocked p.key.raw then .refresh true else .retype p), [])
  | s, .running a cur (.retype _), .retyped none => some (s, .running a cur (.refresh true), [])
  | s, .running a cur (.retype p), .retyped (some types) =>
    some (s, .running a cur (.commit p types), [.typed p.cand.source types])
  | s, .running a cur (.commit p types), .next =>
    if s.reanchorOk p then
      some (s.reanchor setup p types, .running a cur (.refresh true),
        [.reanchored p.cand p.key p.improved])
    else some (s, .running a cur (.refresh true), [])
  | _, _, _ => none

/-- `sh.stop.set()` by the main thread: Ctrl-C, the timeout, the end of its wait. -/
def Shared.halt (s : Shared τ) : Shared τ := { s with stop := true }

abbrev SearchState (τ : Type) (jobs : Nat) := System (Shared τ) (Worker τ) (Event τ) jobs

def searchStart (jobs : Nat) : SearchState τ jobs := ⟨.initial setup, fun _ => .starting, []⟩

/-- The states a search with `jobs` workers reaches, in any interleaving. -/
def Searched {jobs : Nat} (c : SearchState τ jobs) : Prop :=
  Reaches (workerStep setup) Shared.halt (searchStart setup jobs) c

end

/-! ## Two swaps

A search whose one worker swaps the operands of two sums in turn. Each swap fixes
two relocations and leaves the bytes of the code as they are. -/

def swapBase : Bytes := ascii "extern int a, b, c, d;\nint f(void) { return (a + b) - (c + d); }\n"

def swapOnce : Bytes := ascii "extern int a, b, c, d;\nint f(void) { return (b + a) - (c + d); }\n"

def swapTwice : Bytes := ascii "extern int a, b, c, d;\nint f(void) { return (b + a) - (d + c); }\n"

def swapSha256 (source : Bytes) : Text :=
  if source = swapBase then
    "ef5f61b07cf6beabf33ada08f388e56355c41b6eeccb6336b2a143ea667bfe70".toList
  else if source = swapOnce then
    "218be948bb0495ebc9aba6133d7d53bfe361741c568980efd69abf5da2fb81c0".toList
  else if source = swapTwice then
    "f713f21b0e1d1189f1eef51b4ba9c1bedb3a41e9e169343e06a402200904138c".toList
  else []

def swapSetup : Setup Unit where
  sha256 := swapSha256
  prefixSplit _ := 0
  baseKey := ⟨4, 0, 0, 20, true⟩
  baseSource := swapBase
  types := ()
  split := 0
  batch := 2
  maxIters := none
  reanchorMode := .improve
  mutateFns := ["f".toList]

def commutative (left right : Nat) (l r : String) : Input Unit :=
  .mutate false "f".toList
    [("commutative".toList, [⟨left, left + 1, ascii r⟩, ⟨right, right + 1, ascii l⟩])]

/-- The worker of a search with one thread. -/
def onlyWorker : Fin 1 := 0

/-- The worker builds a batch of the two candidates, compiles it and scores both. -/
def swapMoves : List (Fin 1 × Input Unit) :=
  [.next, .next, .next, commutative 45 49 "a" "b", .next, commutative 55 59 "c" "d", .next, .next,
    .compiled [true, true], .next, .reply (.scored ⟨2, 0, 0, 10, true⟩ "5d41402abc4b2a76".toList),
    .next, .next, .reply (.scored ⟨0, 0, 0, 0, true⟩ "5d41402abc4b2a76".toList), .next].map (onlyWorker, ·)

theorem swapMoves_run : ∃ c : SearchState Unit 1, Searched swapSetup c ∧
    (c.shared.bestKey, c.shared.bestSource, c.shared.stop) =
      (⟨0, 0, 0, 0, true⟩, some swapTwice, true) ∧
    c.events.filterMap Event.foundSource? = [swapOnce] := by
  have h : (runSchedule (workerStep swapSetup) (searchStart swapSetup 1) swapMoves).map
      (fun c => ((c.shared.bestKey, c.shared.bestSource, c.shared.stop),
        c.events.filterMap Event.foundSource?)) =
      some ((⟨0, 0, 0, 0, true⟩, some swapTwice, true), [swapOnce]) := by
    unfold swapSetup swapSha256 swapBase swapOnce swapTwice ascii
    simp only [toList_literal rfl]
    decide +kernel
  obtain ⟨c, hrun, hc⟩ := Option.map_eq_some_iff.mp h
  obtain ⟨hshared, hfound⟩ := Prod.mk.inj hc
  exact ⟨c, runSchedule_reaches hrun, hshared, hfound⟩

end MeleeHarness.Permute
