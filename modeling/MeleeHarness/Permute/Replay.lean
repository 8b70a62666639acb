import MeleeHarness.Lib.Bytes
import MeleeHarness.Lib.Run
import MeleeHarness.Lib.Text
import Mathlib.Data.List.Sort

/-!
# Edits and replay traces

`apply_edits` splices replacements into a source, `step_result` applies the
first mutation pass that changes it, and a replay trace records such changes
with the hashes of the sources around them.

* `applyEdits_single`: one edit replaces one span;
* `stepResult_spec`: a mutation's source is its edits applied;
* `applyReplayTrace_append`: a recorded step extends what a trace replays to.
-/

namespace MeleeHarness.Permute

open MeleeHarness.Lib

/-- `(start, end, replacement)` -/
structure Edit where
  start : Int
  stop : Int
  replacement : Bytes
  deriving DecidableEq, Repr

/-- The `ValueError` of `apply_edits`. -/
inductive EditError where
  | overlappingEdits
  deriving DecidableEq, Repr

/-- The loop of `apply_edits` over the sorted edits. -/
def spliceEdits (src : Bytes) : Int → Bytes → List Edit → Except EditError Bytes
  | pos, out, [] => .ok (out ++ sliceFrom src pos)
  | pos, out, e :: rest =>
    if e.start < pos then .error .overlappingEdits
    else spliceEdits src e.stop (out ++ slice src pos e.start ++ e.replacement) rest

def applyEdits (src : Bytes) (edits : List Edit) : Except EditError Bytes :=
  spliceEdits src 0 [] (edits.insertionSort fun a b => a.start ≤ b.start)

theorem applyEdits_single (src : Bytes) (start stop : Nat) (replacement : Bytes) :
    applyEdits src [⟨start, stop, replacement⟩] =
      .ok (src.take start ++ replacement ++ src.drop stop) := by
  have hslice : slice src 0 start = src.take start := by
    simpa using slice_natCast src 0 start
  have hpos : ¬((start : Int) < 0) := by omega
  simp [applyEdits, spliceEdits, hpos, hslice, sliceFrom_natCast]

/-! ## Mutations -/

structure MutationResult where
  source : Bytes
  passName : Text
  edits : List Edit
  deriving DecidableEq, Repr

/-- `Mutator.step_result` over the passes in the order they are drawn, each with
the edits it proposes; a pass that declines or raises proposes none. -/
def stepResult (src : Bytes) : List (Text × List Edit) → Option MutationResult
  | [] => none
  | (name, edits) :: pool =>
    if edits = [] then stepResult src pool
    else
      match applyEdits src edits with
      | .error _ => stepResult src pool
      | .ok new => if new ≠ src then some ⟨new, name, edits⟩ else stepResult src pool

theorem stepResult_spec {src : Bytes} {pool : List (Text × List Edit)} {result : MutationResult}
    (h : stepResult src pool = some result) :
    applyEdits src result.edits = .ok result.source := by
  fun_induction stepResult src pool with
  | case1 => cases h
  | case2 name pool ih => exact ih h
  | case3 name edits pool hne e herr ih => exact ih h
  | case4 name edits pool hne new hok hnew =>
    cases h
    exact hok
  | case5 => simp_all

/-! ## Traces -/

structure ReplayStep where
  kind : Text
  mutateFn : Option Text
  passName : Text
  inputSha256 : Text
  outputSha256 : Text
  edits : List Edit
  note : Option Text := none
  deriving DecidableEq, Repr

abbrev ReplayTrace := List ReplayStep

/-- What `apply_replay_trace` raises, with the number of the step. -/
inductive ReplayError where
  | inputHashMismatch (step : Nat) (got expected : Text)
  | overlappingEdits (step : Nat)
  | outputHashMismatch (step : Nat) (got expected : Text)
  deriving DecidableEq, Repr

section
variable (sha256 : Bytes → Text)

def makeReplayStep (kind : Text) (mutateFn : Option Text) (passName : Text) (before : Bytes)
    (edits : List Edit) (after : Bytes) (note : Option Text) : ReplayStep :=
  ⟨kind, mutateFn, passName, sha256 before, sha256 after, edits, note⟩

/-- One round of `apply_replay_trace`, the `i`th. -/
def applyReplayStep (i : Nat) (cur : Bytes) (step : ReplayStep) : Except ReplayError Bytes :=
  if sha256 cur ≠ step.inputSha256 then
    .error (.inputHashMismatch i (sha256 cur) step.inputSha256)
  else
    match applyEdits cur step.edits with
    | .error _ => .error (.overlappingEdits i)
    | .ok new =>
      if sha256 new ≠ step.outputSha256 then
        .error (.outputHashMismatch i (sha256 new) step.outputSha256)
      else .ok new

/-- The rounds of `apply_replay_trace` from the `i`th on. -/
def replayFrom : Nat → Bytes → ReplayTrace → Except ReplayError Bytes
  | _, cur, [] => .ok cur
  | i, cur, step :: rest => applyReplayStep sha256 i cur step >>= fun new => replayFrom (i + 1) new rest

def applyReplayTrace (baseSource : Bytes) (trace : ReplayTrace) : Except ReplayError Bytes :=
  replayFrom sha256 1 baseSource trace

theorem applyReplayStep_make {before after : Bytes} {edits : List Edit}
    (h : applyEdits before edits = .ok after) (i : Nat) (kind : Text) (mutateFn : Option Text)
    (passName : Text) (note : Option Text) :
    applyReplayStep sha256 i before
      (makeReplayStep sha256 kind mutateFn passName before edits after note) = .ok after := by
  simp [applyReplayStep, makeReplayStep, h]

theorem replayFrom_append (i : Nat) (cur : Bytes) (first second : ReplayTrace) :
    replayFrom sha256 i cur (first ++ second) =
      replayFrom sha256 i cur first >>= fun mid => replayFrom sha256 (i + first.length) mid second := by
  induction first generalizing i cur with
  | nil => rfl
  | cons step rest ih =>
    simp only [List.cons_append, replayFrom, bind_assoc, List.length_cons]
    congr
    funext new
    rw [ih, show i + 1 + rest.length = i + (rest.length + 1) by omega]

theorem applyReplayTrace_append {base before after : Bytes} {trace : ReplayTrace}
    {edits : List Edit} (replays : applyReplayTrace sha256 base trace = .ok before)
    (h : applyEdits before edits = .ok after) (kind : Text) (mutateFn : Option Text)
    (passName : Text) (note : Option Text) :
    applyReplayTrace sha256 base
      (trace ++ [makeReplayStep sha256 kind mutateFn passName before edits after note]) =
      .ok after := by
  rw [applyReplayTrace, replayFrom_append]
  refine bind_ok_iff.mpr ⟨before, replays, ?_⟩
  exact bind_ok_iff.mpr ⟨after, applyReplayStep_make sha256 h _ _ _ _ _, rfl⟩

end

end MeleeHarness.Permute
