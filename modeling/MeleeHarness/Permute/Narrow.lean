import MeleeHarness.Permute.Replay
import MeleeHarness.Permute.ScoreKey

/-!
# Narrowing

`narrow_best_source` tries to revert parts of the best source, and then to drop
casts from it, and keeps what scores no worse. Line matching, the syntax tree and
what comes of each trial are given from outside.

* `attempt_kept`: a trial keeps the pair of source and trace, whatever comes of it;
* `narrowBestSource_exit`: what each trial keeps holds of what is returned, at
  whatever point narrowing ends;
* `narrowBestSource_kept`, `narrowBestSource_rejects`: so the pair is kept, and
  the best is returned as it was if no trial is taken up.
-/

namespace MeleeHarness.Permute

open MeleeHarness.Lib

/-! ## Changed lines -/

inductive OpTag where
  | equal
  | replace
  | delete
  | insert
  deriving DecidableEq, Repr

/-- An opcode of a matcher over `m` and `n` lines. -/
structure Opcode (m n : Nat) where
  tag : OpTag
  i1 : Nat
  i2 : Nat
  j1 : Nat
  j2 : Nat
  i_le : i1 ≤ i2
  i2_le : i2 ≤ m
  j_le : j1 ≤ j2
  j2_le : j2 ≤ n

/-- The opcode of a matcher that finds no line of one side in the other. -/
def replaceAll (a b : List Bytes) : List (Opcode a.length b.length) :=
  [⟨.replace, 0, a.length, 0, b.length, Nat.zero_le _, Nat.le_refl _, Nat.zero_le _, Nat.le_refl _⟩]

inductive Granularity where
  | chunk
  | line
  deriving DecidableEq, Repr

def Granularity.name : Granularity → Text
  | .chunk => "chunk".toList
  | .line => "line".toList

structure NarrowEdit where
  tag : OpTag
  baseStart : Nat
  baseEnd : Nat
  candStart : Nat
  candEnd : Nat
  baseLineStart : Nat
  baseLineEnd : Nat
  candLineStart : Nat
  candLineEnd : Nat
  deriving DecidableEq, Repr

def NarrowEdit.span (first last : Nat) : Text :=
  if first ≥ last then Nat.toDigits 10 first
  else Nat.toDigits 10 first ++ '-' :: Nat.toDigits 10 last

def NarrowEdit.describe (e : NarrowEdit) : Text :=
  let base := "base lines ".toList ++ span e.baseLineStart e.baseLineEnd
  let cand := "candidate lines ".toList ++ span e.candLineStart e.candLineEnd
  match e.tag with
  | .insert => cand
  | .delete => base
  | .equal | .replace => base ++ " -> ".toList ++ cand

/-- `_line_offsets` -/
def lineOffsets (lines : List Bytes) : List Nat :=
  lines.scanl (fun pos line => pos + line.length) 0

/-- The spans, in lines, that an opcode stands for. -/
def opcodeSpans {m n : Nat} (granularity : Granularity) (op : Opcode m n) :
    List (OpTag × Nat × Nat × Nat × Nat) :=
  match op.tag, granularity with
  | .equal, _ => []
  | tag, .chunk => [(tag, op.i1, op.i2, op.j1, op.j2)]
  | .insert, .line =>
    (List.range' op.j1 (op.j2 - op.j1)).map fun j => (.insert, op.i1, op.i1, j, j + 1)
  | .delete, .line =>
    (List.range' op.i1 (op.i2 - op.i1)).map fun i => (.delete, i, i + 1, op.j1, op.j1)
  | .replace, .line =>
    let common := min (op.i2 - op.i1) (op.j2 - op.j1)
    (List.range common).map (fun k =>
      (.replace, op.i1 + k, op.i1 + k + 1, op.j1 + k, op.j1 + k + 1)) ++
    (List.range' (op.i1 + common) (op.i2 - (op.i1 + common))).map (fun i =>
      (.delete, i, i + 1, op.j1 + common, op.j1 + common)) ++
    (List.range' (op.j1 + common) (op.j2 - (op.j1 + common))).map fun j =>
      (.insert, op.i1 + common, op.i1 + common, j, j + 1)

/-! ## Casts -/

inductive NodeType where
  | castExpression
  | parenthesizedExpression
  | other
  deriving DecidableEq, Repr

/-- A syntax node, with the span of its `value` field and its named children. -/
inductive Node where
  | mk (type : NodeType) (startByte endByte startRow : Nat) (value : Option (Nat × Nat))
      (namedChildren : List Node)

namespace Node

def type : Node → NodeType
  | mk type .. => type

def startByte : Node → Nat
  | mk _ startByte .. => startByte

def endByte : Node → Nat
  | mk _ _ endByte .. => endByte

def startRow : Node → Nat
  | mk _ _ _ startRow .. => startRow

def value : Node → Option (Nat × Nat)
  | mk _ _ _ _ value _ => value

def namedChildren : Node → List Node
  | mk _ _ _ _ _ namedChildren => namedChildren

mutual

/-- `iter_subtree`, each node with its parent. -/
def iterSubtree (parent : Option Node) : Node → List (Node × Option Node)
  | mk type startByte endByte startRow value namedChildren =>
    let n := mk type startByte endByte startRow value namedChildren
    (n, parent) :: iterChildren (some n) namedChildren

/-- The stack gives the last child back first. -/
def iterChildren (parent : Option Node) : List Node → List (Node × Option Node)
  | [] => []
  | child :: rest => iterChildren parent rest ++ iterSubtree parent child

end

end Node

/-- An entry of `_simplify_cast_edits`. -/
structure CastEdit where
  start : Nat
  stop : Nat
  replacement : Bytes
  note : Text
  deriving DecidableEq, Repr

/-! ## Trials -/

/-- What comes of compiling and scoring a trial. -/
inductive Outcome where
  | compileFailed
  | scoreError
  | serverGone
  | scored (key : ScoreKey)
  deriving DecidableEq, Repr

/-- What narrowing takes from outside: the hash, the line matcher, the parser,
and what comes of the `k`th trial. -/
structure Narrower where
  sha256 : Bytes → Text
  getOpcodes : (a b : List Bytes) → List (Opcode a.length b.length)
  parse : Bytes → Node
  outcome : Nat → Bytes → Outcome

structure NarrowStats where
  passes : Nat := 0
  attempts : Nat := 0
  accepted : Nat := 0
  compileFailed : Nat := 0
  scoreErrors : Nat := 0
  deriving DecidableEq, Repr

/-- The variables of `narrow_best_source`. -/
structure NarrowState where
  current : Bytes
  currentKey : ScoreKey
  currentTrace : ReplayTrace
  stats : NarrowStats
  acceptedThisPass : Nat

section
variable (env : Narrower)

/-- `_changed_line_edits` -/
def changedLineEdits (base cand : Bytes) (granularity : Granularity) : List NarrowEdit :=
  let baseLines := linesKeepends base
  let candLines := linesKeepends cand
  let baseOffset (i : Nat) := (lineOffsets baseLines).getD i 0
  let candOffset (j : Nat) := (lineOffsets candLines).getD j 0
  ((env.getOpcodes baseLines candLines).flatMap (opcodeSpans granularity)).map
    fun (tag, i1, i2, j1, j2) =>
      ⟨tag, baseOffset i1, baseOffset i2, candOffset j1, candOffset j2, i1 + 1, i2, j1 + 1, j2⟩

/-- `_changed_cand_lines` -/
def changedCandLines (base cand : Bytes) : List Nat :=
  (env.getOpcodes (linesKeepends base) (linesKeepends cand)).flatMap fun op =>
    if op.tag = .replace ∨ op.tag = .insert then List.range' op.j1 (op.j2 - op.j1) else []

/-- The entry for a node, if it is a cast on a changed line. -/
def castEdit? (cand : Bytes) (changed : List Nat) (n : Node) (parent : Option Node) :
    Option CastEdit :=
  if n.type ≠ .castExpression ∨ n.startRow ∉ changed then none
  else
    n.value.map fun (valueStart, valueEnd) =>
      let target := (parent.filter (·.type = .parenthesizedExpression)).getD n
      ⟨target.startByte, target.endByte, (cand.take valueEnd).drop valueStart,
        "drop cast at line ".toList ++ Nat.toDigits 10 (n.startRow + 1)⟩

/-- `_simplify_cast_edits` -/
def simplifyCastEdits (base cand : Bytes) : List CastEdit :=
  let changed := changedCandLines env base cand
  if changed = [] then []
  else
    (((env.parse cand).iterSubtree none).filterMap fun (n, parent) =>
      castEdit? cand changed n parent).insertionSort fun a b => a.start ≤ b.start

/-- One trial: `edit` applied to the current source. The loop goes on with `ok`;
when the score server is gone narrowing returns what it has. -/
def attempt (passName note : Text) (st : NarrowState) (start stop : Nat) (replacement : Bytes) :
    Except NarrowState NarrowState :=
  let trial := st.current.take start ++ replacement ++ st.current.drop stop
  if trial = st.current then .ok st
  else
    let outcome := env.outcome st.stats.attempts trial
    let asked := { st with stats := { st.stats with attempts := st.stats.attempts + 1 } }
    match outcome with
    | .serverGone => .error asked
    | .compileFailed =>
      .ok { asked with
        stats := { asked.stats with compileFailed := asked.stats.compileFailed + 1 } }
    | .scoreError =>
      .ok { asked with stats := { asked.stats with scoreErrors := asked.stats.scoreErrors + 1 } }
    | .scored key =>
      if key ≤ st.currentKey then
        .ok { asked with
          current := trial
          currentKey := key
          currentTrace := st.currentTrace ++ [makeReplayStep env.sha256 "narrow".toList none
            passName st.current [⟨start, stop, replacement⟩] trial (some note)]
          stats := { asked.stats with accepted := asked.stats.accepted + 1 }
          acceptedThisPass := st.acceptedThisPass + 1 }
      else .ok asked

def beginPass (st : NarrowState) : NarrowState :=
  { st with stats := { st.stats with passes := st.stats.passes + 1 }, acceptedThisPass := 0 }

/-- `_revert_edit` and what comes of it. -/
def revert (base : Bytes) (granularity : Granularity) (st : NarrowState) (edit : NarrowEdit) :
    Except NarrowState NarrowState :=
  attempt env ("revert_".toList ++ granularity.name) edit.describe st edit.candStart edit.candEnd
    ((base.take edit.baseEnd).drop edit.baseStart)

/-- The passes of one granularity. -/
def revertPasses (base : Bytes) (granularity : Granularity) :
    Nat → NarrowState → Except NarrowState NarrowState
  | 0, st => .ok st
  | passes + 1, st =>
    let edits := changedLineEdits env base st.current granularity
    if edits = [] then .error st
    else
      edits.reverse.foldlM (revert env base granularity) (beginPass st) >>= fun st =>
        if st.acceptedThisPass = 0 then .ok st else revertPasses base granularity passes st

def dropCast (st : NarrowState) (edit : CastEdit) : Except NarrowState NarrowState :=
  attempt env "simplify_cast".toList edit.note st edit.start edit.stop edit.replacement

/-- The passes of the simplify stage. -/
def simplifyPasses (base : Bytes) : Nat → NarrowState → Except NarrowState NarrowState
  | 0, st => .ok st
  | passes + 1, st =>
    let castEdits := simplifyCastEdits env base st.current
    if castEdits = [] then .ok st
    else
      castEdits.reverse.foldlM (dropCast env) (beginPass st) >>= fun st =>
        if st.acceptedThisPass = 0 then .ok st else simplifyPasses base passes st

def narrowBestSource (baseSource bestSource : Bytes) (bestKey : ScoreKey) (trace : ReplayTrace)
    (maxPasses : Int) : NarrowState :=
  let st : NarrowState := ⟨bestSource, bestKey, trace, {}, 0⟩
  if maxPasses ≤ 0 ∨ baseSource = bestSource then st
  else
    exitState (revertPasses env baseSource .chunk maxPasses.toNat st >>= fun st =>
      revertPasses env baseSource .line maxPasses.toNat st >>= fun st =>
        simplifyPasses env baseSource maxPasses.toNat st)

/-! ## What narrowing keeps -/

/-- What holds of the variables at every point, started on a best with its trace. -/
structure Kept (base best : Bytes) (key : ScoreKey) (trace : ReplayTrace) (st : NarrowState) :
    Prop where
  replays : applyReplayTrace env.sha256 base st.currentTrace = .ok st.current
  key_le : st.currentKey ≤ key
  untouched : st.stats.accepted = 0 →
    st.current = best ∧ st.currentKey = key ∧ st.currentTrace = trace
  reported : 0 < st.stats.accepted → ∃ k, env.outcome k st.current = .scored st.currentKey

variable {env : Narrower} {base best : Bytes} {key : ScoreKey} {trace : ReplayTrace}
  {st : NarrowState}

/-- A trial that is not taken up, or the start of a pass. -/
theorem Kept.asked {st' : NarrowState} (h : Kept env base best key trace st)
    (current : st'.current = st.current) (currentKey : st'.currentKey = st.currentKey)
    (currentTrace : st'.currentTrace = st.currentTrace)
    (accepted : st'.stats.accepted = st.stats.accepted) :
    Kept env base best key trace st' := by
  refine ⟨?_, currentKey ▸ h.key_le, ?_, ?_⟩
  · rw [currentTrace, current]
    exact h.replays
  · rw [accepted, current, currentKey, currentTrace]
    exact h.untouched
  · rw [accepted, current, currentKey]
    exact h.reported

theorem attempt_kept (h : Kept env base best key trace st) (passName note : Text)
    (start stop : Nat) (replacement : Bytes) :
    Kept env base best key trace
      (exitState (attempt env passName note st start stop replacement)) := by
  simp only [attempt]
  split
  · exact h
  · split
    · exact h.asked rfl rfl rfl rfl
    · exact h.asked rfl rfl rfl rfl
    · exact h.asked rfl rfl rfl rfl
    · next k houtcome =>
      split
      · next hle =>
        refine ⟨?_, hle.trans h.key_le, fun none => ?_, fun _ => ?_⟩
        · exact applyReplayTrace_append env.sha256 h.replays
            (applyEdits_single st.current start stop replacement) _ _ _ _
        · cases none
        · exact ⟨st.stats.attempts, houtcome⟩
      · exact h.asked rfl rfl rfl rfl

/-! ## Whole runs -/

section
variable {P : NarrowState → Prop} (begins : ∀ st, P st → P (beginPass st))
include begins

/-- One pass over `edits`, and the passes after it if it took anything up. -/
theorem pass_exit {α : Type} {edits : List α}
    {trial : NarrowState → α → Except NarrowState NarrowState}
    {later : NarrowState → Except NarrowState NarrowState}
    (one : ∀ st edit, P st → P (exitState (trial st edit)))
    (more : ∀ st, P st → P (exitState (later st))) (h : P st) :
    P (exitState (edits.foldlM trial (beginPass st) >>= fun st =>
      if st.acceptedThisPass = 0 then .ok st else later st)) := by
  apply exit_bind
  · exact exit_foldlM P one (begins st h) edits
  · intro st hst
    split
    · exact hst
    · exact more st hst

variable (tries : ∀ passName note st start stop replacement, P st →
  P (exitState (attempt env passName note st start stop replacement)))
include tries

theorem revertPasses_exit (granularity : Granularity) (passes : Nat) (h : P st) :
    P (exitState (revertPasses env base granularity passes st)) := by
  induction passes generalizing st with
  | zero => exact h
  | succ passes ih =>
    simp only [revertPasses]
    split
    · exact h
    · exact pass_exit begins (fun st edit => tries _ _ st _ _ _) (fun st => ih) h

theorem simplifyPasses_exit (passes : Nat) (h : P st) :
    P (exitState (simplifyPasses env base passes st)) := by
  induction passes generalizing st with
  | zero => exact h
  | succ passes ih =>
    simp only [simplifyPasses]
    split
    · exact h
    · exact pass_exit begins (fun st edit => tries _ _ st _ _ _) (fun st => ih) h

/-- What a trial and the start of a pass keep holds of what narrowing returns. -/
theorem narrowBestSource_exit (maxPasses : Int) (h : P ⟨best, key, trace, {}, 0⟩) :
    P (narrowBestSource env base best key trace maxPasses) := by
  simp only [narrowBestSource]
  split
  · exact h
  · apply exit_bind P (revertPasses_exit begins tries .chunk _ h)
    intro st hchunk
    apply exit_bind P (revertPasses_exit begins tries .line _ hchunk)
    intro st hline
    exact simplifyPasses_exit begins tries _ hline

end

theorem narrowBestSource_kept (replays : applyReplayTrace env.sha256 base trace = .ok best)
    (maxPasses : Int) :
    Kept env base best key trace (narrowBestSource env base best key trace maxPasses) := by
  apply narrowBestSource_exit
  · intro st h
    exact h.asked rfl rfl rfl rfl
  · intro passName note st start stop replacement h
    exact attempt_kept h passName note start stop replacement
  · exact ⟨replays, le_refl _, fun _ => ⟨rfl, rfl, rfl⟩, fun some => absurd some (lt_irrefl 0)⟩

/-- If every trial scores worse than the best, narrowing returns the best. -/
theorem narrowBestSource_rejects (worse : ∀ k source, ∀ trialKey,
      env.outcome k source = .scored trialKey → ¬trialKey ≤ key) (maxPasses : Int) :
    (narrowBestSource env base best key trace maxPasses).current = best ∧
      (narrowBestSource env base best key trace maxPasses).currentKey = key := by
  apply narrowBestSource_exit (P := fun st => st.current = best ∧ st.currentKey = key)
  · intro st h
    exact h
  · rintro passName note st start stop replacement ⟨hcurrent, hkey⟩
    simp only [attempt]
    split
    · exact ⟨hcurrent, hkey⟩
    · split
      · exact ⟨hcurrent, hkey⟩
      · exact ⟨hcurrent, hkey⟩
      · exact ⟨hcurrent, hkey⟩
      · next k houtcome =>
        rw [if_neg (hkey ▸ worse _ _ k houtcome)]
        exact ⟨hcurrent, hkey⟩
  · exact ⟨rfl, rfl⟩

end

end MeleeHarness.Permute
