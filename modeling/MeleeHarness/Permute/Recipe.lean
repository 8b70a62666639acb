import MeleeHarness.Lib.Base64
import MeleeHarness.Lib.JsonRoundTrip
import MeleeHarness.Permute.Narrow

/-!
# Replay recipes

A recipe is written as JSON, with the replacement texts in base64, and read back
to rebuild the final source.

* `stepFromJson_stepJson`: a step reads back as it was written;
* `readReplayRecipe_write`: so does a whole recipe;
* `rebuild_write`: and it rebuilds the source its trace replays to;
* `replayCandidate_sound`: what a replay of any recipe reports.
-/

namespace MeleeHarness.Permute

open MeleeHarness.Lib

/-! ## Writing -/

def scoreKeyJson (key : ScoreKey) : Json :=
  .obj [("hard".toList, .int key.hard), ("regswap".toList, .int key.regswap),
    ("stack".toList, .int key.stack), ("raw".toList, .int key.raw),
    ("breakdown".toList, .bool key.breakdown)]

def editJson (edit : Edit) : Json :=
  .obj [("start".toList, .int edit.start), ("end".toList, .int edit.stop),
    ("replacement_b64".toList, .str (b64encode edit.replacement))]

def optionalJson : Option Text → Json
  | none => .null
  | some s => .str s

def stepJson (step : ReplayStep) : Json :=
  .obj [("kind".toList, .str step.kind), ("mutate_fn".toList, optionalJson step.mutateFn),
    ("pass_name".toList, .str step.passName), ("input_sha256".toList, .str step.inputSha256),
    ("output_sha256".toList, .str step.outputSha256), ("note".toList, optionalJson step.note),
    ("edits".toList, .arr (step.edits.map editJson))]

/-- What `write_replay_recipe` is told. -/
structure RecipeData where
  unit : Text
  fn : Text
  baseSource : Bytes
  finalSource : Bytes
  baseKey : ScoreKey
  finalKey : ScoreKey
  trace : ReplayTrace

def recipeJson (sha256 : Bytes → Text) (r : RecipeData) : Json :=
  .obj [("version".toList, .int 1), ("unit".toList, .str r.unit), ("function".toList, .str r.fn),
    ("base_sha256".toList, .str (sha256 r.baseSource)),
    ("final_sha256".toList, .str (sha256 r.finalSource)),
    ("base_score".toList, scoreKeyJson r.baseKey), ("final_score".toList, scoreKeyJson r.finalKey),
    ("steps".toList, .arr (r.trace.map stepJson))]

/-- The text of the file that `write_replay_recipe` writes. -/
def writeReplayRecipe (sha256 : Bytes → Text) (r : RecipeData) : Text :=
  dumps (recipeJson sha256 r) ++ ['\n']

/-! ## Reading -/

/-- What reading a recipe can raise. `unmodelled` is a value that Python's `str`,
`int`, `==` or `for` would take and that no recipe is written with. -/
inductive RecipeError where
  | jsonDecode
  | notADict
  | unsupportedVersion (version : Option Json)
  | missingKey (key : Text)
  | invalidBase64
  | unmodelled

/-- `data.get(key)` -/
def getOf (data : Json) (key : Text) : Except RecipeError (Option Json) :=
  match data with
  | .obj _ => .ok (data.get? key)
  | _ => .error .notADict

/-- `data[key]` -/
def item (data : Json) (key : Text) : Except RecipeError Json :=
  getOf data key >>= fun value =>
    match value with
    | some value => .ok value
    | none => .error (.missingKey key)

/-- `str(value)` -/
def strOf : Json → Except RecipeError Text
  | .str s => .ok s
  | .int n => .ok (decimal n)
  | .null => .ok "None".toList
  | .bool true => .ok "True".toList
  | .bool false => .ok "False".toList
  | .float _ | .arr _ | .obj _ => .error .unmodelled

/-- `int(value)` -/
def intOf : Json → Except RecipeError Int
  | .int n => .ok n
  | .bool true => .ok 1
  | .bool false => .ok 0
  | _ => .error .unmodelled

/-- `data.get(key)` where a text or nothing is meant. -/
def optionalText (data : Json) (key : Text) : Except RecipeError (Option Text) :=
  getOf data key >>= fun value =>
    match value with
    | none | some .null => .ok none
    | some (.str s) => .ok (some s)
    | some _ => .error .unmodelled

/-- `data.get(key, [])` as something to go through. -/
def itemsOf (data : Json) (key : Text) : Except RecipeError (List Json) :=
  getOf data key >>= fun value =>
    match value with
    | none => .ok []
    | some (.arr items) => .ok items
    | some _ => .error .unmodelled

def editFromJson (edit : Json) : Except RecipeError Edit := do
  let start ← item edit "start".toList >>= intOf
  let stop ← item edit "end".toList >>= intOf
  let encoded ← item edit "replacement_b64".toList >>= strOf
  match b64decode encoded with
  | some replacement => pure ⟨start, stop, replacement⟩
  | none => throw .invalidBase64

def stepFromJson (data : Json) : Except RecipeError ReplayStep := do
  let edits ← itemsOf data "edits".toList >>= fun edits => edits.mapM editFromJson
  let kind ← item data "kind".toList >>= strOf
  let mutateFn ← optionalText data "mutate_fn".toList
  let passName ← item data "pass_name".toList >>= strOf
  let inputSha256 ← item data "input_sha256".toList >>= strOf
  let outputSha256 ← item data "output_sha256".toList >>= strOf
  let note ← optionalText data "note".toList
  pure ⟨kind, mutateFn, passName, inputSha256, outputSha256, edits, note⟩

/-- The recipe's members with its steps read. -/
structure Recipe where
  data : Json
  steps : ReplayTrace

/-- `read_replay_recipe` of a file with this text. -/
def readReplayRecipe (text : Text) : Except RecipeError Recipe :=
  match loads text with
  | none => .error .jsonDecode
  | some data => do
    match ← getOf data "version".toList with
    | some (.int 1) | some (.bool true) =>
      let steps ← itemsOf data "steps".toList >>= fun steps => steps.mapM stepFromJson
      pure ⟨data, steps⟩
    | some (.float _) => throw .unmodelled
    | version => throw (.unsupportedVersion version)

/-! ## Replaying -/

inductive ReplayFailure where
  | unreadable (e : RecipeError)
  | otherFunction (replayFor : Text)
  | sourceNotFound
  | baseMismatch (current : Text) (replay : Json)
  | replayFailed (e : ReplayError)
  | finalMismatch (replayed : Text) (recipe : Json)
  | unscored

/-- `value == s` -/
def isText (s : Text) : Json → Bool
  | .str t => t = s
  | _ => false

/-- A member of the recipe; reading it may raise. -/
def Recipe.field (recipe : Recipe) (key : Text) : Except ReplayFailure Json :=
  (item recipe.data key).mapError .unreadable

/-- `str(recipe[key])` -/
def Recipe.text (recipe : Recipe) (key : Text) : Except ReplayFailure Text :=
  (item recipe.data key >>= strOf).mapError .unreadable

/-- `replay_candidate` up to the rebuilt source, for a recipe file with this text;
`sourceOf` is the current source of a unit. -/
def rebuild (sha256 : Bytes → Text) (sourceOf : Text → Option Bytes) (funcName : Option Text)
    (text : Text) : Except ReplayFailure (Recipe × Bytes) := do
  let recipe ← (readReplayRecipe text).mapError .unreadable
  let unit ← recipe.text "unit".toList
  let fn ← recipe.text "function".toList
  if funcName.any (· ≠ fn) then throw (.otherFunction fn)
  match sourceOf unit with
  | none => throw .sourceNotFound
  | some baseSource =>
    let baseSha ← recipe.field "base_sha256".toList
    if !isText (sha256 baseSource) baseSha then throw (.baseMismatch (sha256 baseSource) baseSha)
    let finalSource ← (applyReplayTrace sha256 baseSource recipe.steps).mapError .replayFailed
    let finalSha ← recipe.field "final_sha256".toList
    if !isText (sha256 finalSource) finalSha then
      throw (.finalMismatch (sha256 finalSource) finalSha)
    pure (recipe, finalSource)

inductive ApplyMode where
  | onMatch
  | always
  | never
  deriving DecidableEq, Repr

/-- `do_apply` -/
def ApplyMode.applies (mode : ApplyMode) (key : ScoreKey) : Bool :=
  mode = .always || (mode = .onMatch && key.raw = 0)

/-- What a successful replay reports, and whether it writes the source. -/
structure Replayed where
  steps : Nat
  key : ScoreKey
  finalSource : Bytes
  applied : Bool

/-- `replay_candidate`; `score` is `_score_source_for_report` on the unit. -/
def replayCandidate (sha256 : Bytes → Text) (sourceOf : Text → Option Bytes)
    (score : Bytes → Option ScoreKey) (funcName : Option Text) (apply : ApplyMode) (text : Text) :
    Except ReplayFailure Replayed := do
  let (recipe, finalSource) ← rebuild sha256 sourceOf funcName text
  match score finalSource with
  | none => throw .unscored
  | some key => pure ⟨recipe.steps.length, key, finalSource, apply.applies key⟩

/-! ## What is replayed -/

section
variable {sha256 : Bytes → Text} {sourceOf : Text → Option Bytes}

theorem mapError_ok {ε ε' α : Type} {f : ε → ε'} {x : Except ε α} {a : α}
    (h : x.mapError f = .ok a) : x = .ok a := by
  cases x with
  | error e => cases h
  | ok b =>
    cases h
    rfl

/-- What comes behind an `if` that raises. -/
theorem unless_ok {ε α : Type} {c : Prop} [Decidable c] {e : ε} {rest : PUnit → Except ε α} {a : α}
    (h : (if c then throw e >>= rest else rest ⟨⟩) = .ok a) : rest ⟨⟩ = .ok a := by
  split_ifs at h with hc
  · cases h
  · exact h

theorem rebuild_sound {funcName : Option Text} {text : Text} {recipe : Recipe} {finalSource : Bytes}
    (h : rebuild sha256 sourceOf funcName text = .ok (recipe, finalSource)) :
    ∃ unit base, readReplayRecipe text = .ok recipe ∧ recipe.text "unit".toList = .ok unit ∧
      sourceOf unit = some base ∧ applyReplayTrace sha256 base recipe.steps = .ok finalSource := by
  obtain ⟨read, hread, h⟩ := bind_ok_iff.mp h
  obtain ⟨unit, hunit, h⟩ := bind_ok_iff.mp h
  obtain ⟨fn, -, h⟩ := bind_ok_iff.mp h
  have h := unless_ok h
  cases hsource : sourceOf unit with
  | none =>
    rw [hsource] at h
    cases h
  | some base =>
    rw [hsource] at h
    obtain ⟨baseSha, -, h⟩ := bind_ok_iff.mp h
    have h := unless_ok h
    obtain ⟨final, hfinal, h⟩ := bind_ok_iff.mp h
    obtain ⟨finalSha, -, h⟩ := bind_ok_iff.mp h
    cases unless_ok h
    exact ⟨unit, base, mapError_ok hread, hunit, hsource, mapError_ok hfinal⟩

/-- Whatever recipe is replayed, what is reported is a source that its trace replays to from the
current one, under the key that was reported for it; it is written only if that is asked for. -/
theorem replayCandidate_sound {score : Bytes → Option ScoreKey} {funcName : Option Text}
    {apply : ApplyMode} {text : Text} {r : Replayed}
    (h : replayCandidate sha256 sourceOf score funcName apply text = .ok r) :
    ∃ recipe unit base, readReplayRecipe text = .ok recipe ∧ recipe.text "unit".toList = .ok unit ∧
      sourceOf unit = some base ∧ applyReplayTrace sha256 base recipe.steps = .ok r.finalSource ∧
      r.steps = recipe.steps.length ∧ score r.finalSource = some r.key ∧
      (r.applied = true ↔ apply = .always ∨ apply = .onMatch ∧ r.key.raw = 0) := by
  obtain ⟨⟨recipe, finalSource⟩, hrebuild, h⟩ := bind_ok_iff.mp h
  obtain ⟨unit, base, hread, hunit, hsource, hreplays⟩ := rebuild_sound hrebuild
  cases hscore : score finalSource with
  | none => simp [hscore, throw, throwThe, MonadExceptOf.throw] at h
  | some key =>
    simp only [hscore] at h
    cases h
    refine ⟨recipe, unit, base, hread, hunit, hsource, hreplays, rfl, hscore, ?_⟩
    simp [ApplyMode.applies]
end

/-! ## Recipes read back -/

theorem wholeItems_map {α : Type} {f : α → Json} (h : ∀ x, (f x).Whole) (xs : List α) :
    WholeItems (xs.map f) := by
  induction xs with
  | nil => trivial
  | cons x xs ih => exact ⟨h x, ih⟩

theorem whole_optionalJson (s : Option Text) : (optionalJson s).Whole := by
  cases s <;> trivial

theorem whole_stepJson (step : ReplayStep) : (stepJson step).Whole := by
  have hedits : WholeItems (step.edits.map editJson) := wholeItems_map (fun _ => by
    simp [editJson, Json.Whole, WholeMembers]) _
  simp [stepJson, Json.Whole, WholeMembers, whole_optionalJson, hedits]

theorem whole_recipeJson (sha256 : Bytes → Text) (r : RecipeData) :
    (recipeJson sha256 r).Whole := by
  have hsteps : WholeItems (r.trace.map stepJson) := wholeItems_map whole_stepJson _
  simp [recipeJson, scoreKeyJson, Json.Whole, WholeMembers, hsteps]

theorem item_of_mem {members : List (Text × Json)} {key : Text} {value : Json}
    (distinct : (members.map Prod.fst).Nodup) (mem : (key, value) ∈ members) :
    item (.obj members) key = .ok value := by
  simp only [item, getOf, Json.get?_of_mem distinct mem]
  rfl

theorem itemsOf_of_mem {members : List (Text × Json)} {key : Text} {items : List Json}
    (distinct : (members.map Prod.fst).Nodup) (mem : (key, .arr items) ∈ members) :
    itemsOf (.obj members) key = .ok items := by
  simp only [itemsOf, getOf, Json.get?_of_mem distinct mem]
  rfl

theorem optionalText_of_mem {members : List (Text × Json)} {key : Text} {s : Option Text}
    (distinct : (members.map Prod.fst).Nodup) (mem : (key, optionalJson s) ∈ members) :
    optionalText (.obj members) key = .ok s := by
  simp only [optionalText, getOf, Json.get?_of_mem distinct mem]
  cases s <;> rfl

theorem mapM_map_ok {α : Type} {f : α → Json} {g : Json → Except RecipeError α}
    (h : ∀ x, g (f x) = .ok x) (xs : List α) : (xs.map f).mapM g = .ok xs := by
  rw [mapM_ok_iff, List.forall₂_map_left_iff]
  exact List.forall₂_same.mpr fun x _ => h x

theorem editFromJson_editJson (edit : Edit) : editFromJson (editJson edit) = .ok edit := by
  have distinct : ["start".toList, "end".toList, "replacement_b64".toList].Nodup :=
    nodup_literals ["start", "end", "replacement_b64"] (by decide)
  have hstart : item (editJson edit) "start".toList = .ok (.int edit.start) :=
    item_of_mem distinct (by simp)
  have hend : item (editJson edit) "end".toList = .ok (.int edit.stop) :=
    item_of_mem distinct (by simp)
  have hreplacement : item (editJson edit) "replacement_b64".toList =
      .ok (.str (b64encode edit.replacement)) := item_of_mem distinct (by simp)
  simp only [editFromJson, hstart, hend, hreplacement, ok_bind, intOf, strOf, b64decode_b64encode]
  rfl

theorem stepFromJson_stepJson (step : ReplayStep) : stepFromJson (stepJson step) = .ok step := by
  have distinct : ["kind".toList, "mutate_fn".toList, "pass_name".toList, "input_sha256".toList,
      "output_sha256".toList, "note".toList, "edits".toList].Nodup :=
    nodup_literals ["kind", "mutate_fn", "pass_name", "input_sha256", "output_sha256", "note",
      "edits"] (by decide)
  have hedits : itemsOf (stepJson step) "edits".toList = .ok (step.edits.map editJson) :=
    itemsOf_of_mem distinct (by simp)
  have hkind : item (stepJson step) "kind".toList = .ok (.str step.kind) :=
    item_of_mem distinct (by simp)
  have hmutateFn : optionalText (stepJson step) "mutate_fn".toList = .ok step.mutateFn :=
    optionalText_of_mem distinct (by simp)
  have hpassName : item (stepJson step) "pass_name".toList = .ok (.str step.passName) :=
    item_of_mem distinct (by simp)
  have hinput : item (stepJson step) "input_sha256".toList = .ok (.str step.inputSha256) :=
    item_of_mem distinct (by simp)
  have houtput : item (stepJson step) "output_sha256".toList = .ok (.str step.outputSha256) :=
    item_of_mem distinct (by simp)
  have hnote : optionalText (stepJson step) "note".toList = .ok step.note :=
    optionalText_of_mem distinct (by simp)
  simp only [stepFromJson, hedits, hkind, hmutateFn, hpassName, hinput, houtput, hnote, ok_bind,
    strOf, mapM_map_ok editFromJson_editJson]
  rfl

/-- The keys of a recipe are distinct. -/
theorem recipe_keys : ["version".toList, "unit".toList, "function".toList, "base_sha256".toList,
    "final_sha256".toList, "base_score".toList, "final_score".toList, "steps".toList].Nodup :=
  nodup_literals ["version", "unit", "function", "base_sha256", "final_sha256", "base_score",
    "final_score", "steps"] (by decide)

section
variable {sha256 : Bytes → Text} {r : RecipeData}

theorem readReplayRecipe_write :
    readReplayRecipe (writeReplayRecipe sha256 r) = .ok ⟨recipeJson sha256 r, r.trace⟩ := by
  have hget : (recipeJson sha256 r).get? "version".toList = some (.int 1) :=
    Json.get?_of_mem recipe_keys (by simp)
  have hversion : getOf (recipeJson sha256 r) "version".toList = .ok (some (.int 1)) := by
    rw [← hget]
    rfl
  have hsteps : itemsOf (recipeJson sha256 r) "steps".toList = .ok (r.trace.map stepJson) :=
    itemsOf_of_mem recipe_keys (by simp)
  simp only [readReplayRecipe, writeReplayRecipe, loads_dumps (whole_recipeJson sha256 r), hversion,
    hsteps, ok_bind, mapM_map_ok stepFromJson_stepJson]
  rfl

/-- A recipe whose trace replays to its final source rebuilds that source. -/
theorem rebuild_write {sourceOf : Text → Option Bytes} {funcName : Option Text}
    (source : sourceOf r.unit = some r.baseSource) (named : ∀ fn ∈ funcName, fn = r.fn)
    (replays : applyReplayTrace sha256 r.baseSource r.trace = .ok r.finalSource) :
    rebuild sha256 sourceOf funcName (writeReplayRecipe sha256 r) =
      .ok (⟨recipeJson sha256 r, r.trace⟩, r.finalSource) := by
  have hunit : item (recipeJson sha256 r) "unit".toList = .ok (.str r.unit) :=
    item_of_mem recipe_keys (by simp)
  have hfn : item (recipeJson sha256 r) "function".toList = .ok (.str r.fn) :=
    item_of_mem recipe_keys (by simp)
  have hbase : item (recipeJson sha256 r) "base_sha256".toList = .ok (.str (sha256 r.baseSource)) :=
    item_of_mem recipe_keys (by simp)
  have hfinal : item (recipeJson sha256 r) "final_sha256".toList =
      .ok (.str (sha256 r.finalSource)) := item_of_mem recipe_keys (by simp)
  have hname : funcName.any (· ≠ r.fn) = false := by
    cases funcName with
    | none => rfl
    | some fn => simpa using named fn rfl
  simp only [rebuild, readReplayRecipe_write, Recipe.text, Recipe.field, hunit, hfn, hbase, hfinal,
    Except.mapError, ok_bind, strOf, hname, source, isText, replays]
  rfl

/-- **Recipes rebuild.** Whatever comes of its trials, and wherever it ends,
narrowing a best whose trace replays returns a source that its trace replays to,
under a key that is no worse and that was reported for it; and the recipe saved
from it reads back to the same steps and rebuilds the source from the base. -/
theorem saved_recipe_rebuilds (env : Narrower) {base best : Bytes} {trace : ReplayTrace}
    (replays : applyReplayTrace env.sha256 base trace = .ok best) (bestKey baseKey : ScoreKey)
    (maxPasses : Int) (unit fn : Text) :
    let st := narrowBestSource env base best bestKey trace maxPasses
    let text := writeReplayRecipe env.sha256
      ⟨unit, fn, base, st.current, baseKey, st.currentKey, st.currentTrace⟩
    applyReplayTrace env.sha256 base st.currentTrace = .ok st.current ∧
    st.currentKey ≤ bestKey ∧
    (0 < st.stats.accepted → ∃ k, env.outcome k st.current = .scored st.currentKey) ∧
    (∃ data, readReplayRecipe text = .ok ⟨data, st.currentTrace⟩) ∧
    ∀ sourceOf funcName, sourceOf unit = some base → (∀ name ∈ funcName, name = fn) →
      ∃ recipe, rebuild env.sha256 sourceOf funcName text = .ok (recipe, st.current) := by
  intro st text
  have kept : Kept env base best bestKey trace st := narrowBestSource_kept replays maxPasses
  refine ⟨kept.replays, kept.key_le, kept.reported, ⟨_, readReplayRecipe_write⟩, ?_⟩
  intro sourceOf funcName source named
  exact ⟨_, rebuild_write source named kept.replays⟩

end

/-- A best with a cast that narrowing drops: both reverts score worse, the third
trial as well as the best. -/
def castNarrower : Narrower where
  sha256 source :=
    if source = ascii "x = z;\n" then
      "7eb7c004d7d805e9f3af1ee15bf89ac095927be5a35c216e3cd3f882c9c040a9".toList
    else if source = ascii "x = (int) y;\n" then
      "2ba2ddcf4900684fb5dc1f8a36d04f6ae3ff7aa23989ce62852b67520f0c078b".toList
    else if source = ascii "x = y;\n" then
      "89451299ac86c0d6e95c35bda0491768967cbc7263e232a0024b57041aba9dcc".toList
    else []
  getOpcodes := replaceAll
  parse _ := .mk .other 0 13 0 none [.mk .castExpression 4 11 0 (some (10, 11)) []]
  outcome k _ := .scored (if k < 2 then ⟨2, 0, 0, 10, true⟩ else ⟨1, 0, 0, 5, true⟩)

def castTrace : ReplayTrace :=
  [makeReplayStep castNarrower.sha256 "mutation".toList (some "f".toList) "temp_for_expr".toList
    (ascii "x = z;\n") [⟨4, 5, ascii "(int) y"⟩] (ascii "x = (int) y;\n") none]

theorem castTrace_rebuilds :
    (narrowBestSource castNarrower (ascii "x = z;\n") (ascii "x = (int) y;\n") ⟨1, 0, 0, 5, true⟩
      castTrace 1).current = ascii "x = y;\n" ∧
    applyReplayTrace castNarrower.sha256 (ascii "x = z;\n")
      (narrowBestSource castNarrower (ascii "x = z;\n") (ascii "x = (int) y;\n") ⟨1, 0, 0, 5, true⟩
        castTrace 1).currentTrace = .ok (ascii "x = y;\n") := by
  have hcurrent : (narrowBestSource castNarrower (ascii "x = z;\n") (ascii "x = (int) y;\n")
      ⟨1, 0, 0, 5, true⟩ castTrace 1).current = ascii "x = y;\n" := by
    unfold castTrace castNarrower ascii
    simp only [toList_literal rfl]
    decide +kernel
  have replays : applyReplayTrace castNarrower.sha256 (ascii "x = z;\n") castTrace =
      .ok (ascii "x = (int) y;\n") := by
    unfold castTrace castNarrower ascii
    simp only [toList_literal rfl]
    decide +kernel
  have h := (saved_recipe_rebuilds castNarrower replays ⟨1, 0, 0, 5, true⟩ ⟨3, 0, 0, 15, true⟩ 1
    "melee/ft/ftcommon".toList "f".toList).1
  rw [hcurrent] at h
  exact ⟨hcurrent, h⟩

end MeleeHarness.Permute
