import MeleeHarness.Lib.Bytes
import MeleeHarness.Lib.Run
import MeleeHarness.Lib.Text

/-!
# Compiling a batch

`compile_batch` hands several candidates to one run of mwcc, which stops at the
first that fails, and compiles what was skipped one by one. What the two ways of
compiling return is the contents of the object.

* `batchRun_salvage`: without the extab step both ways agree;
* `cleanAll_salvage_iff`: the batch does not look at how the cleaning of an object
  ended, so with the step they agree exactly if it succeeds for every object that
  the run of mwcc has made.
-/

namespace MeleeHarness.NinjaCompile

open MeleeHarness.Lib

def mwccRules : List Text :=
  ["mwcc".toList, "mwcc_sjis".toList, "mwcc_extab".toList, "mwcc_sjis_extab".toList]

structure BuildBlock where
  rule : Text
  mwVersion : Text
  cflags : Text
  extabPadding : Option Text
  deriving DecidableEq

namespace BuildBlock
variable (block : BuildBlock)

def usesSjis : Bool := "sjis".toList <:+: block.rule

def usesExtab : Bool := "extab".toList <:+: block.rule

def padding : Text := block.extabPadding.getD []

end BuildBlock

inductive Tool where
  | wibo
  | sjiswrap
  | dtk
  | compiler (mwVersion : Text)
  deriving DecidableEq, Repr

/-- A command line of mwcc, up to its inputs and outputs. -/
structure Command where
  tools : List Tool
  cflags : Text
  prefixPch : Option Text

/-- What compiling takes from outside: the build edge of the unit, which tools are
there, what mwcc makes of a source, and what `dtk extab clean` makes of an object
in place. An error is a failed run with the contents it leaves behind. -/
structure Toolchain where
  findBuildBlock : Option BuildBlock
  installed : Tool → Bool
  mwcc : Command → Text → Option Bytes
  extabClean : Text → Bytes → Except Bytes Bytes

section
variable (tools : Toolchain)

/-- `_compiler_prefix` -/
def Toolchain.compilerPrefix (block : BuildBlock) : Option (List Tool) :=
  let cmd := if block.usesSjis then [.wibo, .sjiswrap, .compiler block.mwVersion]
    else [.wibo, .compiler block.mwVersion]
  if cmd.all tools.installed then some cmd else none

/-- `direct_compile` of a source that stands in for the unit's own. -/
def directCompile (source : Text) (prefixPch : Option Text) : Option Bytes :=
  match tools.findBuildBlock with
  | none => none
  | some block =>
    if block.rule ∉ mwccRules then none
    else
      match tools.compilerPrefix block with
      | none => none
      | some cmd =>
        if block.usesExtab && !tools.installed .dtk then none
        else
          match tools.mwcc ⟨cmd, block.cflags, prefixPch⟩ source with
          | none => none
          | some obj =>
            if block.usesExtab then (tools.extabClean block.padding obj).toOption else some obj

def compileSourceText (source : Text) (prefixPch : Option Text) : Option Bytes :=
  directCompile tools source prefixPch

/-- One run of mwcc: what comes after the first source that fails is not compiled. -/
def batchRun (mwcc : Text → Option Bytes) : List Text → List (Option Bytes)
  | [] => []
  | source :: rest =>
    match mwcc source with
    | some obj => some obj :: batchRun mwcc rest
    | none => none :: rest.map fun _ => none

/-- `subprocess.run` raises `FileNotFoundError`. -/
inductive RunError where
  | fileNotFound (tool : Tool)
  deriving DecidableEq, Repr

/-- `dtk extab clean` on an object of the batch, whose exit status is not read. -/
def cleanObj (padding : Text) : Option Bytes → Except RunError (Option Bytes)
  | none => .ok none
  | some obj =>
    if tools.installed .dtk then
      match tools.extabClean padding obj with
      | .ok cleaned => .ok (some cleaned)
      | .error left => .ok (some left)
    else .error (.fileNotFound .dtk)

/-- What the batch did not compile is compiled by itself. -/
def salvage (prefixPch : Option Text) (source : Text) : Option Bytes → Option Bytes
  | some obj => some obj
  | none => compileSourceText tools source prefixPch

def compileBatch (sources : List Text) (prefixPch : Option Text) :
    Except RunError (List (Option Bytes)) :=
  if sources = [] then .ok []
  else
    match tools.findBuildBlock with
    | none => .ok (sources.map fun _ => none)
    | some block =>
      if block.rule ∉ mwccRules then .ok (sources.map fun _ => none)
      else
        match tools.compilerPrefix block with
        | none => .ok (sources.map fun _ => none)
        | some cmd => do
          let objs := batchRun (tools.mwcc ⟨cmd, block.cflags, prefixPch⟩) sources
          let objs ← if block.usesExtab then objs.mapM (cleanObj tools block.padding) else pure objs
          pure (List.zipWith (salvage tools prefixPch) sources objs)

end

/-! ## Both ways of compiling -/

section
variable {tools : Toolchain} {block : BuildBlock} {cmd : List Tool} {prefixPch : Option Text}

/-- The objects that a run of mwcc makes are those of the sources before the first
that fails. -/
def compiledInRun (mwcc : Text → Option Bytes) (sources : List Text) : List Text :=
  sources.takeWhile fun source => (mwcc source).isSome

theorem salvage_skipped (rest : List Text) :
    List.zipWith (salvage tools prefixPch) rest (rest.map fun _ => none) =
      rest.map fun source => compileSourceText tools source prefixPch := by
  induction rest with
  | nil => rfl
  | cons source rest ih => rw [List.map_cons, List.zipWith_cons_cons, ih]; rfl

theorem batchRun_salvage (mwcc : Text → Option Bytes)
    (h : ∀ source obj, mwcc source = some obj →
      compileSourceText tools source prefixPch = some obj) (sources : List Text) :
    List.zipWith (salvage tools prefixPch) sources (batchRun mwcc sources) =
      sources.map fun source => compileSourceText tools source prefixPch := by
  induction sources with
  | nil => rfl
  | cons source rest ih =>
    rw [batchRun]
    cases hobj : mwcc source with
    | some obj => rw [List.zipWith_cons_cons, ih, List.map_cons, h source obj hobj]; rfl
    | none => rw [List.zipWith_cons_cons, salvage_skipped]; rfl

variable (prefixPch) in
/-- Once the tools are there, a source compiles as mwcc and the extab step say. -/
theorem compileSourceText_eq (hblock : tools.findBuildBlock = some block)
    (hrule : block.rule ∈ mwccRules) (hcmd : tools.compilerPrefix block = some cmd)
    (source : Text) :
    compileSourceText tools source prefixPch =
      if block.usesExtab && !tools.installed .dtk then none
      else (tools.mwcc ⟨cmd, block.cflags, prefixPch⟩ source).bind fun obj =>
        if block.usesExtab then (tools.extabClean block.padding obj).toOption else some obj := by
  simp only [compileSourceText, directCompile, hblock, hrule, hcmd, not_true_eq_false, ↓reduceIte]
  cases tools.mwcc ⟨cmd, block.cflags, prefixPch⟩ source with
  | none => rfl
  | some obj => rfl

/-- What a run of mwcc has made is cleaned with success. -/
def Cleaned (tools : Toolchain) (block : BuildBlock) (command : Command) (sources : List Text) :
    Prop :=
  ∀ source ∈ compiledInRun (tools.mwcc command) sources, ∀ obj,
    tools.mwcc command source = some obj →
      tools.installed .dtk = true ∧ ∃ cleaned, tools.extabClean block.padding obj = .ok cleaned

theorem cleaned_cons {command : Command} {source : Text} {rest : List Text} {obj : Bytes}
    (hobj : tools.mwcc command source = some obj) :
    Cleaned tools block command (source :: rest) ↔
      (tools.installed .dtk = true ∧
        ∃ cleaned, tools.extabClean block.padding obj = .ok cleaned) ∧
      Cleaned tools block command rest := by
  simp only [Cleaned, compiledInRun, List.takeWhile_cons, hobj, Option.isSome_some, ↓reduceIte,
    List.forall_mem_cons, Option.some.injEq, forall_eq']

theorem cleaned_cons_failed {command : Command} {source : Text} {rest : List Text}
    (hnone : tools.mwcc command source = none) :
    Cleaned tools block command (source :: rest) := by
  simp [Cleaned, compiledInRun, hnone]

theorem clean_none (rest : List Text) :
    List.Forall₂ (fun obj cleaned => cleanObj tools block.padding obj = .ok cleaned)
      (rest.map fun _ => none) (rest.map fun _ => none) := by
  rw [List.forall₂_map_left_iff, List.forall₂_map_right_iff, List.forall₂_same]
  intro _ _
  rfl

/-- An object that went through the batch's extab step is the one that compiling its
source alone gives exactly if the step has succeeded. -/
theorem cleanObj_eq_iff (hblock : tools.findBuildBlock = some block)
    (hrule : block.rule ∈ mwccRules) (hcmd : tools.compilerPrefix block = some cmd)
    (hextab : block.usesExtab = true) {source : Text} {obj : Bytes}
    (hobj : tools.mwcc ⟨cmd, block.cflags, prefixPch⟩ source = some obj) :
    cleanObj tools block.padding (some obj) =
        .ok (compileSourceText tools source prefixPch) ↔
      tools.installed .dtk = true ∧
        ∃ cleaned, tools.extabClean block.padding obj = .ok cleaned := by
  rw [compileSourceText_eq prefixPch hblock hrule hcmd, hobj, cleanObj]
  cases tools.installed .dtk with
  | false => simp
  | true =>
    cases hclean : tools.extabClean block.padding obj with
    | ok cleaned => simp [hextab, hclean, Except.toOption]
    | error left => simp [hextab, hclean, Except.toOption]

theorem cleanObj_some {obj : Bytes} {cleaned : Option Bytes}
    (h : cleanObj tools block.padding (some obj) = .ok cleaned) : ∃ c, cleaned = some c := by
  rw [cleanObj] at h
  split at h
  · split at h
    · cases h
      exact ⟨_, rfl⟩
    · cases h
      exact ⟨_, rfl⟩
  · cases h

/-- The batch's own extab step and salvage agree with compiling one by one exactly
if every cleaning in it succeeds. -/
theorem cleanAll_salvage_iff (hblock : tools.findBuildBlock = some block)
    (hrule : block.rule ∈ mwccRules) (hcmd : tools.compilerPrefix block = some cmd)
    (hextab : block.usesExtab = true) (sources : List Text) :
    (∃ objs, List.Forall₂ (fun obj cleaned => cleanObj tools block.padding obj = .ok cleaned)
        (batchRun (tools.mwcc ⟨cmd, block.cflags, prefixPch⟩) sources) objs ∧
      List.zipWith (salvage tools prefixPch) sources objs =
        sources.map fun source => compileSourceText tools source prefixPch) ↔
    Cleaned tools block ⟨cmd, block.cflags, prefixPch⟩ sources := by
  induction sources with
  | nil => simp [batchRun, Cleaned, compiledInRun]
  | cons source rest ih =>
    rw [batchRun]
    cases hobj : tools.mwcc ⟨cmd, block.cflags, prefixPch⟩ source with
    | none =>
      refine iff_of_true ⟨none :: rest.map fun _ => none, .cons rfl (clean_none rest), ?_⟩
        (cleaned_cons_failed hobj)
      rw [List.zipWith_cons_cons, salvage_skipped]
      rfl
    | some obj =>
      rw [cleaned_cons hobj, ← ih, ← cleanObj_eq_iff hblock hrule hcmd hextab hobj]
      constructor
      · rintro ⟨objs, hclean, heq⟩
        obtain ⟨cleaned, objs, hone, hrest, rfl⟩ := List.forall₂_cons_left_iff.mp hclean
        obtain ⟨c, rfl⟩ := cleanObj_some hone
        rw [List.zipWith_cons_cons, List.map_cons, List.cons.injEq] at heq
        exact ⟨hone.trans (congrArg _ heq.1), objs, hrest, heq.2⟩
      · rintro ⟨hone, objs, hrest, heq⟩
        obtain ⟨c, hc⟩ := cleanObj_some hone
        refine ⟨_ :: objs, .cons hone hrest, ?_⟩
        rw [List.zipWith_cons_cons, List.map_cons, heq, hc]
        rfl

/-- **Batches.** For a rule of mwcc the batch returns for every source what
compiling it alone returns exactly if the compiler is not there, the rule has no
extab step, or dtk is there and cleans every object that the batch's own run of mwcc
has made, that is the objects of the sources before the first that does not compile. -/
theorem compileBatch_agrees_iff (tools : Toolchain) (block : BuildBlock)
    (hblock : tools.findBuildBlock = some block) (hrule : block.rule ∈ mwccRules)
    (sources : List Text) (prefixPch : Option Text) :
    compileBatch tools sources prefixPch =
        .ok (sources.map fun source => compileSourceText tools source prefixPch) ↔
      ∀ cmd, tools.compilerPrefix block = some cmd → block.usesExtab = true →
        Cleaned tools block ⟨cmd, block.cflags, prefixPch⟩ sources := by
  rw [compileBatch]
  split
  · rename_i hnil
    subst hnil
    simp [Cleaned, compiledInRun]
  · simp only [hblock, hrule, not_true_eq_false, ↓reduceIte]
    cases hcmd : tools.compilerPrefix block with
    | none =>
      have hnone : ∀ source, compileSourceText tools source prefixPch = none := by
        intro source
        simp [compileSourceText, directCompile, hblock, hrule, hcmd]
      simp [hnone]
    | some cmd =>
      cases hextab : block.usesExtab with
      | false =>
        have halone : ∀ source obj, tools.mwcc ⟨cmd, block.cflags, prefixPch⟩ source = some obj →
            compileSourceText tools source prefixPch = some obj := by
          intro source obj hobj
          rw [compileSourceText_eq prefixPch hblock hrule hcmd, hobj, hextab]
          rfl
        refine iff_of_true ?_ (by simp)
        rw [← batchRun_salvage (tools.mwcc ⟨cmd, block.cflags, prefixPch⟩) halone]
        rfl
      | true =>
        have hiff : Cleaned tools block ⟨cmd, block.cflags, prefixPch⟩ sources ↔ _ :=
          (cleanAll_salvage_iff hblock hrule hcmd hextab sources).symm
        simp only [Option.some.injEq, forall_eq', forall_const, hiff, ↓reduceIte, bind_ok_iff,
          mapM_ok_iff, pure_ok_iff]

end

/-! ## A unit with an extab step -/

def extabBlock : BuildBlock :=
  ⟨"mwcc_extab".toList, "GC/1.2.5n".toList, "-O4,p -maxerrors 1".toList, some "0F,00".toList⟩

/-- mwcc rejects a source that is not closed by a semicolon, and dtk an object with an
odd number of bytes. -/
def extabTools : Toolchain where
  findBuildBlock := some extabBlock
  installed _ := true
  mwcc _ source := if source.getLast? = some ';' then some (source.map fun _ => 0) else none
  extabClean _ obj := if obj.length % 2 = 0 then .ok (obj.drop 1) else .error obj

/-- A source between two that compile is skipped over, and the second is salvaged. -/
theorem extab_batch_salvaged :
    compileBatch extabTools ["f;".toList, "f".toList, "f();".toList] none =
      .ok [some [0], none, some [0, 0, 0]] := by
  have halone : ["f;".toList, "f".toList, "f();".toList].map
      (compileSourceText extabTools · none) = [some [0], none, some [0, 0, 0]] := by
    decide +kernel
  rw [← halone, compileBatch_agrees_iff extabTools extabBlock rfl (by decide)]
  intro cmd _ _ source hsource obj hobj
  have hsource : source = "f;".toList := by simpa [compiledInRun, extabTools] using hsource
  subst hsource
  cases hobj
  exact ⟨rfl, _, rfl⟩

/-- An object that dtk does not clean is kept by the batch and not by compiling its
source alone. -/
theorem extab_failure_kept :
    compileBatch extabTools ["f;;".toList] none = .ok [some [0, 0, 0]] ∧
      compileSourceText extabTools "f;;".toList none = none := by
  decide +kernel

end MeleeHarness.NinjaCompile
