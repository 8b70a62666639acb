import MeleeHarness.Lib.Utf8
import MeleeHarness.NinjaCompile.CompileBatch

/-!
# The source that is compiled

The permuter holds a candidate as bytes, decodes them with `surrogateescape`, and
hands the text to `compile_source_text`, `compile_batch` or `build_pch`. Each of
them writes it to a temporary file that it opened in text mode, which is strict.

* `written_exactly_iff`: the files hold the candidate's bytes exactly if these are
  UTF-8; otherwise `UnicodeEncodeError` is raised.
-/

namespace MeleeHarness.NinjaCompile

open MeleeHarness.Lib

inductive WriteError where
  | unicodeEncode
  deriving DecidableEq, Repr

/-- `f.write(text)` on a file that `os.fdopen(fd, "w")` opened: the contents it gets. -/
def writeText (text : List Nat) : Except WriteError Bytes :=
  match encodeStrict text with
  | some contents => .ok contents
  | none => .error .unicodeEncode

section
variable (tools : Toolchain)

/-- What `compile_batch` and `build_pch` look up before they write anything. -/
def Toolchain.mwccCommand : Option (List Tool) :=
  match tools.findBuildBlock with
  | none => none
  | some block => if block.rule ∉ mwccRules then none else tools.compilerPrefix block

/-- The file that `compile_source_text` hands to mwcc. -/
def sourceFile (sourceText : List Nat) : Except WriteError Bytes := writeText sourceText

/-- The files that `compile_batch` hands to its run of mwcc. What it compiles by
itself afterwards goes through `sourceFile`. -/
def batchFiles (sources : List (List Nat)) : Except WriteError (List Bytes) :=
  match tools.mwccCommand with
  | none => .ok []
  | some _ => sources.mapM writeText

/-- The file that `build_pch` precompiles. -/
def pchFile (prefixText : List Nat) : Except WriteError (Option Bytes) :=
  match tools.mwccCommand with
  | none => .ok none
  | some _ => (writeText prefixText).map some

end

/-! ## Byte for byte -/

theorem writeText_decodeEscape_iff (c : Bytes) :
    writeText (decodeEscape c) = .ok c ↔ IsUtf8 c := by
  rw [← encodeStrict_decodeEscape, writeText]
  cases encodeStrict (decodeEscape c) <;> simp

/-- The only contents that a decoded byte string can be written as are its own. -/
theorem eq_of_writeText_decodeEscape {c contents : Bytes}
    (h : writeText (decodeEscape c) = .ok contents) : contents = c := by
  rw [writeText] at h
  split at h
  · rename_i hsome
    cases h
    exact eq_of_encodeStrict_decodeEscape hsome
  · cases h

theorem mapM_writeText_iff (cands : List Bytes) :
    (cands.map decodeEscape).mapM writeText = .ok cands ↔ ∀ c ∈ cands, IsUtf8 c := by
  rw [mapM_ok_iff, List.forall₂_map_left_iff, List.forall₂_same]
  simp only [writeText_decodeEscape_iff]

section
variable {tools : Toolchain} {cmd : List Tool}

theorem batchFiles_iff (hcmd : tools.mwccCommand = some cmd) (cands : List Bytes) :
    batchFiles tools (cands.map decodeEscape) = .ok cands ↔ ∀ c ∈ cands, IsUtf8 c := by
  rw [batchFiles, hcmd]
  exact mapM_writeText_iff cands

theorem pchFile_iff (hcmd : tools.mwccCommand = some cmd) {c contents : Bytes} :
    pchFile tools (decodeEscape c) = .ok (some contents) ↔ contents = c ∧ IsUtf8 c := by
  rw [pchFile, hcmd, ← writeText_decodeEscape_iff]
  constructor
  · intro h
    cases hw : writeText (decodeEscape c) with
    | error e => simp [hw, Except.map] at h
    | ok written =>
      have hsame : written = contents := by simpa [hw, Except.map] using h
      have hc := eq_of_writeText_decodeEscape hw
      exact ⟨by rw [← hsame, hc], by rw [hc]⟩
  · rintro ⟨rfl, hw⟩
    simp [hw, Except.map]

/-- The precompiled prefix and the body that is compiled against it. -/
def PchFiles (tools : Toolchain) (c : Bytes) (split : Nat) : Prop :=
  ∃ head body, pchFile tools (decodeEscape (c.take split)) = .ok (some head) ∧
    batchFiles tools [decodeEscape (c.drop split)] = .ok [body] ∧ head ++ body = c

theorem pchFiles_iff (hcmd : tools.mwccCommand = some cmd) (c : Bytes) (split : Nat) :
    PchFiles tools c split ↔ IsUtf8 (c.take split) ∧ IsUtf8 (c.drop split) := by
  constructor
  · rintro ⟨head, body, hhead, hbody, hcat⟩
    obtain ⟨rfl, hvalid⟩ := (pchFile_iff hcmd).mp hhead
    have hbody' : body = c.drop split :=
      List.append_cancel_left (hcat.trans (c.take_append_drop split).symm)
    have hdrop := (batchFiles_iff hcmd [c.drop split]).mp (by rw [hbody'] at hbody; exact hbody)
    exact ⟨hvalid, hdrop _ List.mem_cons_self⟩
  · rintro ⟨htake, hdrop⟩
    refine ⟨c.take split, c.drop split, (pchFile_iff hcmd).mpr ⟨rfl, htake⟩, ?_,
      c.take_append_drop split⟩
    exact (batchFiles_iff hcmd [c.drop split]).mpr (by simpa using hdrop)

end

/-- What the compiler reads are the candidates, on each of the three ways to it. -/
theorem written_exactly_iff {tools : Toolchain} {cmd : List Tool}
    (hcmd : tools.mwccCommand = some cmd) :
    (∀ c : Bytes, sourceFile (decodeEscape c) = .ok c ↔ IsUtf8 c) ∧
    (∀ cands : List Bytes,
      batchFiles tools (cands.map decodeEscape) = .ok cands ↔ ∀ c ∈ cands, IsUtf8 c) ∧
    (∀ (c : Bytes) (split : Nat),
      PchFiles tools c split ↔ IsUtf8 (c.take split) ∧ IsUtf8 (c.drop split)) :=
  ⟨writeText_decodeEscape_iff, batchFiles_iff hcmd, pchFiles_iff hcmd⟩

/-- A toolchain with an edge of the rule `mwcc` and every tool installed. -/
def installedTools : Toolchain where
  findBuildBlock := some ⟨"mwcc".toList, "GC/1.2.5n".toList, [], none⟩
  installed _ := true
  mwcc _ _ := none
  extabClean _ obj := .ok obj

/-- A comment of two characters of three bytes each, and a declaration. -/
def rotationSource : Bytes :=
  ascii "/* " ++ [0xE5, 0x9B, 0x9E, 0xE8, 0xBB, 0xA2] ++ ascii " */int x;"

theorem rotationSource_utf8 : IsUtf8 (rotationSource.take 12) ∧ IsUtf8 (rotationSource.drop 12) ∧
    IsUtf8 rotationSource :=
  ⟨⟨['/', '*', ' ', '\u56de', '\u8ee2', ' ', '*', '/'], by decide +kernel⟩,
    ⟨"int x;".toList, by decide +kernel⟩,
    ⟨['/', '*', ' ', '\u56de', '\u8ee2', ' ', '*', '/'] ++ "int x;".toList, by decide +kernel⟩⟩

/-- It is written in one piece, in a batch, and behind a precompiled prefix. -/
theorem written_exactly_rotation :
    installedTools.mwccCommand = some [.wibo, .compiler "GC/1.2.5n".toList] ∧
      sourceFile (decodeEscape rotationSource) = .ok rotationSource ∧
      batchFiles installedTools ([rotationSource, ascii "int y;"].map decodeEscape) =
        .ok [rotationSource, ascii "int y;"] ∧
      PchFiles installedTools rotationSource 12 := by
  have hcmd : installedTools.mwccCommand = some [.wibo, .compiler "GC/1.2.5n".toList] := by decide
  obtain ⟨hsource, hbatch, hpch⟩ := written_exactly_iff hcmd
  obtain ⟨htake, hdrop, hwhole⟩ := rotationSource_utf8
  refine ⟨hcmd, (hsource _).mpr hwhole, (hbatch _).mpr ?_, (hpch _ _).mpr ⟨htake, hdrop⟩⟩
  intro c hc
  rcases List.mem_cons.mp hc with rfl | hc
  · exact hwhole
  · rw [List.mem_singleton.mp hc]
    exact ⟨"int y;".toList, by decide +kernel⟩

/-- A Shift-JIS comment: the candidate is decoded, and writing it raises. -/
theorem shift_jis_raises :
    sourceFile (decodeEscape (ascii "/*" ++ [0x83, 0x7D] ++ ascii "*/")) = .error .unicodeEncode ∧
    batchFiles installedTools [decodeEscape (ascii "/*" ++ [0x83, 0x7D] ++ ascii "*/")] =
      .error .unicodeEncode ∧
    pchFile installedTools (decodeEscape (ascii "/*" ++ [0x83, 0x7D] ++ ascii "*/")) =
      .error .unicodeEncode := by
  decide +kernel

end MeleeHarness.NinjaCompile
