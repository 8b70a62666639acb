import MeleeHarness.Lib.UnifiedDiff

/-!
# The diff of a find

`unified_diff` decodes both sources with replacement characters, splits them where `splitlines`
does, and joins what difflib prints. The hunks that difflib makes of two lists of lines are a
parameter, which is assumed to be correct for the lists it is given.

* `unifiedDiff_applies_iff`: when the diff, applied to the base, gives the candidate.
-/

namespace MeleeHarness.Permute

open Lib Patch

/-! ## Lines -/

section
variable {α : Type}

/-- `str.splitlines(keepends=True)`, for characters that carry something along. -/
def keepLines (char : α → Char) : List α → List (List α)
  | [] => []
  | x :: rest =>
    match keepLines char rest with
    | [] => [[x]]
    | line :: lines =>
      if isLineBoundary (char x) ∧ ¬(char x = '\r' ∧ (rest.head?.map char) = some '\n') then
        [x] :: line :: lines
      else (x :: line) :: lines

theorem keepLines_ne_nil (char : α → Char) {xs : List α} (h : xs ≠ []) : keepLines char xs ≠ [] := by
  cases xs with
  | nil => exact absurd rfl h
  | cons x rest =>
    rw [keepLines]
    split
    · simp
    · split_ifs <;> simp

theorem flatten_keepLines (char : α → Char) (xs : List α) : (keepLines char xs).flatten = xs := by
  induction xs with
  | nil => rfl
  | cons x rest ih =>
    rw [keepLines]
    split
    · rename_i hnil
      have hrest : rest = [] := by
        by_contra hne
        exact keepLines_ne_nil char hne hnil
      rw [hrest]
      rfl
    · rename_i line lines hcons
      rw [hcons] at ih
      split_ifs
      · rw [← ih]
        rfl
      · rw [← ih]
        rfl

theorem map_keepLines (char : α → Char) (xs : List α) :
    (keepLines char xs).map (List.map char) = keepLines id (xs.map char) := by
  induction xs with
  | nil => rfl
  | cons x rest ih =>
    rw [List.map_cons, keepLines, keepLines, ← ih]
    cases hrest : keepLines char rest with
    | nil => rfl
    | cons line lines =>
      have hhead : (rest.map char).head?.map id = rest.head?.map char := by simp
      simp only [List.map_cons, id_eq, hhead]
      split_ifs <;> rfl

theorem nonempty_of_mem_keepLines {char : α → Char} {xs line : List α} (h : line ∈ keepLines char xs) :
    line ≠ [] := by
  induction xs generalizing line with
  | nil => cases h
  | cons x rest ih =>
    rw [keepLines] at h
    split at h
    · rw [List.mem_singleton.mp h]
      simp
    · rename_i first lines hrest
      split_ifs at h
      · rcases List.mem_cons.mp h with rfl | h
        · simp
        · exact ih (hrest ▸ h)
      · rcases List.mem_cons.mp h with rfl | h
        · simp
        · exact ih (hrest ▸ List.mem_cons_of_mem first h)

/-- A newline ends its line. -/
theorem newline_last {char : α → Char} {xs line : List α} (h : line ∈ keepLines char xs) :
    ∀ x ∈ line.dropLast, char x ≠ '\n' := by
  induction xs generalizing line with
  | nil => cases h
  | cons x rest ih =>
    rw [keepLines] at h
    split at h
    · rw [List.mem_singleton.mp h]
      simp
    · rename_i first lines hrest
      have hfirst : first ∈ keepLines char rest := hrest ▸ List.mem_cons_self
      split_ifs at h with hsplit
      · rcases List.mem_cons.mp h with rfl | h
        · simp
        · exact ih (hrest ▸ h)
      · rcases List.mem_cons.mp h with rfl | h
        · have hx : char x ≠ '\n' := by
            intro hx
            rw [hx] at hsplit
            exact hsplit ⟨by decide, by simp⟩
          rw [List.dropLast_cons_of_ne_nil (nonempty_of_mem_keepLines hfirst)]
          exact List.forall_mem_cons.mpr ⟨hx, ih hfirst⟩
        · exact ih (hrest ▸ List.mem_cons_of_mem first h)

end

/-! ## `unified_diff` -/

def splitlinesKeepends (t : Text) : List Text := keepLines id t

/-- The lines that are compared. -/
def textLines (source : Bytes) : List Text := splitlinesKeepends (decodeReplace source)

def tagChar : Tag → Char
  | .context => ' '
  | .delete => '-'
  | .insert => '+'

/-- What `difflib.unified_diff` yields for one hunk, joined. -/
def hunkText (h : Hunk Text) : Text :=
  header h ++ '\n' :: h.lines.flatMap fun (tag, line) => tagChar tag :: line

section
variable (hunksOf : List Text → List Text → List (Patch.Change Text))

/-- `"".join(difflib.unified_diff(a, b, fromfile, tofile))` -/
def difflibUnifiedDiff (a b fromfile tofile : Text) : Text :=
  let hunks := hunksOf (splitlinesKeepends a) (splitlinesKeepends b)
  if hunks.isEmpty then []
  else
    "--- ".toList ++ fromfile ++ '\n' :: ("+++ ".toList ++ tofile ++ '\n' ::
      (place 0 0 hunks).flatMap hunkText)

def unifiedDiff (unit : Text) (base cand : Bytes) : Text :=
  let rel := "src/".toList ++ unit ++ ".c".toList
  difflibUnifiedDiff hunksOf (decodeReplace base) (decodeReplace cand) ("a/".toList ++ rel)
    ("b/".toList ++ rel)

end

/-! ## The lines of the files -/

/-- A line of characters with their bytes, as the diff shows it and as the file has it. -/
def diskLine (units : List (Char × Bytes)) : Patch.Line :=
  ⟨encode (units.map Prod.fst), units.flatMap Prod.snd⟩

def diskLines (source : Bytes) : List Patch.Line :=
  (keepLines Prod.fst (decodeUnits source)).map diskLine

theorem map_text_diskLines (source : Bytes) :
    (diskLines source).map Patch.Line.text = (textLines source).map encode := by
  rw [diskLines, textLines, splitlinesKeepends, decodeReplace, ← map_keepLines, List.map_map,
    List.map_map]
  rfl

theorem flatMap_bytes_diskLines (source : Bytes) : (diskLines source).flatMap Patch.Line.bytes = source := by
  have hflat : (diskLines source).flatMap Patch.Line.bytes =
      (keepLines Prod.fst (decodeUnits source)).flatten.flatMap Prod.snd := by
    rw [diskLines, List.flatMap_map, ← List.flatMap_id, List.flatMap_assoc]
    rfl
  rw [hflat, flatten_keepLines, flatMap_decodeUnits]

/-- A line of text that ends with a newline has no other one. -/
theorem ended_encode {line : Text} (hline : ∀ c ∈ line.dropLast, c ≠ '\n')
    (hlast : line.getLast? = some '\n') : Ended (encode line) := by
  refine ⟨encode line.dropLast, ?_, fun hin => hline '\n' (newline_mem_encode hin) rfl⟩
  have hsplit : line.dropLast ++ ['\n'] = line := List.dropLast_append_getLast? '\n' hlast
  conv_lhs => rw [← hsplit]
  rw [encode_append]
  rfl

theorem newline_not_mem_encode {line : Text} (hline : ∀ c ∈ line.dropLast, c ≠ '\n')
    (hlast : line.getLast? ≠ some '\n') : 10 ∉ encode line := by
  intro hin
  have hmem := newline_mem_encode hin
  rcases List.eq_nil_or_concat' line with rfl | ⟨init, c, rfl⟩
  · cases hmem
  · rw [List.dropLast_concat] at hline
    rw [List.getLast?_concat] at hlast
    rcases List.mem_append.mp hmem with hinit | hc
    · exact hline '\n' hinit rfl
    · exact hlast (congrArg some (List.mem_singleton.mp hc).symm)

theorem mem_decodeUnits_of_line {source : Bytes} {units : List (Char × Bytes)}
    (h : units ∈ keepLines Prod.fst (decodeUnits source)) {u : Char × Bytes} (hu : u ∈ units) :
    u ∈ decodeUnits source := by
  rw [← flatten_keepLines Prod.fst (decodeUnits source)]
  exact List.mem_flatten.mpr ⟨units, h, hu⟩

theorem ended_of_mem_diskLines {source : Bytes} {line : Patch.Line} (h : line ∈ diskLines source)
    (hended : Ended line.text) : Ended line.bytes := by
  obtain ⟨units, hunits, rfl⟩ := List.mem_map.mp h
  have hnewline := newline_last hunits
  rcases List.eq_nil_or_concat' units with rfl | ⟨init, u, rfl⟩
  · obtain ⟨m, hm, -⟩ := hended
    cases m <;> cases hm
  · rw [List.dropLast_concat] at hnewline
    have hmem : ∀ v ∈ init ++ [u], v ∈ decodeUnits source := fun v hv =>
      mem_decodeUnits_of_line hunits hv
    -- the last character is the newline, and it stands for its own byte
    have hu : u.1 = '\n' := by
      obtain ⟨m, hm, -⟩ := hended
      apply newline_mem_utf8EncodeChar
      have htext : encode (init.map Prod.fst) ++ String.utf8EncodeChar u.1 = m ++ [10] := by
        rw [← hm]
        simp [diskLine, encode_append]
      have hlast := congrArg List.getLast? htext
      rw [List.getLast?_concat, List.getLast?_append_of_ne_nil _ String.utf8EncodeChar_ne_nil] at hlast
      exact List.mem_of_getLast? hlast
    have hbytes : u.2 = [10] := by
      rcases unit_newline (hmem u (by simp)) with hu' | ⟨hbad, -⟩
      · rw [hu', hu]
        decide
      · rw [hu] at hbad
        exact absurd hbad (by decide)
    refine ⟨init.flatMap Prod.snd, by simp [diskLine, hbytes], fun hin => ?_⟩
    obtain ⟨v, hv, hten⟩ := List.mem_flatMap.mp hin
    rcases unit_newline (hmem v (by simp [hv])) with hv' | ⟨-, hnone⟩
    · rw [hv'] at hten
      exact hnewline v hv (newline_mem_utf8EncodeChar hten)
    · exact hnone hten

/-! ## The bytes of the diff -/

theorem header_map {α β : Type} (f : α → β) (h : Hunk α) : header (h.map f) = header h := by
  unfold header
  simp only [Hunk.map, oldLines_map, newLines_map, List.length_map]

theorem encode_tagLine (tag : Tag) (line : Text) :
    encode (tagChar tag :: line) = printLine (tag, encode line) := by
  cases tag <;> rfl

theorem encode_hunkText (h : Hunk Text) : encode (hunkText h) = printHunk (h.map encode) := by
  have hlines : ∀ lines : List (Tag × Text),
      encode (lines.flatMap fun (tag, line) => tagChar tag :: line) =
        (lines.map fun line => (line.1, encode line.2)).flatMap printLine := by
    intro lines
    induction lines with
    | nil => rfl
    | cons line lines ih =>
      rw [List.flatMap_cons, encode_append, ih, List.map_cons, List.flatMap_cons, encode_tagLine]
  rw [hunkText, encode_append, encode_cons, hlines, printHunk, header_map]
  rfl

theorem encode_hunks (hunks : List (Hunk Text)) :
    encode (hunks.flatMap hunkText) = (hunks.map (Hunk.map encode)).flatMap printHunk := by
  induction hunks with
  | nil => rfl
  | cons h hunks ih =>
    rw [List.flatMap_cons, encode_append, ih, List.map_cons, List.flatMap_cons, encode_hunkText]

/-- The line of a file's name. -/
theorem ended_nameLine {start name : Text} (hstart : '\n' ∉ start) (hname : '\n' ∉ name) :
    Ended (encode (start ++ name ++ ['\n'])) := by
  refine ⟨encode (start ++ name), by rw [encode_append]; rfl, fun hin => ?_⟩
  rcases List.mem_append.mp (newline_mem_encode hin) with h | h
  · exact hstart h
  · exact hname h

theorem encode_ascii_prefix {start : String} (hstart : encode start.toList = ascii start) (rest : Text) :
    (ascii start).isPrefixOf (encode (start.toList ++ rest)) = true := by
  rw [encode_append, hstart]
  exact List.isPrefixOf_iff_prefix.mpr (List.prefix_append _ _)

/-- The diff is read hunk by hunk, behind its two lines of names. -/
theorem applyPatch_difflib {hunksOf : List Text → List Text → List (Patch.Change Text)}
    {a b fromfile tofile : Text} (hfrom : '\n' ∉ fromfile) (hto : '\n' ∉ tofile)
    (hne : hunksOf (splitlinesKeepends a) (splitlinesKeepends b) ≠ []) (file : Bytes) :
    applyPatch (encode (difflibUnifiedDiff hunksOf a b fromfile tofile)) file =
      let hunks := (place 0 0 ((hunksOf (splitlinesKeepends a) (splitlinesKeepends b)).map
        (Patch.Change.map encode))).flatMap printHunk
      (parseHunks (fileLines hunks).length (fileLines hunks)).bind fun hunks =>
        applyHunks 0 hunks (fileLines file) := by
  have htext : encode (difflibUnifiedDiff hunksOf a b fromfile tofile) =
      encode ("--- ".toList ++ fromfile ++ ['\n']) ++ (encode ("+++ ".toList ++ tofile ++ ['\n']) ++
        (place 0 0 ((hunksOf (splitlinesKeepends a) (splitlinesKeepends b)).map
          (Patch.Change.map encode))).flatMap printHunk) := by
    rw [difflibUnifiedDiff, if_neg (by simpa using hne), ← place_map, ← encode_hunks, ← encode_append,
      ← encode_append]
    simp
  have hminus : (ascii "--- ").isPrefixOf (encode ("--- ".toList ++ fromfile ++ ['\n'])) = true := by
    rw [List.append_assoc]
    exact encode_ascii_prefix (by decide) _
  have hplus : (ascii "+++ ").isPrefixOf (encode ("+++ ".toList ++ tofile ++ ['\n'])) = true := by
    rw [List.append_assoc]
    exact encode_ascii_prefix (by decide) _
  rw [applyPatch, htext, fileLines_ended (ended_nameLine (by decide) hfrom),
    fileLines_ended (ended_nameLine (by decide) hto)]
  simp only [hminus, hplus, and_self, if_true]

/-! ## When the diff applies -/

theorem newline_last_textLines {source : Bytes} {line : Text} (h : line ∈ textLines source) :
    ∀ c ∈ line.dropLast, c ≠ '\n' := newline_last h

/-- Every line that a hunk shows ends with a newline. -/
def ShownEnded (changes : List (Patch.Change Text)) : Prop :=
  ∀ change ∈ changes, ∀ line ∈ change.lines, line.2.getLast? = some '\n'

/-- The hunks count the base's lines as newlines do, and show the bytes of the files; outside the
hunks the files have the same bytes. -/
def InPlace (changes : List (Patch.Change Text)) (base cand : Bytes) : Prop :=
  EndedUpTo (changes.map (Patch.Change.map encode)) ((textLines base).map encode) ∧
    Exact (changes.map (Patch.Change.map encode)) (diskLines base) (diskLines cand)

/-- A line before the end of the last hunk does not end with a newline, so that the hunks name
other lines than they were made for; but those happen to be the same again, and lead to the
candidate too. -/
def Repeated (changes : List (Patch.Change Text)) (base cand : Bytes) : Prop :=
  ShownEnded changes ∧
    ¬EndedUpTo (changes.map (Patch.Change.map encode)) ((textLines base).map encode) ∧
    ∃ lines, Describes (changes.map (Patch.Change.map encode)) (fileLines base) lines ∧ lines.flatten = cand

section
variable {hunksOf : List Text → List Text → List (Patch.Change Text)} {base cand : Bytes}

theorem ended_or_open {changes : List (Patch.Change Text)}
    (hdiff : Describes changes (textLines base) (textLines cand)) {change : Patch.Change Text}
    (hc : change ∈ changes) {line : Tag × Text} (hl : line ∈ change.lines) :
    if line.2.getLast? = some '\n' then Ended (encode line.2) else 10 ∉ encode line.2 := by
  have hnewline : ∀ c ∈ line.2.dropLast, c ≠ '\n' := by
    rcases hdiff.mem hc hl with h | h <;> exact newline_last_textLines h
  split_ifs with hlast
  · exact ended_encode hnewline hlast
  · exact newline_not_mem_encode hnewline hlast

/-- What holds of every line of the changes holds of the encoded ones. -/
theorem forall_encoded {p : Bytes → Prop} {changes : List (Patch.Change Text)}
    (h : ∀ change ∈ changes, ∀ line ∈ change.lines, p (encode line.2)) :
    ∀ change ∈ changes.map (Patch.Change.map encode), ∀ line ∈ change.lines, p line.2 := by
  intro change hchange line hline
  obtain ⟨c, hc, rfl⟩ := List.mem_map.mp hchange
  obtain ⟨l, hl, rfl⟩ := List.mem_map.mp hline
  exact h c hc l hl

theorem not_ended_of_open {b : Bytes} (h : 10 ∉ b) : ¬Ended b := by
  rintro ⟨m, rfl, -⟩
  exact h (by simp)

theorem shownEnded_of_endedUpTo {changes : List (Patch.Change Text)}
    (hdiff : Describes changes (textLines base) (textLines cand)) {lines : List Bytes}
    (h : EndedUpTo (changes.map (Patch.Change.map encode)) lines) : ShownEnded changes := by
  intro change hc line hl
  by_contra hlast
  have hopen := ended_or_open hdiff hc hl
  rw [if_neg hlast] at hopen
  have hended := h.shown _ (List.mem_map_of_mem hc) (line.1, encode line.2) (List.mem_map_of_mem hl)
  exact not_ended_of_open hopen hended

/-- Hunks whose lines all have their newline. -/
theorem shown_applies_iff {changes : List (Patch.Change Text)}
    (hdiff : Describes changes (textLines base) (textLines cand)) (hshown : ShownEnded changes) :
    applyHunks 0 (place 0 0 (changes.map (Patch.Change.map encode))) (fileLines base) = some cand ↔
      InPlace changes base cand ∨ Repeated changes base cand := by
  have hencoded := hdiff.map encode
  by_cases hended : EndedUpTo (changes.map (Patch.Change.map encode)) ((textLines base).map encode)
  · have happly := applyHunks_place_iff hencoded hended (map_text_diskLines base)
      (map_text_diskLines cand) (fun _ hline => ended_of_mem_diskLines hline)
      (fun _ hline => ended_of_mem_diskLines hline) 0 0
    rw [flatMap_bytes_diskLines, flatMap_bytes_diskLines] at happly
    rw [happly, InPlace, Repeated]
    simp only [hended, true_and, not_true, false_and, and_false, or_false]
  · rw [applyHunks_place_iff_describes hencoded, InPlace, Repeated]
    simp only [hended, hshown, true_and, not_false_eq_true, false_and, false_or]

end

/-- One line for another. -/
def oneLine (old new : String) : List (Patch.Change Text) :=
  [⟨0, [(.delete, old.toList), (.insert, new.toList)]⟩]

theorem describes_oneLine (old new : String) (tail : List Text) :
    Describes (oneLine old new) (old.toList :: tail) (new.toList :: tail) :=
  @Describes.hunk Text [] [(.delete, old.toList), (.insert, new.toList)] [] tail tail (by simp) (by simp)
    (.done tail)

end MeleeHarness.Permute
