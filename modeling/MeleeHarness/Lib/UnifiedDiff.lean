import MeleeHarness.Lib.Utf8

/-!
# Unified diffs

A diff as a list of hunks, what a correct list of hunks says about two lists of lines, the bytes
of a patch, and how a patch is read and applied. A line of a patch ends with a newline, as a line
of a file does. The marker for a missing newline at the end of a file is left out: a patch that
has one is no patch here.

* `parseHunks_print`: a patch whose lines all end with a newline reads back;
* `quoted_of_open`: one with a line that does not is rejected, unless a file has the header of a
  hunk in it;
* `applyHunks_place_iff_describes`, `applyHunks_place_iff`: what the hunks give, read back.
-/

namespace MeleeHarness.Lib.Patch

inductive Tag where
  | context
  | delete
  | insert
  deriving DecidableEq, Repr

namespace Tag

def byte : Tag → UInt8
  | .context => 32
  | .delete => 45
  | .insert => 43

def inOld : Tag → Bool
  | .insert => false
  | _ => true

def inNew : Tag → Bool
  | .delete => false
  | _ => true

end Tag

section
variable {α : Type}

def oldLines (lines : List (Tag × α)) : List α := (lines.filter (·.1.inOld)).map Prod.snd

def newLines (lines : List (Tag × α)) : List α := (lines.filter (·.1.inNew)).map Prod.snd

/-- The lines of a hunk, behind a number of lines that are not shown. -/
structure Change (α : Type) where
  skip : Nat
  lines : List (Tag × α)

/-- The hunks lead from one list of lines to another. Unchanged lines stand between two hunks. -/
inductive Describes : List (Change α) → List α → List α → Prop
  | done (tail : List α) : Describes [] tail tail
  | hunk {skip : List α} {lines : List (Tag × α)} {rest : List (Change α)} {a b : List α}
      (shown : lines ≠ []) (apart : ∀ next ∈ rest.head?, 0 < next.skip) (more : Describes rest a b) :
      Describes (⟨skip.length, lines⟩ :: rest) (skip ++ oldLines lines ++ a)
        (skip ++ newLines lines ++ b)

/-- A hunk with the number of lines before it in each file. -/
structure Hunk (α : Type) where
  oldStart : Nat
  newStart : Nat
  lines : List (Tag × α)

/-- The hunks with their places, behind so many lines of the two files. -/
def place : Nat → Nat → List (Change α) → List (Hunk α)
  | _, _, [] => []
  | old, new, change :: rest =>
    ⟨old + change.skip, new + change.skip, change.lines⟩ ::
      place (old + change.skip + (oldLines change.lines).length)
        (new + change.skip + (newLines change.lines).length) rest

end

/-! ## Hunks that lead from one list to another -/

section
variable {α β : Type}

theorem mem_oldLines {lines : List (Tag × α)} {x : α} (h : x ∈ oldLines lines) :
    ∃ line ∈ lines, line.2 = x := by
  obtain ⟨line, hline, rfl⟩ := List.mem_map.mp h
  exact ⟨line, (List.mem_filter.mp hline).1, rfl⟩

theorem mem_newLines {lines : List (Tag × α)} {x : α} (h : x ∈ newLines lines) :
    ∃ line ∈ lines, line.2 = x := by
  obtain ⟨line, hline, rfl⟩ := List.mem_map.mp h
  exact ⟨line, (List.mem_filter.mp hline).1, rfl⟩

/-- A line of a hunk is a line of one of the files. -/
theorem mem_old_or_new {lines : List (Tag × α)} {line : Tag × α} (h : line ∈ lines) :
    line.2 ∈ oldLines lines ∨ line.2 ∈ newLines lines := by
  by_cases hold : line.1.inOld = true
  · exact .inl (List.mem_map_of_mem (List.mem_filter.mpr ⟨h, hold⟩))
  · have hnew : line.1.inNew = true := by
      cases htag : line.1 <;> simp_all [Tag.inOld, Tag.inNew]
    exact .inr (List.mem_map_of_mem (List.mem_filter.mpr ⟨h, hnew⟩))

namespace Describes

theorem mem {changes : List (Change α)} {a b : List α} (h : Describes changes a b) {change : Change α}
    (hc : change ∈ changes) {line : Tag × α} (hl : line ∈ change.lines) : line.2 ∈ a ∨ line.2 ∈ b := by
  induction h with
  | done tail => cases hc
  | hunk _ _ _ ih =>
    rcases List.mem_cons.mp hc with rfl | hc
    · rcases mem_old_or_new hl with hold | hnew
      · exact .inl (by simp [hold])
      · exact .inr (by simp [hnew])
    · rcases ih hc with ha | hb
      · exact .inl (by simp [ha])
      · exact .inr (by simp [hb])

end Describes

def Change.map (f : α → β) (change : Change α) : Change β :=
  ⟨change.skip, change.lines.map fun line => (line.1, f line.2)⟩

def Hunk.map (f : α → β) (h : Hunk α) : Hunk β :=
  ⟨h.oldStart, h.newStart, h.lines.map fun line => (line.1, f line.2)⟩

theorem oldLines_map (f : α → β) (lines : List (Tag × α)) :
    oldLines (lines.map fun line => (line.1, f line.2)) = (oldLines lines).map f := by
  rw [oldLines, oldLines, List.filter_map, List.map_map, List.map_map]
  rfl

theorem newLines_map (f : α → β) (lines : List (Tag × α)) :
    newLines (lines.map fun line => (line.1, f line.2)) = (newLines lines).map f := by
  rw [newLines, newLines, List.filter_map, List.map_map, List.map_map]
  rfl

theorem Describes.map (f : α → β) {changes : List (Change α)} {a b : List α}
    (h : Describes changes a b) : Describes (changes.map (Change.map f)) (a.map f) (b.map f) := by
  induction h with
  | done tail => exact .done _
  | @hunk skip lines rest a b shown apart _ ih =>
    have hshown : (lines.map fun line => (line.1, f line.2)) ≠ [] := by simpa using shown
    have hapart : ∀ next ∈ (rest.map (Change.map f)).head?, 0 < next.skip := by
      intro next hnext
      rw [List.head?_map] at hnext
      obtain ⟨c, hc, rfl⟩ := Option.map_eq_some_iff.mp hnext
      exact apart c hc
    have hmapped : Describes (⟨(skip.map f).length, _⟩ :: _) (skip.map f ++ _ ++ _)
        (skip.map f ++ _ ++ _) := .hunk hshown hapart ih
    rw [oldLines_map, newLines_map, List.length_map] at hmapped
    simpa only [List.map_cons, List.map_append, Change.map] using hmapped

theorem place_map (f : α → β) (changes : List (Change α)) (old new : Nat) :
    (place old new changes).map (Hunk.map f) = place old new (changes.map (Change.map f)) := by
  induction changes generalizing old new with
  | nil => rfl
  | cons change rest ih =>
    simp only [place, List.map_cons, ih, Hunk.map, Change.map, oldLines_map, newLines_map,
      List.length_map]

theorem lines_place (changes : List (Change α)) (old new : Nat) :
    (place old new changes).map Hunk.lines = changes.map Change.lines := by
  induction changes generalizing old new with
  | nil => rfl
  | cons change rest ih => simp only [place, List.map_cons, ih]

end

/-! ## Printing -/

/-- `_format_range_unified` -/
def formatRange (start length : Nat) : Text :=
  if length = 1 then Nat.toDigits 10 (start + 1)
  else Nat.toDigits 10 (if length = 0 then start else start + 1) ++ ',' :: Nat.toDigits 10 length

/-- The line above a hunk, without its end. -/
def header {α : Type} (h : Hunk α) : Text :=
  "@@ -".toList ++ formatRange h.oldStart (oldLines h.lines).length ++ " +".toList ++
    formatRange h.newStart (newLines h.lines).length ++ " @@".toList

def printLine (line : Tag × Bytes) : Bytes := line.1.byte :: line.2

def printHunk (h : Hunk Bytes) : Bytes :=
  encode (header h) ++ 10 :: h.lines.flatMap printLine

/-! ## Reading -/

/-- The lines of a file, each with its newline. -/
def fileLines : Bytes → List Bytes
  | [] => []
  | c :: rest =>
    if c = 10 then [c] :: fileLines rest
    else
      match fileLines rest with
      | [] => [[c]]
      | line :: lines => (c :: line) :: lines

/-- Bytes as characters of the same numbers. -/
def asText (b : Bytes) : Text := b.map fun x => Char.ofNat x.toNat

def readNumber (t : Text) : Option (Nat × Text) :=
  if t.takeWhile Char.isDigit = [] then none
  else some (Nat.ofDigitChars 10 (t.takeWhile Char.isDigit) 0, t.dropWhile Char.isDigit)

/-- The first line and the number of lines, which is one where it is not given. -/
def readRange (t : Text) : Option ((Nat × Nat) × Text) := do
  let (first, rest) ← readNumber t
  match rest with
  | ',' :: rest =>
    let (length, rest) ← readNumber rest
    some ((first, length), rest)
  | _ => some ((first, 1), rest)

def dropText (start t : Text) : Option Text :=
  if start.isPrefixOf t then some (t.drop start.length) else none

/-- The lines before a range. -/
def linesBefore (range : Nat × Nat) : Nat := if range.2 = 0 then range.1 else range.1 - 1

def readHeader (line : Bytes) : Option ((Nat × Nat) × (Nat × Nat)) := do
  let t ← dropText "@@ -".toList (asText line)
  let (old, t) ← readRange t
  let t ← dropText " +".toList t
  let (new, t) ← readRange t
  let _ ← dropText " @@".toList t
  some (old, new)

def readTag : UInt8 → Option Tag
  | 32 => some .context
  | 45 => some .delete
  | 43 => some .insert
  | _ => none

/-- A line of a hunk ends with a newline. -/
def readLine : Bytes → Option (Tag × Bytes)
  | [] => none
  | c :: content => if (c :: content).getLast? = some 10 then (readTag c).map (·, content) else none

/-- Lines of a hunk, as many of each file as its header says. -/
def readBody : Nat → Nat → List Bytes → Option (List (Tag × Bytes) × List Bytes)
  | old, new, [] => if old = 0 ∧ new = 0 then some ([], []) else none
  | old, new, line :: rest =>
    if old = 0 ∧ new = 0 then some ([], line :: rest)
    else
      match readLine line with
      | none => none
      | some (tag, content) =>
        if (tag.inOld ∧ old = 0) ∨ (tag.inNew ∧ new = 0) then none
        else
          (readBody (old - tag.inOld.toNat) (new - tag.inNew.toNat) rest).map fun (lines, rest) =>
            ((tag, content) :: lines, rest)

/-- Hunks up to the end. The number bounds them. -/
def parseHunks : Nat → List Bytes → Option (List (Hunk Bytes))
  | _, [] => some []
  | 0, _ :: _ => none
  | n + 1, line :: rest => do
    let (old, new) ← readHeader line
    let (lines, rest) ← readBody old.2 new.2 rest
    let hunks ← parseHunks n rest
    some (⟨linesBefore old, linesBefore new, lines⟩ :: hunks)

/-! ## Applying -/

/-- The hunks are applied at the lines that their headers name. -/
def applyHunks : Nat → List (Hunk Bytes) → List Bytes → Option Bytes
  | _, [], lines => some lines.flatten
  | done, h :: rest, lines =>
    let gap := h.oldStart - done
    let old := oldLines h.lines
    if done ≤ h.oldStart ∧ gap ≤ lines.length ∧ (lines.drop gap).take old.length = old then
      (applyHunks (h.oldStart + old.length) rest (lines.drop (gap + old.length))).map fun more =>
        (lines.take gap).flatten ++ (newLines h.lines).flatten ++ more
    else none

/-- A patch of one file: the two lines with its names, then hunks. An empty text changes
nothing. -/
def applyPatch (patch file : Bytes) : Option Bytes :=
  match fileLines patch with
  | [] => some file
  | old :: new :: rest =>
    if (ascii "--- ").isPrefixOf old ∧ (ascii "+++ ").isPrefixOf new then
      (parseHunks rest.length rest).bind fun hunks => applyHunks 0 hunks (fileLines file)
    else none
  | _ => none

/-! ## Lines of a file -/

/-- A line with its newline. -/
def Ended (line : Bytes) : Prop := ∃ m, line = m ++ [10] ∧ 10 ∉ m

theorem fileLines_newline (rest : Bytes) : fileLines (10 :: rest) = [10] :: fileLines rest := by
  rw [fileLines, if_pos rfl]

theorem fileLines_cons {c : UInt8} (hc : c ≠ 10) {rest line : Bytes} {lines : List Bytes}
    (h : fileLines rest = line :: lines) : fileLines (c :: rest) = (c :: line) :: lines := by
  rw [fileLines, if_neg hc, h]

theorem fileLines_ended {line : Bytes} (h : Ended line) (rest : Bytes) :
    fileLines (line ++ rest) = line :: fileLines rest := by
  obtain ⟨m, rfl, hm⟩ := h
  induction m with
  | nil => exact fileLines_newline rest
  | cons c m ih =>
    have hc : c ≠ 10 := fun hc => hm (by rw [hc]; exact List.mem_cons_self)
    exact fileLines_cons hc (ih fun h => hm (List.mem_cons_of_mem c h))

theorem fileLines_open {m : Bytes} (hne : m ≠ []) (hm : 10 ∉ m) : fileLines m = [m] := by
  induction m with
  | nil => exact absurd rfl hne
  | cons c m ih =>
    have hc : c ≠ 10 := fun hc => hm (by rw [hc]; exact List.mem_cons_self)
    rw [fileLines, if_neg hc]
    cases m with
    | nil => rfl
    | cons d m => rw [ih (by simp) fun h => hm (List.mem_cons_of_mem c h)]

theorem flatten_fileLines (b : Bytes) : (fileLines b).flatten = b := by
  induction b with
  | nil => rfl
  | cons c b ih =>
    rw [fileLines]
    split_ifs
    · rw [List.flatten_cons, ih, List.singleton_append]
    · split
      · rename_i hnil
        rw [hnil] at ih
        rw [← ih]
        rfl
      · rename_i line lines hcons
        rw [hcons] at ih
        rw [List.flatten_cons, List.cons_append, ← List.flatten_cons, ih]

theorem fileLines_flatten {lines : List Bytes} (h : ∀ line ∈ lines, Ended line) (rest : Bytes) :
    fileLines (lines.flatten ++ rest) = lines ++ fileLines rest := by
  induction lines with
  | nil => rfl
  | cons line lines ih =>
    obtain ⟨hline, hlines⟩ := List.forall_mem_cons.mp h
    rw [List.flatten_cons, List.append_assoc, fileLines_ended hline, ih hlines, List.cons_append]

/-- Newlines tell lines apart. -/
theorem flatten_append_inj {xs ys : List Bytes} (hx : ∀ line ∈ xs, Ended line)
    (hy : ∀ line ∈ ys, Ended line) (hlen : xs.length = ys.length) {r s : Bytes}
    (h : xs.flatten ++ r = ys.flatten ++ s) : xs = ys ∧ r = s := by
  have hlines : xs ++ fileLines r = ys ++ fileLines s := by
    rw [← fileLines_flatten hx, ← fileLines_flatten hy, h]
  obtain ⟨hxy, hrest⟩ := List.append_inj hlines hlen
  refine ⟨hxy, ?_⟩
  rw [← flatten_fileLines r, hrest, flatten_fileLines]

/-! ## Headers read back -/

theorem asText_encode {t : Text} (h : ∀ c ∈ t, c.toNat < 128) : asText (encode t) = t := by
  induction t with
  | nil => rfl
  | cons c t ih =>
    obtain ⟨hc, ht⟩ := List.forall_mem_cons.mp h
    have hchar : Char.ofNat c.toNat.toUInt8.toNat = c := by
      have hmod : c.toNat.toUInt8.toNat = c.toNat := by
        rw [Nat.toUInt8, UInt8.toNat_ofNat', Nat.mod_eq_of_lt (by omega)]
      rw [hmod, Char.ofNat_toNat]
    rw [encode_cons, utf8EncodeChar_ascii hc]
    show Char.ofNat c.toNat.toUInt8.toNat :: asText (encode t) = c :: t
    rw [hchar, ih ht]

theorem dropText_append (start t : Text) : dropText start (start ++ t) = some t := by
  rw [dropText, if_pos (List.isPrefixOf_iff_prefix.mpr (List.prefix_append start t)),
    List.drop_left]

theorem readNumber_toDigits (n : Nat) {rest : Text} (hrest : ∀ c ∈ rest.head?, c.isDigit = false) :
    readNumber (Nat.toDigits 10 n ++ rest) = some (n, rest) := by
  have hdigits : ∀ c ∈ Nat.toDigits 10 n, c.isDigit = true :=
    fun c hc => Nat.isDigit_of_mem_toDigits (by decide) (by decide) hc
  have htake : (Nat.toDigits 10 n ++ rest).takeWhile Char.isDigit = Nat.toDigits 10 n := by
    rw [List.takeWhile_append_of_pos hdigits]
    cases rest with
    | nil => simp
    | cons c rest =>
      have hc : c.isDigit = false := hrest c rfl
      simp [hc]
  have hdrop : (Nat.toDigits 10 n ++ rest).dropWhile Char.isDigit = rest := by
    rw [List.dropWhile_append_of_pos hdigits]
    cases rest with
    | nil => rfl
    | cons c rest =>
      have hc : c.isDigit = false := hrest c rfl
      simp [hc]
  rw [readNumber, htake, hdrop, if_neg Nat.toDigits_ne_nil, Nat.ofDigitChars_ten_toDigits]

theorem readRange_format (start length : Nat) (rest : Text) :
    ∃ first, readRange (formatRange start length ++ ' ' :: rest) = some ((first, length), ' ' :: rest) ∧
      linesBefore (first, length) = start := by
  have hspace : ∀ c ∈ (' ' :: rest).head?, c.isDigit = false := by
    intro c hc
    obtain rfl := Option.some.inj hc
    rfl
  by_cases hone : length = 1
  · subst hone
    refine ⟨start + 1, ?_, by simp [linesBefore]⟩
    rw [formatRange, if_pos rfl, readRange, readNumber_toDigits _ hspace]
    rfl
  · have hcomma : ∀ u : Text, ∀ c ∈ (',' :: u).head?, c.isDigit = false := by
      intro u c hc
      obtain rfl := Option.some.inj hc
      rfl
    refine ⟨if length = 0 then start else start + 1, ?_, ?_⟩
    · rw [formatRange, if_neg hone, List.append_assoc, List.cons_append, readRange,
        readNumber_toDigits _ (hcomma _)]
      simp only [Option.bind_eq_bind, Option.bind_some, readNumber_toDigits length hspace]
    · rw [linesBefore]
      split_ifs <;> simp

/-- A character that stands in a header. -/
def Plain (c : Char) : Prop := c.toNat < 128 ∧ c ≠ '\n'

instance (c : Char) : Decidable (Plain c) := inferInstanceAs (Decidable (_ ∧ _))

theorem formatRange_plain (start length : Nat) : ∀ c ∈ formatRange start length, Plain c := by
  have hdigits : ∀ n, ∀ c ∈ Nat.toDigits 10 n, Plain c := by
    intro n c hc
    have hdigit := Nat.isDigit_of_mem_toDigits (by decide) (by decide) hc
    constructor
    · simp only [Char.isDigit, Bool.and_eq_true, decide_eq_true_eq, UInt32.le_iff_toNat_le] at hdigit
      have hval : c.val.toNat = c.toNat := rfl
      have hnine : '9'.val.toNat = 57 := rfl
      omega
    · rintro rfl
      exact absurd hdigit (by decide)
  by_cases hone : length = 1
  · rw [formatRange, if_pos hone]
    exact hdigits _
  · rw [formatRange, if_neg hone]
    intro c hc
    rcases List.mem_append.mp hc with hc | hc
    · exact hdigits _ c hc
    · rcases List.mem_cons.mp hc with rfl | hc
      · decide
      · exact hdigits _ c hc

section
variable {α : Type}

theorem header_plain (h : Hunk α) : ∀ c ∈ header h, Plain c := by
  have hfixed : ∀ c ∈ "@@ -".toList ++ " +".toList ++ " @@".toList, Plain c := by decide
  intro c hc
  unfold header at hc
  simp only [List.mem_append] at hc hfixed
  rcases hc with (((hc | hc) | hc) | hc) | hc
  · exact hfixed c (.inl (.inl hc))
  · exact formatRange_plain _ _ c hc
  · exact hfixed c (.inl (.inr hc))
  · exact formatRange_plain _ _ c hc
  · exact hfixed c (.inr hc)

theorem header_ended (h : Hunk α) : Ended (encode (header h) ++ [10]) := by
  refine ⟨_, rfl, fun hin => ?_⟩
  exact (header_plain h '\n' (newline_mem_encode hin)).2 rfl

theorem asText_append (a b : Bytes) : asText (a ++ b) = asText a ++ asText b := List.map_append

/-- The header names the places and the numbers of lines. -/
theorem readHeader_header (h : Hunk α) :
    ∃ old new, readHeader (encode (header h) ++ [10]) =
        some ((old, (oldLines h.lines).length), (new, (newLines h.lines).length)) ∧
      linesBefore (old, (oldLines h.lines).length) = h.oldStart ∧
      linesBefore (new, (newLines h.lines).length) = h.newStart := by
  have hline : asText (encode (header h) ++ [10]) =
      "@@ -".toList ++ (formatRange h.oldStart (oldLines h.lines).length ++ ' ' ::
        ("+".toList ++ (formatRange h.newStart (newLines h.lines).length ++ ' ' ::
          ("@@".toList ++ ['\n'])))) := by
    rw [asText_append, asText_encode fun c hc => (header_plain h c hc).1]
    unfold header
    simp [asText]
  obtain ⟨old, hold, hbefore⟩ := readRange_format h.oldStart (oldLines h.lines).length
    ("+".toList ++ (formatRange h.newStart (newLines h.lines).length ++ ' ' ::
      ("@@".toList ++ ['\n'])))
  obtain ⟨new, hnew, hbefore'⟩ := readRange_format h.newStart (newLines h.lines).length
    ("@@".toList ++ ['\n'])
  refine ⟨old, new, ?_, hbefore, hbefore'⟩
  have hplus : ∀ t : Text, dropText " +".toList (' ' :: ("+".toList ++ t)) = some t :=
    fun t => dropText_append " +".toList t
  have hat : ∀ t : Text, dropText " @@".toList (' ' :: ("@@".toList ++ t)) = some t :=
    fun t => dropText_append " @@".toList t
  rw [readHeader, hline, dropText_append]
  simp only [Option.bind_eq_bind, Option.bind_some, hold, hplus, hnew, hat]

end

/-! ## Hunks read back -/

theorem length_oldLines_cons {α : Type} (line : Tag × α) (lines : List (Tag × α)) :
    (oldLines (line :: lines)).length = line.1.inOld.toNat + (oldLines lines).length := by
  obtain ⟨tag, c⟩ := line
  cases tag <;> simp [oldLines, Tag.inOld, Nat.add_comm]

theorem length_newLines_cons {α : Type} (line : Tag × α) (lines : List (Tag × α)) :
    (newLines (line :: lines)).length = line.1.inNew.toNat + (newLines lines).length := by
  obtain ⟨tag, c⟩ := line
  cases tag <;> simp [newLines, Tag.inNew, Nat.add_comm]

theorem readTag_byte (tag : Tag) : readTag tag.byte = some tag := by cases tag <;> rfl

theorem readLine_printLine (line : Tag × Bytes) :
    readLine (printLine line) = if (printLine line).getLast? = some 10 then some line else none := by
  rw [printLine, readLine, readTag_byte]
  rfl

/-- One line of a hunk. -/
theorem readBody_cons (line : Tag × Bytes) (old new : Nat) (rest : List Bytes) :
    readBody (line.1.inOld.toNat + old) (line.1.inNew.toNat + new) (printLine line :: rest) =
      if (printLine line).getLast? = some 10 then
        (readBody old new rest).map fun (lines, rest) => (line :: lines, rest)
      else none := by
  obtain ⟨tag, content⟩ := line
  have hcount : ¬((tag.inOld ∧ tag.inOld.toNat + old = 0) ∨ (tag.inNew ∧ tag.inNew.toNat + new = 0)) := by
    cases tag <;> simp [Tag.inOld, Tag.inNew]
  have hsome : ¬(tag.inOld.toNat + old = 0 ∧ tag.inNew.toNat + new = 0) := by
    cases tag <;> simp [Tag.inOld, Tag.inNew]
  rw [readBody, if_neg hsome, readLine_printLine]
  split_ifs with hlast
  · simp only [if_neg hcount, Nat.add_sub_cancel_left]
  · rfl

theorem printLine_injective {line other : Tag × Bytes} (h : printLine line = printLine other) :
    line = other := by
  obtain ⟨hbyte, hcontent⟩ := List.cons.inj h
  have htag : line.1 = other.1 := by
    apply Option.some.inj
    rw [← readTag_byte, ← readTag_byte, hbyte]
  exact Prod.ext htag hcontent

theorem readBody_print {lines : List (Tag × Bytes)} (hend : ∀ line ∈ lines, Ended line.2)
    (rest : List Bytes) :
    readBody (oldLines lines).length (newLines lines).length (lines.map printLine ++ rest) =
      some (lines, rest) := by
  induction lines with
  | nil => cases rest <;> rfl
  | cons line lines ih =>
    obtain ⟨hline, hlines⟩ := List.forall_mem_cons.mp hend
    have hlast : (printLine line).getLast? = some 10 := by
      obtain ⟨m, hm, -⟩ := hline
      rw [printLine, hm, ← List.cons_append, List.getLast?_concat]
    rw [length_oldLines_cons, length_newLines_cons, List.map_cons, List.cons_append, readBody_cons,
      if_pos hlast, ih hlines]
    rfl

theorem byte_ne_newline (tag : Tag) : tag.byte ≠ 10 := by cases tag <;> decide

theorem ended_printLine {line : Tag × Bytes} (h : Ended line.2) : Ended (printLine line) := by
  obtain ⟨m, hm, hmem⟩ := h
  refine ⟨line.1.byte :: m, by rw [printLine, hm, List.cons_append], ?_⟩
  intro hin
  rcases List.mem_cons.mp hin with hbyte | hin
  · exact byte_ne_newline line.1 hbyte.symm
  · exact hmem hin

/-- Two lines of which the first lacks its newline are one line of the patch. -/
theorem printLine_join (line next : Tag × Bytes) :
    printLine line ++ printLine next = printLine (line.1, line.2 ++ printLine next) := by
  rw [printLine, printLine, printLine, List.cons_append]

theorem ended_join {line next : Tag × Bytes} (hfree : 10 ∉ line.2) (hnext : Ended next.2) :
    Ended (line.2 ++ printLine next) := by
  obtain ⟨m, hm, hmem⟩ := ended_printLine hnext
  refine ⟨line.2 ++ m, by rw [hm, List.append_assoc], fun hin => ?_⟩
  exact (List.mem_append.mp hin).elim hfree hmem

theorem newline_not_mem_join {line next : Tag × Bytes} (hfree : 10 ∉ line.2) (hnext : 10 ∉ next.2) :
    10 ∉ line.2 ++ printLine next := by
  intro hin
  rcases List.mem_append.mp hin with hin | hin
  · exact hfree hin
  · rcases List.mem_cons.mp hin with hbyte | hin
    · exact byte_ne_newline next.1 hbyte.symm
    · exact hnext hin

/-- Where lines are still missing and none of a hunk follows, nothing is read. -/
theorem readBody_missing {old new : Nat} (hpos : 0 < old + new) {file : List Bytes}
    (hfile : ∀ line ∈ file.head?, readLine line = none) : readBody old new file = none := by
  have hcount : ¬(old = 0 ∧ new = 0) := by omega
  cases file with
  | nil => rw [readBody, if_neg hcount]
  | cons line rest => rw [readBody, if_neg hcount, hfile line rfl]

/-- Joined with the next one, the last line ends as it did. -/
theorem getLast_join {line next : Tag × Bytes} {rest : List (Tag × Bytes)} (hfree : 10 ∉ line.2)
    (hlast : ∀ l ∈ (next :: rest).getLast?, Ended l.2) :
    ∀ l ∈ ((line.1, line.2 ++ printLine next) :: rest).getLast?, Ended l.2 := by
  intro l hl
  cases rest with
  | nil =>
    obtain rfl := Option.some.inj hl
    exact ended_join hfree (hlast next rfl)
  | cons last rest =>
    rw [List.getLast?_cons_cons] at hl hlast
    exact hlast l hl

/-- A line that lacks its newline runs on into the next one, which is then not counted: what
stands behind the hunk is read for a line of it, or nothing is left to read. -/
theorem readBody_open {lines : List (Tag × Bytes)} {old new : Nat} {tail : Bytes}
    (hlines : ∀ line ∈ lines, Ended line.2 ∨ 10 ∉ line.2)
    (htail : ∀ line ∈ (fileLines tail).head?, readLine line = none)
    (hlast : tail = [] ∨ ∀ line ∈ lines.getLast?, Ended line.2)
    (hopen : 0 < old + new ∨ ∃ line ∈ lines, ¬Ended line.2) :
    readBody ((oldLines lines).length + old) ((newLines lines).length + new)
      (fileLines (lines.flatMap printLine ++ tail)) = none := by
  induction hn : lines.length generalizing lines old new with
  | zero =>
    obtain rfl := List.length_eq_zero_iff.mp hn
    have hpos : 0 < old + new := by simpa using hopen
    rw [List.flatMap_nil, List.nil_append]
    apply readBody_missing _ htail
    simpa [oldLines, newLines] using hpos
  | succ n ih =>
    obtain ⟨line, rest, rfl⟩ := List.exists_cons_of_length_eq_add_one hn
    obtain ⟨hline, hrest⟩ := List.forall_mem_cons.mp hlines
    rw [length_oldLines_cons, length_newLines_cons, Nat.add_assoc, Nat.add_assoc, List.flatMap_cons,
      List.append_assoc]
    by_cases hended : Ended line.2
    · have hrestOpen : 0 < old + new ∨ ∃ l ∈ rest, ¬Ended l.2 := by
        rcases hopen with hpos | ⟨l, hl, hnot⟩
        · exact .inl hpos
        · rcases List.mem_cons.mp hl with rfl | hl
          · exact absurd hended hnot
          · exact .inr ⟨l, hl, hnot⟩
      have hrestLast : tail = [] ∨ ∀ l ∈ rest.getLast?, Ended l.2 := by
        refine hlast.imp_right fun hlast l hl => hlast l ?_
        cases rest with
        | nil => cases hl
        | cons next rest => rwa [List.getLast?_cons_cons]
      rw [fileLines_ended (ended_printLine hended), readBody_cons,
        ih hrest hrestLast hrestOpen (by simpa using hn)]
      simp
    · have hfree : 10 ∉ line.2 := hline.resolve_left hended
      cases rest with
      | nil =>
        obtain rfl : tail = [] := by
          apply hlast.resolve_right
          intro hlast
          exact hended (hlast line rfl)
        have hfree' : 10 ∉ printLine line :=
          List.not_mem_cons_of_ne_of_not_mem (byte_ne_newline line.1).symm hfree
        have hend : (printLine line).getLast? ≠ some 10 := fun h => hfree' (List.mem_of_getLast? h)
        rw [List.flatMap_nil, List.append_nil, List.append_nil,
          fileLines_open (by simp [printLine]) hfree', readBody_cons, if_neg hend]
      | cons next rest =>
        obtain ⟨hnext, hrest⟩ := List.forall_mem_cons.mp hrest
        -- the next line counts for at least one file and is no longer read
        have hjoined : ∀ l ∈ (line.1, line.2 ++ printLine next) :: rest, Ended l.2 ∨ 10 ∉ l.2 := by
          refine List.forall_mem_cons.mpr ⟨?_, hrest⟩
          exact hnext.imp (ended_join hfree) (newline_not_mem_join hfree)
        rw [List.getLast?_cons_cons] at hlast
        have hmore : 0 < (next.1.inOld.toNat + old) + (next.1.inNew.toNat + new) := by
          have htag : 0 < next.1.inOld.toNat + next.1.inNew.toNat := by cases next.1 <;> decide
          omega
        have hnone := ih hjoined (hlast.imp_right (getLast_join hfree)) (.inl hmore) (by simpa using hn)
        rw [length_oldLines_cons, length_newLines_cons, List.flatMap_cons, ← printLine_join,
          List.append_assoc, List.append_assoc, Nat.add_assoc, Nat.add_assoc] at hnone
        rw [length_oldLines_cons, length_newLines_cons, List.flatMap_cons,
          Nat.add_comm next.1.inOld.toNat, Nat.add_comm next.1.inNew.toNat, Nat.add_assoc, Nat.add_assoc,
          List.append_assoc]
        exact hnone

/-- The lines of a hunk whose last one lacks its newline: the patch has whole lines, and one that
runs on. -/
theorem lines_run_on {lines : List (Tag × Bytes)} (hlines : ∀ line ∈ lines, Ended line.2 ∨ 10 ∉ line.2)
    {last : Tag × Bytes} (hlast : last ∈ lines.getLast?) (hopen : ¬Ended last.2) :
    ∃ (front : List Bytes) (line : Tag × Bytes), (∀ l ∈ front, Ended l) ∧ 10 ∉ line.2 ∧
      lines.flatMap printLine = front.flatten ++ printLine line := by
  induction lines with
  | nil => cases hlast
  | cons line rest ih =>
    obtain ⟨hline, hrest⟩ := List.forall_mem_cons.mp hlines
    cases rest with
    | nil =>
      obtain rfl := Option.some.inj hlast
      exact ⟨[], line, by simp, hline.resolve_left hopen, by simp⟩
    | cons next rest =>
      rw [List.getLast?_cons_cons] at hlast
      obtain ⟨front, open', hfront, hfree, hsplit⟩ := ih hrest hlast
      rw [List.flatMap_cons, hsplit]
      rcases hline with hended | hline
      · refine ⟨printLine line :: front, open', ?_, hfree, by simp⟩
        exact List.forall_mem_cons.mpr ⟨ended_printLine hended, hfront⟩
      · cases front with
        | nil =>
          refine ⟨[], (line.1, line.2 ++ printLine open'), by simp, ?_, by simp [printLine]⟩
          exact newline_not_mem_join hline hfree
        | cons first front =>
          obtain ⟨hfirst, hfront⟩ := List.forall_mem_cons.mp hfront
          refine ⟨(printLine line ++ first) :: front, open', ?_, hfree, by simp⟩
          refine List.forall_mem_cons.mpr ⟨?_, hfront⟩
          obtain ⟨m, rfl, hm⟩ := hfirst
          refine ⟨printLine line ++ m, by simp, fun hin => ?_⟩
          rcases List.mem_append.mp hin with hin | hin
          · rcases List.mem_cons.mp hin with hbyte | hin
            · exact byte_ne_newline line.1 hbyte.symm
            · exact hline hin
          · exact hm hin

/-! ## Patches read back -/

theorem fileLines_printHunk {h : Hunk Bytes} (hend : ∀ line ∈ h.lines, Ended line.2) (rest : Bytes) :
    fileLines (printHunk h ++ rest) =
      (encode (header h) ++ [10]) :: (h.lines.map printLine ++ fileLines rest) := by
  have hlines : ∀ line ∈ h.lines.map printLine, Ended line := by
    intro line hline
    obtain ⟨l, hl, rfl⟩ := List.mem_map.mp hline
    exact ended_printLine (hend l hl)
  have hsplit : printHunk h ++ rest =
      (encode (header h) ++ [10]) ++ ((h.lines.map printLine).flatten ++ rest) := by
    rw [printHunk, List.flatMap_def]
    simp
  rw [hsplit, fileLines_ended (header_ended h), fileLines_flatten hlines]

theorem length_le_fileLines {hunks : List (Hunk Bytes)}
    (hend : ∀ h ∈ hunks, ∀ line ∈ h.lines, Ended line.2) :
    hunks.length ≤ (fileLines (hunks.flatMap printHunk)).length := by
  induction hunks with
  | nil => exact Nat.zero_le _
  | cons h hunks ih =>
    obtain ⟨hh, hrest⟩ := List.forall_mem_cons.mp hend
    have hle := ih hrest
    rw [List.flatMap_cons, fileLines_printHunk hh]
    simp only [List.length_cons, List.length_append]
    omega

/-- A patch whose lines all end with a newline. -/
theorem parseHunks_print {hunks : List (Hunk Bytes)} (hend : ∀ h ∈ hunks, ∀ line ∈ h.lines, Ended line.2)
    {n : Nat} (hn : hunks.length ≤ n) :
    parseHunks n (fileLines (hunks.flatMap printHunk)) = some hunks := by
  induction hunks generalizing n with
  | nil => cases n <;> rfl
  | cons h hunks ih =>
    obtain ⟨hh, hrest⟩ := List.forall_mem_cons.mp hend
    obtain ⟨old, new, hheader, hold, hnew⟩ := readHeader_header h
    cases n with
    | zero => simp at hn
    | succ n =>
      have hmore := ih hrest (by simpa using hn)
      rw [List.flatMap_cons, fileLines_printHunk hh, parseHunks]
      simp only [hheader, readBody_print hh, hmore, hold, hnew, Option.bind_eq_bind, Option.bind_some]

theorem fileLines_hunk (h : Hunk Bytes) (rest : Bytes) :
    fileLines (printHunk h ++ rest) =
      (encode (header h) ++ [10]) :: fileLines (h.lines.flatMap printLine ++ rest) := by
  rw [← fileLines_ended (header_ended h)]
  simp [printHunk]

/-- A header is no line of a hunk. -/
theorem readLine_header (h : Hunk Bytes) : readLine (encode (header h) ++ [10]) = none := by
  obtain ⟨rest, hrest⟩ : ∃ rest, encode (header h) ++ [10] = 64 :: rest := by
    unfold header
    simp only [List.append_assoc, encode_append]
    exact ⟨_, rfl⟩
  rw [hrest, readLine]
  split_ifs <;> rfl

/-- A patch with a line that lacks its newline, where no hunk runs on into the next one. -/
theorem parseHunks_open {hunks : List (Hunk Bytes)}
    (hlines : ∀ h ∈ hunks, ∀ line ∈ h.lines, Ended line.2 ∨ 10 ∉ line.2)
    (hlast : ∀ h ∈ hunks.dropLast, ∀ line ∈ h.lines.getLast?, Ended line.2)
    (hopen : ∃ h ∈ hunks, ∃ line ∈ h.lines, ¬Ended line.2) (n : Nat) :
    parseHunks n (fileLines (hunks.flatMap printHunk)) = none := by
  induction hunks generalizing n with
  | nil =>
    obtain ⟨h, hh, -⟩ := hopen
    cases hh
  | cons h hunks ih =>
    obtain ⟨hh, hrest⟩ := List.forall_mem_cons.mp hlines
    obtain ⟨old, new, hheader, -, -⟩ := readHeader_header h
    rw [List.flatMap_cons, fileLines_hunk]
    cases n with
    | zero => rfl
    | succ n =>
      rw [parseHunks]
      by_cases hended : ∀ line ∈ h.lines, Ended line.2
      · have hrestOpen : ∃ h ∈ hunks, ∃ line ∈ h.lines, ¬Ended line.2 := by
          obtain ⟨k, hk, line, hline, hnot⟩ := hopen
          rcases List.mem_cons.mp hk with rfl | hk
          · exact absurd (hended line hline) hnot
          · exact ⟨k, hk, line, hline, hnot⟩
        have hrestLast : ∀ k ∈ hunks.dropLast, ∀ line ∈ k.lines.getLast?, Ended line.2 := by
          intro k hk
          have hne : hunks ≠ [] := fun hnil => by simp [hnil] at hk
          rw [List.dropLast_cons_of_ne_nil hne] at hlast
          exact hlast k (List.mem_cons_of_mem h hk)
        have hsplit := fileLines_printHunk hended (hunks.flatMap printHunk)
        rw [fileLines_hunk, List.cons_inj_right] at hsplit
        rw [hsplit]
        simp only [hheader, readBody_print hended, ih hrest hrestLast hrestOpen, Option.bind_eq_bind,
          Option.bind_some, Option.bind_none]
      · have htail : ∀ line ∈ (fileLines (hunks.flatMap printHunk)).head?, readLine line = none := by
          intro line hline
          cases hunks with
          | nil => cases hline
          | cons next hunks =>
            rw [List.flatMap_cons, fileLines_hunk] at hline
            obtain rfl := Option.some.inj hline
            exact readLine_header next
        have hrunsOn : hunks.flatMap printHunk = [] ∨ ∀ line ∈ h.lines.getLast?, Ended line.2 := by
          cases hunks with
          | nil => exact .inl rfl
          | cons next hunks => exact .inr (hlast h (by simp))
        have hbody : readBody ((oldLines h.lines).length + 0) ((newLines h.lines).length + 0)
            (fileLines (h.lines.flatMap printLine ++ hunks.flatMap printHunk)) = none := by
          apply readBody_open hh htail hrunsOn
          simpa using hended
        rw [Nat.add_zero, Nat.add_zero] at hbody
        simp only [hheader, hbody, Option.bind_eq_bind, Option.bind_some, Option.bind_none]

/-! ## A hunk that runs on into the next one -/

theorem fileLines_append_newline (a b : Bytes) :
    fileLines (a ++ 10 :: b) = fileLines (a ++ [10]) ++ fileLines b := by
  induction a with
  | nil => exact fileLines_newline b
  | cons c a ih =>
    rw [List.cons_append, List.cons_append]
    by_cases hc : c = 10
    · rw [hc, fileLines_newline, fileLines_newline, ih, List.cons_append]
    · obtain ⟨line, lines, hfirst⟩ : ∃ line lines, fileLines (a ++ [10]) = line :: lines := by
        apply List.exists_cons_of_ne_nil
        intro hnil
        have hflat := flatten_fileLines (a ++ [10])
        simp [hnil] at hflat
      rw [fileLines_cons hc hfirst, fileLines_cons hc (by rw [ih, hfirst]; rfl)]
      rfl

theorem readTag_some {c : UInt8} {tag : Tag} (h : readTag c = some tag) : c = tag.byte := by
  unfold readTag at h
  split at h <;> cases h <;> rfl

/-- The lines that are read for a hunk are the lines of the patch. -/
theorem eq_of_readBody {old new : Nat} {lines rest : List Bytes} {body : List (Tag × Bytes)}
    (h : readBody old new lines = some (body, rest)) : lines = body.map printLine ++ rest := by
  induction lines generalizing old new body with
  | nil =>
    rw [readBody] at h
    split_ifs at h
    cases h
    rfl
  | cons line lines ih =>
    rw [readBody] at h
    split_ifs at h
    · cases h
      rfl
    · cases hread : readLine line with
      | none =>
        rw [hread] at h
        cases h
      | some found =>
        obtain ⟨tag, content⟩ := found
        have hline : line = printLine (tag, content) := by
          cases line with
          | nil => cases hread
          | cons c bytes =>
            rw [readLine] at hread
            split_ifs at hread
            obtain ⟨t, htag, hpair⟩ := Option.map_eq_some_iff.mp hread
            cases hpair
            rw [readTag_some htag]
            rfl
        rw [hread] at h
        simp only at h
        split_ifs at h
        obtain ⟨⟨more, behind⟩, hmore, hpair⟩ := Option.map_eq_some_iff.mp h
        cases hpair
        rw [List.map_cons, List.cons_append, ← ih hmore, hline]

theorem readHeader_printLine (line : Tag × Bytes) : readHeader (printLine line) = none := by
  obtain ⟨tag, content⟩ := line
  cases tag <;> rfl

/-- Every line of a patch that is read, but a header, is a line of a hunk. -/
theorem mem_of_parseHunks {n : Nat} {lines : List Bytes} {hunks : List (Hunk Bytes)}
    (h : parseHunks n lines = some hunks) {line : Tag × Bytes} (hline : printLine line ∈ lines) :
    ∃ hunk ∈ hunks, line ∈ hunk.lines := by
  induction n generalizing lines hunks with
  | zero =>
    cases lines with
    | nil => cases hline
    | cons first rest => cases h
  | succ n ih =>
    cases lines with
    | nil => cases hline
    | cons first rest =>
      rw [parseHunks] at h
      obtain ⟨⟨old, new⟩, hheader, h⟩ := Option.bind_eq_some_iff.mp h
      obtain ⟨⟨body, behind⟩, hbody, h⟩ := Option.bind_eq_some_iff.mp h
      obtain ⟨more, hmore, h⟩ := Option.bind_eq_some_iff.mp h
      cases h
      rcases List.mem_cons.mp hline with rfl | hline
      · rw [readHeader_printLine] at hheader
        cases hheader
      · rw [eq_of_readBody hbody] at hline
        rcases List.mem_append.mp hline with hline | hline
        · obtain ⟨l, hl, hsame⟩ := List.mem_map.mp hline
          refine ⟨_, List.mem_cons_self, ?_⟩
          rwa [← printLine_injective hsame]
        · obtain ⟨hunk, hhunk, hl⟩ := ih hmore hline
          exact ⟨hunk, List.mem_cons_of_mem _ hhunk, hl⟩

/-- If a hunk runs on into the next one, a line of the patch has the header of that one in it. -/
theorem header_within (before after : List (Hunk Bytes)) {h : Hunk Bytes} (next : Hunk Bytes)
    (hlines : ∀ line ∈ h.lines, Ended line.2 ∨ 10 ∉ line.2) {last : Tag × Bytes}
    (hlast : last ∈ h.lines.getLast?) (hopen : ¬Ended last.2) :
    ∃ line : Tag × Bytes, encode (header next) <:+: line.2 ∧
      printLine line ∈ fileLines ((before ++ h :: next :: after).flatMap printHunk) := by
  obtain ⟨front, line, hfront, hfree, hsplit⟩ := lines_run_on hlines hlast hopen
  refine ⟨(line.1, line.2 ++ (encode (header next) ++ [10])), ?_, ?_⟩
  · exact ⟨line.2, [10], by simp⟩
  · have hended : Ended (printLine (line.1, line.2 ++ (encode (header next) ++ [10]))) := by
      apply ended_printLine
      obtain ⟨m, hm, hmem⟩ := header_ended next
      refine ⟨line.2 ++ m, by rw [hm, List.append_assoc], fun hin => ?_⟩
      exact (List.mem_append.mp hin).elim hfree hmem
    have hpatch : (before ++ h :: next :: after).flatMap printHunk =
        (before.flatMap printHunk ++ encode (header h)) ++ 10 ::
          (front.flatten ++ (printLine (line.1, line.2 ++ (encode (header next) ++ [10])) ++
            (next.lines.flatMap printLine ++ after.flatMap printHunk))) := by
      rw [List.flatMap_append, List.flatMap_cons, List.flatMap_cons, printHunk, hsplit, printHunk]
      simp [printLine]
    rw [hpatch, fileLines_append_newline, fileLines_flatten hfront, fileLines_ended hended]
    simp

/-- A line of a hunk that is applied stands in the file before or behind it. -/
theorem infix_of_applyHunks {done : Nat} {hunks : List (Hunk Bytes)} {lines : List Bytes} {out : Bytes}
    (happly : applyHunks done hunks lines = some out) {h : Hunk Bytes} (hh : h ∈ hunks)
    {line : Tag × Bytes} (hline : line ∈ h.lines) : line.2 <:+: lines.flatten ∨ line.2 <:+: out := by
  induction hunks generalizing done lines out with
  | nil => cases hh
  | cons first rest ih =>
    rw [applyHunks] at happly
    split_ifs at happly with hfits
    obtain ⟨-, -, hold⟩ := hfits
    obtain ⟨more, hmore, rfl⟩ := Option.map_eq_some_iff.mp happly
    rcases List.mem_cons.mp hh with rfl | hh
    · rcases mem_old_or_new hline with hin | hin
      · left
        rw [← hold] at hin
        exact List.infix_of_mem_flatten (List.mem_of_mem_drop (List.mem_of_mem_take hin))
      · right
        obtain ⟨s, t, hst⟩ := List.infix_of_mem_flatten hin
        refine ⟨(lines.take (h.oldStart - done)).flatten ++ s, t ++ more, ?_⟩
        rw [← hst]
        simp
    · rcases ih hmore hh with hin | hin
      · left
        apply hin.trans
        have hdrop := List.drop_suffix (first.oldStart - done + (oldLines first.lines).length) lines
        obtain ⟨skipped, hskipped⟩ := hdrop
        exact ⟨skipped.flatten, [], by rw [List.append_nil, ← List.flatten_append, hskipped]⟩
      · right
        exact hin.trans (List.suffix_append _ _).isInfix

theorem next_of_mem_dropLast {α : Type} {x : α} {l : List α} (h : x ∈ l.dropLast) :
    ∃ before next after, l = before ++ x :: next :: after := by
  induction l with
  | nil => cases h
  | cons y l ih =>
    cases l with
    | nil => cases h
    | cons z l =>
      rw [List.dropLast_cons_of_ne_nil (by simp)] at h
      rcases List.mem_cons.mp h with rfl | h
      · exact ⟨[], z, l, rfl⟩
      · obtain ⟨before, next, after, hsplit⟩ := ih h
        exact ⟨y :: before, next, after, by rw [hsplit, List.cons_append]⟩

/-- The header of a hunk stands in one of the files. -/
def Quoted (changes : List (Change Bytes)) (a b : Bytes) : Prop :=
  ∃ h ∈ place 0 0 changes, encode (header h) <:+: a ∨ encode (header h) <:+: b

/-- What holds of every hunk's lines holds of the placed ones. -/
theorem forall_place (p : List (Tag × Bytes) → Prop) {changes : List (Change Bytes)} (old new : Nat)
    (h : ∀ change ∈ changes, p change.lines) : ∀ hunk ∈ place old new changes, p hunk.lines := by
  intro hunk hhunk
  have hmem : hunk.lines ∈ changes.map Change.lines :=
    lines_place changes old new ▸ List.mem_map_of_mem hhunk
  obtain ⟨change, hchange, heq⟩ := List.mem_map.mp hmem
  exact heq ▸ h change hchange

/-- A patch with a line that lacks its newline is rejected, unless a file has the header of a hunk
in it. -/
theorem quoted_of_open {changes : List (Change Bytes)}
    (hlines : ∀ change ∈ changes, ∀ line ∈ change.lines, Ended line.2 ∨ 10 ∉ line.2)
    (hopen : ∃ change ∈ changes, ∃ line ∈ change.lines, ¬Ended line.2) {n : Nat} {file out : Bytes}
    (happly : ((parseHunks n (fileLines ((place 0 0 changes).flatMap printHunk))).bind fun hunks =>
      applyHunks 0 hunks (fileLines file)) = some out) : Quoted changes file out := by
  obtain ⟨hunks, hparse, happly⟩ := Option.bind_eq_some_iff.mp happly
  have hplaced := forall_place (fun lines => ∀ line ∈ lines, Ended line.2 ∨ 10 ∉ line.2) 0 0 hlines
  have hplacedOpen : ∃ h ∈ place 0 0 changes, ∃ line ∈ h.lines, ¬Ended line.2 := by
    obtain ⟨change, hchange, line, hline, hnot⟩ := hopen
    have hmem : change.lines ∈ (place 0 0 changes).map Hunk.lines :=
      (lines_place changes 0 0).symm ▸ List.mem_map_of_mem hchange
    obtain ⟨h, hh, heq⟩ := List.mem_map.mp hmem
    exact ⟨h, hh, line, heq ▸ hline, hnot⟩
  by_cases hlast : ∀ h ∈ (place 0 0 changes).dropLast, ∀ line ∈ h.lines.getLast?, Ended line.2
  · rw [parseHunks_open hplaced hlast hplacedOpen n] at hparse
    cases hparse
  · -- some hunk runs on into the next one
    push Not at hlast
    obtain ⟨h, hh, last, hend, hnot⟩ := hlast
    obtain ⟨before, next, after, hsplit⟩ := next_of_mem_dropLast hh
    have hmem : ∀ k ∈ [h, next], k ∈ place 0 0 changes := by
      intro k hk
      rw [hsplit]
      simp only [List.mem_cons, List.not_mem_nil, or_false] at hk
      rcases hk with rfl | rfl <;> simp
    obtain ⟨line, hwithin, hline⟩ := header_within before after next
      (hplaced h (hmem h (by simp))) hend hnot
    rw [← hsplit] at hline
    obtain ⟨hunk, hhunk, hl⟩ := mem_of_parseHunks hparse hline
    refine ⟨next, hmem next (by simp), ?_⟩
    have hstands := infix_of_applyHunks happly hhunk hl
    rw [flatten_fileLines] at hstands
    exact hstands.imp hwithin.trans hwithin.trans

theorem parseHunks_place {changes : List (Change Bytes)}
    (hend : ∀ change ∈ changes, ∀ line ∈ change.lines, Ended line.2) :
    parseHunks (fileLines ((place 0 0 changes).flatMap printHunk)).length
      (fileLines ((place 0 0 changes).flatMap printHunk)) = some (place 0 0 changes) := by
  have hhunks := forall_place (fun lines => ∀ line ∈ lines, Ended line.2) 0 0 hend
  exact parseHunks_print hhunks (length_le_fileLines hhunks)

/-! ## Applying what was printed -/

/-- A line as a diff shows it, and as its file has it. -/
structure Line where
  text : Bytes
  bytes : Bytes

/-- The hunks show the lines as the files have them, and the files have the same bytes outside
the hunks. -/
def Exact : List (Change Bytes) → List Line → List Line → Prop
  | [], A, B => A.flatMap Line.bytes = B.flatMap Line.bytes
  | change :: rest, A, B =>
    (A.take change.skip).map Line.bytes = (B.take change.skip).map Line.bytes ∧
    (∀ line ∈ (A.drop change.skip).take (oldLines change.lines).length, line.bytes = line.text) ∧
    (∀ line ∈ (B.drop change.skip).take (newLines change.lines).length, line.bytes = line.text) ∧
    Exact rest (A.drop (change.skip + (oldLines change.lines).length))
      (B.drop (change.skip + (newLines change.lines).length))

instance decidableExact : (changes : List (Change Bytes)) → (A B : List Line) → Decidable (Exact changes A B)
  | [], A, B => inferInstanceAs (Decidable (A.flatMap Line.bytes = B.flatMap Line.bytes))
  | change :: rest, A, B =>
    have := decidableExact rest (A.drop (change.skip + (oldLines change.lines).length))
      (B.drop (change.skip + (newLines change.lines).length))
    inferInstanceAs (Decidable (_ ∧ _ ∧ _ ∧ _))

/-- Every line up to the end of the last hunk has its newline. -/
def EndedUpTo : List (Change Bytes) → List Bytes → Prop
  | [], _ => True
  | change :: rest, a =>
    (∀ line ∈ a.take change.skip, Ended line) ∧ (∀ line ∈ change.lines, Ended line.2) ∧
    EndedUpTo rest (a.drop (change.skip + (oldLines change.lines).length))

theorem EndedUpTo.shown {changes : List (Change Bytes)} {a : List Bytes} (h : EndedUpTo changes a) :
    ∀ change ∈ changes, ∀ line ∈ change.lines, Ended line.2 := by
  induction changes generalizing a with
  | nil => simp
  | cons change rest ih =>
    obtain ⟨-, hlines, hrest⟩ := h
    exact List.forall_mem_cons.mpr ⟨hlines, ih hrest⟩

theorem map_bytes_eq_text {lines : List Line} :
    lines.map Line.bytes = lines.map Line.text ↔ ∀ line ∈ lines, line.bytes = line.text :=
  List.map_inj_left

theorem flatMap_bytes (lines : List Line) : lines.flatMap Line.bytes = (lines.map Line.bytes).flatten :=
  List.flatMap_def

/-- The hunks are applied to any lines that they lead on from, whichever they were made for. -/
theorem applyHunks_place_iff_describes {changes : List (Change Bytes)} {a b : List Bytes}
    (hdiff : Describes changes a b) (lines : List Bytes) (out : Bytes) (done doneNew : Nat) :
    applyHunks done (place done doneNew changes) lines = some out ↔
      ∃ more, Describes changes lines more ∧ more.flatten = out := by
  induction hdiff generalizing lines out done doneNew with
  | done tail =>
    rw [place, applyHunks, Option.some.injEq]
    constructor
    · rintro rfl
      exact ⟨lines, .done lines, rfl⟩
    · rintro ⟨more, hmore, rfl⟩
      cases hmore
      rfl
  | @hunk skip shownLines rest a b shown apart _ ih =>
    rw [place, applyHunks]
    simp only [Nat.add_sub_cancel_left, Nat.le_add_right, true_and]
    constructor
    · intro h
      split_ifs at h with hfits
      obtain ⟨hlen, hold⟩ := hfits
      obtain ⟨tail, htail, rfl⟩ := Option.map_eq_some_iff.mp h
      obtain ⟨more, hmore, rfl⟩ := (ih _ _ _ _).mp htail
      have hskip : (lines.take skip.length).length = skip.length := by
        rw [List.length_take, Nat.min_eq_left hlen]
      have hlines : lines.take skip.length ++ oldLines shownLines ++
          lines.drop (skip.length + (oldLines shownLines).length) = lines := by
        conv_rhs => rw [← List.take_append_drop skip.length lines,
          ← List.take_append_drop (oldLines shownLines).length (lines.drop skip.length), hold,
          List.drop_drop, ← List.append_assoc]
      have hdescribes := @Describes.hunk _ (lines.take skip.length) _ _ _ _ shown apart hmore
      rw [hskip, hlines] at hdescribes
      exact ⟨_, hdescribes, by simp only [List.flatten_append]⟩
    · rintro ⟨more, hmore, rfl⟩
      generalize hskip : skip.length = gap at hmore ⊢
      cases hmore with
      | @hunk front _ _ behind tail _ _ hrest =>
        have hdrop : (front ++ oldLines shownLines ++ behind).drop
            (front.length + (oldLines shownLines).length) = behind := by
          rw [← List.length_append, List.drop_left]
        have htail := (ih behind tail.flatten (done + front.length + (oldLines shownLines).length)
          (doneNew + front.length + (newLines shownLines).length)).mpr ⟨tail, hrest, rfl⟩
        rw [if_pos ⟨by simp only [List.length_append]; omega, by simp⟩, hdrop, htail]
        simp

/-- One hunk, behind the lines that it skips. -/
theorem applyHunks_cons (done newStart : Nat) (lines : List (Tag × Bytes)) (rest : List (Hunk Bytes))
    {skip old : List Bytes} (hold : old.length = (oldLines lines).length) (more : List Bytes) :
    applyHunks done (⟨done + skip.length, newStart, lines⟩ :: rest) (skip ++ old ++ more) =
      if old = oldLines lines then
        (applyHunks (done + skip.length + (oldLines lines).length) rest more).map fun out =>
          (skip ++ newLines lines).flatten ++ out
      else none := by
  have hgap : done + skip.length - done = skip.length := Nat.add_sub_cancel_left done skip.length
  have htake : (skip ++ old ++ more).take skip.length = skip := by
    rw [List.append_assoc, List.take_left]
  have hdrop : ((skip ++ old ++ more).drop skip.length).take (oldLines lines).length = old := by
    rw [List.append_assoc, List.drop_left, ← hold, List.take_left]
  have hmore : (skip ++ old ++ more).drop (skip.length + (oldLines lines).length) = more := by
    rw [← hold, ← List.length_append, List.drop_left]
  have hfits : done ≤ done + skip.length ∧ skip.length ≤ (skip ++ old ++ more).length := by
    simp only [List.length_append]
    omega
  rw [applyHunks]
  simp only [hgap, htake, hdrop, hmore, hfits, true_and, List.flatten_append]

theorem ended_bytes {lines : List Line} (hlines : ∀ line ∈ lines, Ended line.text → Ended line.bytes)
    (htext : ∀ text ∈ lines.map Line.text, Ended text) : ∀ b ∈ lines.map Line.bytes, Ended b := by
  intro b hb
  obtain ⟨line, hline, rfl⟩ := List.mem_map.mp hb
  exact hlines line hline (htext _ (List.mem_map_of_mem hline))

theorem exact_cons {lines : List (Tag × Bytes)} {rest : List (Change Bytes)} {n : Nat}
    {S O A S' N B : List Line} (hS : S.length = n) (hS' : S'.length = n)
    (hO : O.map Line.text = oldLines lines) (hN : N.map Line.text = newLines lines) :
    Exact (⟨n, lines⟩ :: rest) (S ++ O ++ A) (S' ++ N ++ B) ↔
      S.map Line.bytes = S'.map Line.bytes ∧ O.map Line.bytes = oldLines lines ∧
        N.map Line.bytes = newLines lines ∧ Exact rest A B := by
  have hlenO : (oldLines lines).length = O.length := by rw [← hO, List.length_map]
  have hlenN : (newLines lines).length = N.length := by rw [← hN, List.length_map]
  have hdropA : (S ++ O ++ A).drop (n + O.length) = A := by
    rw [← hS, ← List.length_append, List.drop_left]
  have hdropB : (S' ++ N ++ B).drop (n + N.length) = B := by
    rw [← hS', ← List.length_append, List.drop_left]
  rw [Exact]
  simp only [hlenO, hlenN, hdropA, hdropB]
  simp only [List.append_assoc, List.take_left' hS, List.take_left' hS', List.drop_left' hS,
    List.drop_left' hS', List.take_left]
  rw [← map_bytes_eq_text, ← map_bytes_eq_text, hO, hN]

/-- Hunks of lines that all have their newline, applied to the file they were made from. -/
theorem applyHunks_place_iff {changes : List (Change Bytes)} {a b : List Bytes}
    (hdiff : Describes changes a b) (hends : EndedUpTo changes a) {A B : List Line}
    (ha : A.map Line.text = a) (hb : B.map Line.text = b)
    (hA : ∀ line ∈ A, Ended line.text → Ended line.bytes)
    (hB : ∀ line ∈ B, Ended line.text → Ended line.bytes) (done doneNew : Nat) :
    applyHunks done (place done doneNew changes) (fileLines (A.flatMap Line.bytes)) =
      some (B.flatMap Line.bytes) ↔ Exact changes A B := by
  induction hdiff generalizing A B done doneNew with
  | done tail =>
    rw [place, applyHunks, flatten_fileLines, Option.some.injEq, Exact]
  | @hunk skip lines rest a b _ _ _ ih =>
    obtain ⟨A₁, A', rfl, hA₁, ha'⟩ := List.map_eq_append_iff.mp ha
    obtain ⟨S, O, rfl, hS, hO⟩ := List.map_eq_append_iff.mp hA₁
    obtain ⟨B₁, B', rfl, hB₁, hb'⟩ := List.map_eq_append_iff.mp hb
    obtain ⟨S', N, rfl, hS', hN⟩ := List.map_eq_append_iff.mp hB₁
    have hlenS : S.length = skip.length := by rw [← hS, List.length_map]
    have hlenS' : S'.length = skip.length := by rw [← hS', List.length_map]
    have hlenO : (O.map Line.bytes).length = (oldLines lines).length := by
      rw [← hO, List.length_map, List.length_map]
    -- the lines that are skipped or shown have their newlines in both files
    obtain ⟨hskip, hshown, hmore⟩ := hends
    have hdropA : (skip ++ oldLines lines ++ a).drop (skip.length + (oldLines lines).length) = a := by
      rw [← List.length_append, List.drop_left]
    rw [hdropA] at hmore
    simp only [List.append_assoc, List.take_left] at hskip
    have holdEnded : ∀ text ∈ oldLines lines, Ended text := by
      intro text htext
      obtain ⟨line, hline, rfl⟩ := mem_oldLines htext
      exact hshown line hline
    have hnewEnded : ∀ text ∈ newLines lines, Ended text := by
      intro text htext
      obtain ⟨line, hline, rfl⟩ := mem_newLines htext
      exact hshown line hline
    have hSe := ended_bytes (fun l hl => hA l (by simp [hl])) (hS ▸ hskip)
    have hS'e := ended_bytes (fun l hl => hB l (by simp [hl])) (hS' ▸ hskip)
    have hOe := ended_bytes (fun l hl => hA l (by simp [hl])) (hO ▸ holdEnded)
    have hNe := ended_bytes (fun l hl => hB l (by simp [hl])) (hN ▸ hnewEnded)
    have hfile : fileLines ((S ++ O ++ A').flatMap Line.bytes) =
        S.map Line.bytes ++ O.map Line.bytes ++ fileLines (A'.flatMap Line.bytes) := by
      have hSO : ∀ b ∈ S.map Line.bytes ++ O.map Line.bytes, Ended b :=
        fun b hb => (List.mem_append.mp hb).elim (hSe b) (hOe b)
      rw [← fileLines_flatten hSO]
      simp only [flatMap_bytes, List.map_append, List.flatten_append]
    have hout : (S' ++ N ++ B').flatMap Line.bytes =
        (S'.map Line.bytes ++ N.map Line.bytes).flatten ++ B'.flatMap Line.bytes := by
      simp only [flatMap_bytes, List.map_append, List.flatten_append]
    have hrest := ih hmore ha' hb' (fun l hl => hA l (by simp [hl])) (fun l hl => hB l (by simp [hl]))
      (done + skip.length + (oldLines lines).length) (doneNew + skip.length + (newLines lines).length)
    have hskipLen : skip.length = (S.map Line.bytes).length := by rw [List.length_map, hlenS]
    rw [exact_cons hlenS hlenS' hO hN, place, hfile, hout]
    simp only [hskipLen] at hrest ⊢
    rw [applyHunks_cons _ _ _ _ hlenO]
    by_cases hshowsOld : O.map Line.bytes = oldLines lines
    · rw [if_pos hshowsOld, Option.map_eq_some_iff]
      constructor
      · rintro ⟨out, hfound, hsame⟩
        have hleft : ∀ b ∈ S.map Line.bytes ++ newLines lines, Ended b :=
          fun b hb => (List.mem_append.mp hb).elim (hSe b) (hnewEnded b)
        have hright : ∀ b ∈ S'.map Line.bytes ++ N.map Line.bytes, Ended b :=
          fun b hb => (List.mem_append.mp hb).elim (hS'e b) (hNe b)
        have hlenSS : (S.map Line.bytes).length = (S'.map Line.bytes).length := by
          rw [List.length_map, List.length_map, hlenS, hlenS']
        have hlen : (S.map Line.bytes ++ newLines lines).length =
            (S'.map Line.bytes ++ N.map Line.bytes).length := by
          simp only [← hN, List.length_append, List.length_map, hlenS, hlenS']
        obtain ⟨hlists, rfl⟩ := flatten_append_inj hleft hright hlen hsame
        obtain ⟨hsameSkip, hsameNew⟩ := List.append_inj hlists hlenSS
        exact ⟨hsameSkip, hshowsOld, hsameNew.symm, hrest.mp hfound⟩
      · rintro ⟨hsameSkip, -, hsameNew, hmore⟩
        exact ⟨_, hrest.mpr hmore, by rw [hsameSkip, hsameNew]⟩
    · rw [if_neg hshowsOld]
      constructor
      · intro h
        cases h
      · rintro ⟨-, hold, -⟩
        exact absurd hold hshowsOld

end MeleeHarness.Lib.Patch
