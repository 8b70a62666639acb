import MeleeHarness.Lib.Hits
import MeleeHarness.Lib.Lines
import MeleeHarness.Lib.Shlex
import MeleeHarness.NinjaCompile.CompileBatch

/-!
# The build edge of a unit

`find_build_block` cuts `build.ninja` at the lines that start with `build ` and takes the
variables of an edge from everything up to the next such line. In ninja an edge has the
indented lines directly below it.

* `findBuildBlock_scoped_iff`: when the two agree, whatever counts as the same value.
-/

namespace MeleeHarness.NinjaCompile

open MeleeHarness.Lib

/-! ## `find_build_block` -/

structure FoundBlock extends BuildBlock where
  src : Text
  deriving DecidableEq

inductive LookupError where
  | noEdge
  | unparsed
  | noInput
  | missing (name : Text)
  /-- `ValueError` from `shlex.split` -/
  | shlexValue
  deriving DecidableEq, Repr

def LookupError.isRuntimeError : LookupError → Bool
  | .shlexValue => false
  | _ => true

def objTarget (objPath : Text) : Text := "build/GALE01/src/".toList ++ objPath ++ ".o".toList

/-- `text.replace("$\n", " ")` -/
def unfoldContinuations : Text → Text
  | '$' :: '\n' :: rest => ' ' :: unfoldContinuations rest
  | c :: rest => c :: unfoldContinuations rest
  | [] => []

/-- What stands behind `build ` at the start of a line. -/
def edgeStart (line : Text) : Option Text :=
  if "build ".toList.isPrefixOf line then some (line.drop 6) else none

/-- `re.split(r"^build ", text, flags=re.M)`, each part as its lines: the part before the
first edge, then one for each edge. -/
def splitEdges : List Text → List Text × List (List Text)
  | [] => ([], [])
  | line :: rest =>
    match edgeStart line with
    | some first => ([], (first :: (splitEdges rest).1) :: (splitEdges rest).2)
    | none => (line :: (splitEdges rest).1, (splitEdges rest).2)

/-- A part that starts with the target and a colon. No line break occurs in a target. -/
def startsEdge (target first : Text) : Bool :=
  (target ++ ":".toList).isPrefixOf first || (target ++ " :".toList).isPrefixOf first

def isEdgeOf (target : Text) : List Text → Bool
  | [] => false
  | first :: _ => startsEdge target first

def edgeBlock (target : Text) (lines : List Text) : Option (List Text) :=
  ((splitEdges lines).1 :: (splitEdges lines).2).find? (isEdgeOf target)

/-- `\s*:\s*(\S+)\s+(.+)` behind the target: where nothing but white space follows the rule,
the last of it is the second group. -/
def ruleAndInputs (target first : Text) : Option (Text × Text) :=
  match ((firstLine first).drop target.length).dropWhile isSpace with
  | ':' :: rest =>
    let body := rest.dropWhile isSpace
    let rule := body.takeWhile (!isSpace ·)
    let gap := body.dropWhile (!isSpace ·)
    let group := gap.dropWhile isSpace
    if rule = [] then none
    else if group ≠ [] then some (rule, group)
    else if 2 ≤ gap.length then some (rule, gap.drop (gap.length - 1))
    else none
  | _ => none

/-- `\s+\|\|?\s+` at the start. -/
def barAt (t : Text) : Bool :=
  t.head?.any isSpace &&
    match t.dropWhile isSpace with
    | '|' :: '|' :: c :: _ => isSpace c
    | '|' :: c :: _ => isSpace c
    | _ => false

/-- `re.split(r"\s+\|\|?\s+", t, maxsplit=1)[0]` -/
def explicitInputs : Text → Text
  | [] => []
  | c :: rest => if barAt (c :: rest) then [] else c :: explicitInputs rest

def identStart (c : Char) : Bool := c.isAlpha || c = '_'

def identChar (c : Char) : Bool := c.isAlphanum || c = '_'

/-- `([A-Za-z_][A-Za-z0-9_]*) = (.*)`, the value stripped. -/
def assignment (t : Text) : Option (Text × Text) :=
  if t.head?.any identStart ∧ " = ".toList.isPrefixOf (t.dropWhile identChar) then
    some (t.takeWhile identChar, strip ((t.dropWhile identChar).drop 3))
  else none

/-- `re.finditer(r"^\s+([A-Za-z_][A-Za-z0-9_]*) = (.*)$", block, re.M)`: the white space before
a name can begin on a blank line above it. -/
def assignments : Bool → List Text → List (Text × Text)
  | _, [] => []
  | afterBlank, line :: rest =>
    if line.all isSpace then assignments true rest
    else if afterBlank || line.head?.any isSpace then
      (assignment (line.dropWhile isSpace)).toList ++ assignments false rest
    else assignments false rest

/-- A dictionary entry: the last value for a name. -/
def lookupLast (name : Text) (vars : List (Text × Text)) : Option Text :=
  (vars.reverse.find? (·.1 = name)).map Prod.snd

def mwVersionName : Text := "mw_version".toList
def cflagsName : Text := "cflags".toList
def extabPaddingName : Text := "extab_padding".toList

def readVars (rule src : Text) (vars : List (Text × Text)) : Except LookupError FoundBlock :=
  match lookupLast mwVersionName vars, lookupLast cflagsName vars with
  | none, _ => .error (.missing mwVersionName)
  | some _, none => .error (.missing cflagsName)
  | some mwVersion, some cflags =>
    .ok ⟨⟨rule, mwVersion, cflags, lookupLast extabPaddingName vars⟩, src⟩

def readBlock (target : Text) (block : List Text) : Except LookupError FoundBlock :=
  match ruleAndInputs target (block.headD []) with
  | none => .error .unparsed
  | some (rule, group) =>
    match Shlex.split (explicitInputs group) with
    | none => .error .shlexValue
    | some [] => .error .noInput
    | some (src :: _) => readVars rule src (assignments false block)

def findBuildBlock (text objPath : Text) : Except LookupError FoundBlock :=
  match edgeBlock (objTarget objPath) ((unfoldContinuations text).splitOn '\n') with
  | none => .error .noEdge
  | some block => readBlock (objTarget objPath) block

/-! ## Lines that set a name -/

/-- A line is seen where it is indented or stands directly behind a blank line. -/
def Visible (before : List Text) (line : Text) : Prop :=
  line.head?.any isSpace = true ∨ before.getLast?.any (·.all isSpace) = true

/-- `name = value`, with one blank on each side of the sign. -/
def Binds (name value line : Text) : Prop :=
  ∃ blank rest, blank.all isSpace = true ∧ line = blank ++ name ++ " = ".toList ++ rest ∧
    value = strip rest

def Sets (name : Text) (before : List Text) (line value : Text) : Prop :=
  Visible before line ∧ Binds name value line

/-! ## Ninja's reading -/

namespace Ninja

/-- A character, or one of a continuation: the dollar and the newline, or a blank that follows
them. -/
inductive Mark where
  | char (c : Char)
  | fold
  deriving DecidableEq, Repr

abbrev Line := List Mark

/-- Where the next character stands: in the white space at the start of a line, behind it, in a
comment, or behind a continuation. -/
inductive Place where
  | start
  | text
  | comment
  | fold
  deriving DecidableEq, Repr

/-- A dollar before a newline continues the line, unless it is itself escaped or in a comment. -/
def marksFrom : Place → Text → List Mark
  | _, [] => []
  | .comment, '\n' :: rest => .char '\n' :: marksFrom .start rest
  | .comment, c :: rest => .char c :: marksFrom .comment rest
  | _, '$' :: '\n' :: rest => .fold :: marksFrom .fold rest
  | _, '$' :: c :: rest => .char '$' :: .char c :: marksFrom .text rest
  | _, '\n' :: rest => .char '\n' :: marksFrom .start rest
  | .fold, ' ' :: rest => .fold :: marksFrom .fold rest
  | .start, ' ' :: rest => .char ' ' :: marksFrom .start rest
  | .start, '#' :: rest => .char '#' :: marksFrom .comment rest
  | _, c :: rest => .char c :: marksFrom .text rest

def lines (text : Text) : List Line := (marksFrom .start text).splitOn (.char '\n')

/-- No line ends in a dollar that is escaped or in a comment, and so does not continue it. -/
def NoStrayDollar (text : Text) : Prop := ¬[Mark.char '$', .char '\n'] <:+: marksFrom .start text

instance (text : Text) : Decidable (NoStrayDollar text) := inferInstanceAs (Decidable (¬_))

namespace Mark

/-- Between two tokens a continuation counts as white space. -/
def seen : Mark → Char
  | .char c => c
  | .fold => ' '

/-- In a path or a value it counts for nothing. -/
def kept : Mark → Option Char
  | .char c => some c
  | .fold => none

def test (p : Char → Bool) (m : Mark) : Bool := m.kept.any p

def blank (m : Mark) : Bool := m.seen = ' '

end Mark

def seen (line : Line) : Text := line.map Mark.seen

def kept (line : Line) : Text := line.filterMap Mark.kept

/-- A dollar escapes a blank, a colon and a dollar. A reference to a variable stays as it is. -/
def unescape : Text → Text
  | '$' :: c :: rest =>
    if c = ' ' ∨ c = ':' ∨ c = '$' then c :: unescape rest else '$' :: c :: unescape rest
  | c :: rest => c :: unescape rest
  | [] => []

def isBlank (line : Line) : Bool := line.all (· = .char ' ')

def isComment (line : Line) : Bool := (line.dropWhile (· = .char ' ')).head? = some (.char '#')

def isIndented (line : Line) : Bool := line.head? = some (.char ' ') && !isBlank line

def nameChar (c : Char) : Bool := c.isAlphanum || c = '_' || c = '.' || c = '-'

/-- `name = value`, with any white space around the sign. -/
def binding (line : Line) : Option (Text × Text) :=
  let body := line.dropWhile Mark.blank
  let name := body.takeWhile (Mark.test nameChar)
  match (body.dropWhile (Mark.test nameChar)).dropWhile Mark.blank with
  | .char '=' :: value =>
    if name = [] then none else some (kept name, unescape (kept (value.dropWhile Mark.blank)))
  | _ => none

def opensBlock (line : Line) : Bool :=
  ["build ", "rule ", "pool "].any fun word => word.toList.isPrefixOf (seen line)

def isStatement (line : Line) : Bool :=
  opensBlock line ||
    (["default ", "include ", "subninja "].any fun word => word.toList.isPrefixOf (seen line)) ||
    (line.head?.any (Mark.test nameChar) && (binding line).isSome)

/-- Indented lines bind variables of the statement above them; a blank line ends it. -/
def grammatical : Bool → List Line → Bool
  | _, [] => true
  | inBlock, line :: rest =>
    if isComment line then grammatical inBlock rest
    else if isBlank line then grammatical false rest
    else if isIndented line then inBlock && (binding line).isSome && grammatical true rest
    else isStatement line && grammatical (opensBlock line) rest

/-- A path, which ends at a blank, a colon or a bar that is not escaped, and what follows it. -/
def readPath : Line → Text × Line
  | [] => ([], [])
  | .fold :: rest => readPath rest
  | .char '$' :: .char c :: rest => (unescape ['$', c] ++ (readPath rest).1, (readPath rest).2)
  | .char c :: rest =>
    if c = ' ' ∨ c = ':' ∨ c = '|' then ([], .char c :: rest)
    else (c :: (readPath rest).1, (readPath rest).2)

/-- What follows the colon, on a line that has the target as its one output. -/
def outputOf (target : Text) (line : Line) : Option Line :=
  if "build ".toList.isPrefixOf (seen line) ∧
      (readPath ((line.drop 6).dropWhile Mark.blank)).1 = target then
    match (readPath ((line.drop 6).dropWhile Mark.blank)).2.dropWhile Mark.blank with
    | .char ':' :: rest => some rest
    | _ => none
  else none

/-- A character of a path that ninja, the tool and a shell all read as itself. -/
def Ordinary (c : Char) : Prop := isSpace c = false ∧ c ∉ ['$', ':', '|', '\'', '"', '\\']

instance (c : Char) : Decidable (Ordinary c) := inferInstanceAs (Decidable (_ ∧ _))

/-- The line of a build edge, what stands behind its colon, and the lines that follow. -/
structure Edge where
  line : Line
  body : Line
  below : List Line
  deriving DecidableEq

def edgesOf (target : Text) : List Line → List Edge
  | [] => []
  | line :: rest =>
    match outputOf target line with
    | some body => ⟨line, body, rest⟩ :: edgesOf target rest
    | none => edgesOf target rest

namespace Edge
variable (edge : Edge)

def rule : Text := kept ((edge.body.dropWhile Mark.blank).takeWhile (Mark.test nameChar))

/-- What stands behind the rule. -/
def paths : Line :=
  ((edge.body.dropWhile Mark.blank).dropWhile (Mark.test nameChar)).dropWhile Mark.blank

def firstInput : Text := (readPath edge.paths).1

/-- The lines of the edge's own block. -/
def ownLines : List Line := edge.below.takeWhile fun line => isComment line || isIndented line

def bindings : List (Text × Text) :=
  (edge.ownLines.filter fun line => !isComment line).filterMap binding

def value (name : Text) : Option Text := lookupLast name edge.bindings

def Complete : Prop :=
  (edge.value mwVersionName).isSome = true ∧ (edge.value cflagsName).isSome = true

/-- The target needs no escape, follows `build ` directly and has its colon after at most one
blank. White space ends the rule. The first input is ended by a blank and ordinary, and the
explicit inputs behind it are words for a shell, too. -/
structure Plain (target : Text) : Prop where
  unescaped : ∀ c ∈ target, isLineBoundary c = false ∧ c ≠ '$' ∧ c ≠ ' ' ∧ c ≠ ':' ∧ c ≠ '|'
  start : startsEdge target ((seen edge.line).drop 6) = true
  rule : edge.rule ≠ []
  space : ((edge.body.dropWhile Mark.blank).dropWhile (Mark.test nameChar)).head?.any Mark.blank = true
  input : ∃ word rest, edge.paths = word.map .char ++ rest ∧ word ≠ [] ∧ (∀ c ∈ word, Ordinary c) ∧
    (∀ m ∈ rest.head?, m = .char ' ') ∧
    (Shlex.split (explicitInputs (firstLine (seen rest)))).isSome = true

/-- The lines behind the edge's own line, up to the next that starts with `build `. -/
def region : List Text := (edge.below.map seen).takeWhile fun line => (edgeStart line).isNone

/-- The last line of the region that sets the name has the edge's value, or there is neither. -/
def Bound (same : Text → Text → Prop) (name : Text) : Prop :=
  match edge.value name with
  | some value => ∃ last, LastHit (Sets name) edge.region last ∧ same last value
  | none => NoHit (Sets name) edge.region

structure Scoped (same : Text → Text → Prop) : Prop where
  values : edge.Complete →
    edge.Bound same mwVersionName ∧ edge.Bound same cflagsName ∧ edge.Bound same extabPaddingName
  missing : ¬edge.Complete →
    NoHit (Sets mwVersionName) edge.region ∨ NoHit (Sets cflagsName) edge.region

/-- The edge's rule, its first input and its values. -/
structure Matches (same : Text → Text → Prop) (found : FoundBlock) : Prop where
  rule : found.rule = edge.rule
  src : found.src = edge.firstInput
  mwVersion : Option.Rel same (some found.mwVersion) (edge.value mwVersionName)
  cflags : Option.Rel same (some found.cflags) (edge.value cflagsName)
  extabPadding : Option.Rel same found.extabPadding (edge.value extabPaddingName)

/-- The edge's own block, or a `RuntimeError` if it lacks a value. -/
structure Gives (same : Text → Text → Prop) (result : Except LookupError FoundBlock) : Prop where
  block : edge.Complete → ∃ found, result = .ok found ∧ edge.Matches same found
  error : ¬edge.Complete → ∃ err : LookupError, result = .error err ∧ err.isRuntimeError = true

end Edge

end Ninja

/-! ## The lines that are read -/

theorem lookupLast_append (name : Text) (a b : List (Text × Text)) :
    lookupLast name (a ++ b) = (lookupLast name b).or (lookupLast name a) := by
  rw [lookupLast, lookupLast, lookupLast, List.reverse_append, List.find?_append]
  cases b.reverse.find? (·.1 = name) <;> rfl

/-- The characters of a variable that the tool reads. -/
def IsIdent (name : Text) : Prop :=
  name.head?.any identStart = true ∧ name.all identChar = true ∧ name.head?.any isSpace = false

instance (name : Text) : Decidable (IsIdent name) := inferInstanceAs (Decidable (_ ∧ _))

theorem assignment_iff {name value line : Text} (hname : IsIdent name) :
    assignment (line.dropWhile isSpace) = some (name, value) ↔ Binds name value line := by
  obtain ⟨hstart, hchars, hspace⟩ := hname
  constructor
  · intro h
    rw [assignment] at h
    split at h
    · rename_i hcond
      obtain ⟨rest, hrest⟩ := List.isPrefixOf_iff_prefix.mp hcond.2
      obtain ⟨hident, hvalue⟩ := Prod.mk.inj (Option.some.inj h)
      refine ⟨line.takeWhile isSpace, rest, List.all_takeWhile, ?_, ?_⟩
      · rw [List.append_assoc, List.append_assoc, hrest, ← hident, List.takeWhile_append_dropWhile,
          List.takeWhile_append_dropWhile]
      · rw [← hvalue, ← hrest]
        rfl
    · cases h
  · rintro ⟨blank, rest, hblank, rfl, rfl⟩
    obtain ⟨c, cs, rfl⟩ : ∃ c cs, name = c :: cs := by
      cases name with
      | nil => simp at hstart
      | cons c cs => exact ⟨c, cs, rfl⟩
    have hdrop : (blank ++ (c :: cs) ++ " = ".toList ++ rest).dropWhile isSpace =
        (c :: cs) ++ (" = ".toList ++ rest) := by
      rw [List.append_assoc, List.append_assoc, List.dropWhile_append_of_pos (List.all_eq_true.mp hblank)]
      simpa using hspace
    have hident : ((c :: cs) ++ (" = ".toList ++ rest)).takeWhile identChar = c :: cs := by
      rw [List.takeWhile_append_of_pos (List.all_eq_true.mp hchars)]
      simp [identChar]
    have hbehind : ((c :: cs) ++ (" = ".toList ++ rest)).dropWhile identChar = " = ".toList ++ rest := by
      rw [List.dropWhile_append_of_pos (List.all_eq_true.mp hchars)]
      simp [identChar]
    rw [hdrop, assignment, hident, hbehind, if_pos]
    · rfl
    · exact ⟨hstart, List.isPrefixOf_iff_prefix.mpr (List.prefix_append _ _)⟩

/-- What one line adds. -/
def lineEntry (afterBlank : Bool) (line : Text) : List (Text × Text) :=
  if line.all isSpace then []
  else if afterBlank || line.head?.any isSpace then (assignment (line.dropWhile isSpace)).toList
  else []

theorem assignments_concat (afterBlank : Bool) (lines : List Text) (line : Text) :
    assignments afterBlank (lines ++ [line]) = assignments afterBlank lines ++
      lineEntry ((lines.getLast?.map (·.all isSpace)).getD afterBlank) line := by
  induction lines generalizing afterBlank with
  | nil => simp only [assignments, lineEntry, List.nil_append, List.getLast?_nil, Option.map_none,
      Option.getD_none, List.append_nil]; rfl
  | cons l rest ih =>
    have hlast : ∀ b, ((l :: rest).getLast?.map (·.all isSpace)).getD b =
        (rest.getLast?.map (·.all isSpace)).getD (l.all isSpace) := by
      intro b
      cases rest using List.reverseRecOn with
      | nil => rfl
      | append_singleton rest last => rw [← List.cons_append, List.getLast?_concat, List.getLast?_concat]; rfl
    rw [hlast, List.cons_append, assignments, assignments, ih, ih]
    cases hblank : l.all isSpace with
    | true => rfl
    | false =>
      simp only [Bool.false_eq_true, if_false]
      split_ifs
      · rw [List.append_assoc]
      · rfl

theorem lookupLast_toList {name value : Text} {entry : Option (Text × Text)} :
    lookupLast name entry.toList = some value ↔ entry = some (name, value) := by
  cases entry with
  | none => simp [lookupLast]
  | some entry =>
    obtain ⟨n, v⟩ := entry
    by_cases hn : n = name <;> simp [lookupLast, hn]

theorem lineEntry_iff {name value line : Text} {before : List Text} (hname : IsIdent name) :
    lookupLast name (lineEntry ((before.getLast?.map (·.all isSpace)).getD false) line) = some value ↔
      Sets name before line value := by
  have hbefore : (before.getLast?.map (·.all isSpace)).getD false = before.getLast?.any (·.all isSpace) := by
    cases before.getLast? <;> rfl
  rw [Sets, ← assignment_iff hname, Visible, lineEntry, hbefore]
  cases hblank : line.all isSpace with
  | true =>
    have hnil : line.dropWhile isSpace = [] := List.dropWhile_eq_nil_iff.mpr (List.all_eq_true.mp hblank)
    simp [hnil, assignment, lookupLast]
  | false =>
    rw [or_comm, ← Bool.or_eq_true]
    cases before.getLast?.any (·.all isSpace) || line.head?.any isSpace with
    | true => simp [lookupLast_toList]
    | false => simp [lookupLast]

/-- The value that is found for a name is that of the last line that sets it. -/
theorem lookupLast_iff {name : Text} (hname : IsIdent name) (lines : List Text) (found : Option Text) :
    lookupLast name (assignments false lines) = found ↔
      match found with
      | some value => LastHit (Sets name) lines value
      | none => NoHit (Sets name) lines := by
  induction lines using List.reverseRecOn generalizing found with
  | nil =>
    cases found with
    | none => exact iff_of_true rfl noHit_nil
    | some value => exact iff_of_false (by simp [assignments, lookupLast]) lastHit_nil
  | append_singleton lines line ih =>
    rw [assignments_concat, lookupLast_append]
    have hline : ∀ value, lookupLast name
        (lineEntry ((lines.getLast?.map (·.all isSpace)).getD false) line) = some value ↔
          Sets name lines line value := fun value => lineEntry_iff hname
    cases hhere : lookupLast name
        (lineEntry ((lines.getLast?.map (·.all isSpace)).getD false) line) with
    | some value =>
      have hsets : Sets name lines line value := (hline value).mp hhere
      cases found with
      | none => exact iff_of_false (by simp) fun h => (noHit_concat.mp h).2 value hsets
      | some other =>
        have hother : Sets name lines line other ↔ value = other := by
          rw [← hline, hhere, Option.some.injEq]
        simp only [Option.some_or, Option.some.injEq, lastHit_concat, hother]
        constructor
        · exact .inl
        · rintro (h | ⟨hnone, -⟩)
          · exact h
          · exact absurd hsets (hnone value)
    | none =>
      have hnone : ∀ value, ¬Sets name lines line value := by
        intro value hsets
        rw [(hline value).mpr hsets] at hhere
        cases hhere
      rw [Option.none_or, ih]
      cases found with
      | none => simp only [noHit_concat, hnone, not_false_eq_true, implies_true, and_true]
      | some value => simp only [lastHit_concat, hnone, not_false_eq_true, implies_true, true_and, false_or]

theorem lookupLast_some_iff {name value : Text} {lines : List Text} (hname : IsIdent name) :
    lookupLast name (assignments false lines) = some value ↔ LastHit (Sets name) lines value :=
  lookupLast_iff hname lines (some value)

theorem lookupLast_none_iff {name : Text} {lines : List Text} (hname : IsIdent name) :
    lookupLast name (assignments false lines) = none ↔ NoHit (Sets name) lines :=
  lookupLast_iff hname lines none

theorem splitEdges_fst (lines : List Text) :
    (splitEdges lines).1 = lines.takeWhile fun line => (edgeStart line).isNone := by
  induction lines with
  | nil => rfl
  | cons line rest ih =>
    cases h : edgeStart line with
    | none => simp [splitEdges, h, ih]
    | some first => simp [splitEdges, h]

/-- The edge is found behind lines that do not start one for the target. -/
theorem find_splitEdges {target first line : Text} {before below : List Text}
    (hbefore : ∀ l ∈ before, ∀ f, edgeStart l = some f → startsEdge target f = false)
    (hline : edgeStart line = some first) (hfirst : startsEdge target first = true) :
    (splitEdges (before ++ line :: below)).2.find? (isEdgeOf target) =
      some (first :: (splitEdges below).1) := by
  induction before with
  | nil => simp [splitEdges, hline, isEdgeOf, hfirst]
  | cons l before ih =>
    have hrest := ih fun l' hl' => hbefore l' (List.mem_cons_of_mem l hl')
    cases h : edgeStart l with
    | none => simpa [splitEdges, h] using hrest
    | some f =>
      have hf := hbefore l List.mem_cons_self f h
      simpa [splitEdges, h, isEdgeOf, hf] using hrest

theorem edgeStart_eq_some {line first : Text} :
    edgeStart line = some first ↔ line = "build ".toList ++ first := by
  rw [edgeStart]
  constructor
  · intro h
    split at h
    · rename_i hbuildLine
      obtain ⟨rest, rfl⟩ := List.isPrefixOf_iff_prefix.mp hbuildLine
      cases h
      rfl
    · cases h
  · rintro rfl
    rw [if_pos (List.isPrefixOf_iff_prefix.mpr (List.prefix_append _ _))]
    rfl

theorem startsEdge_eq_true {target first : Text} (h : startsEdge target first = true) :
    ∃ rest, first = target ++ ':' :: rest ∨ first = target ++ ' ' :: ':' :: rest := by
  rw [startsEdge, Bool.or_eq_true, List.isPrefixOf_iff_prefix, List.isPrefixOf_iff_prefix] at h
  rcases h with ⟨rest, rfl⟩ | ⟨rest, rfl⟩
  · exact ⟨rest, .inl (by simp)⟩
  · exact ⟨rest, .inr (by simp)⟩

theorem objTarget_eq (objPath : Text) :
    objTarget objPath = "build/".toList ++ ("GALE01/src/".toList ++ objPath ++ ".o".toList) := by
  have hpath : "build/GALE01/src/".toList = "build/".toList ++ "GALE01/src/".toList := by decide
  unfold objTarget
  rw [hpath, List.append_assoc, List.append_assoc, List.append_assoc]

theorem startsEdge_objTarget {objPath first : Text} (h : startsEdge (objTarget objPath) first = true) :
    ∃ rest, first = "build/".toList ++ rest := by
  obtain ⟨rest, rfl | rfl⟩ := startsEdge_eq_true h
  · exact ⟨_, by rw [objTarget_eq, List.append_assoc]⟩
  · exact ⟨_, by rw [objTarget_eq, List.append_assoc]⟩

namespace Ninja

theorem unfold_cons {c : Char} {rest : Text} (h : ∀ more, c = '$' → rest ≠ '\n' :: more) :
    unfoldContinuations (c :: rest) = c :: unfoldContinuations rest :=
  unfoldContinuations.eq_2 c rest h

theorem marksFrom_newline (place : Place) (rest : Text) :
    marksFrom place ('\n' :: rest) = .char '\n' :: marksFrom .start rest := by
  cases place <;> simp [marksFrom]

theorem seen_cons (m : Mark) (line : Line) : seen (m :: line) = m.seen :: seen line := rfl

/-- Both readings continue the same lines where no stray dollar ends one. -/
theorem seen_marksFrom {place : Place} {text : Text}
    (h : ¬[Mark.char '$', .char '\n'] <:+: marksFrom place text) :
    seen (marksFrom place text) = unfoldContinuations text := by
  have htail : ∀ {m : Mark} {marks : List Mark}, ¬[Mark.char '$', .char '\n'] <:+: m :: marks →
      ¬[Mark.char '$', .char '\n'] <:+: marks := by
    intro m marks hcons hin
    exact hcons (hin.trans (List.suffix_cons m marks).isInfix)
  fun_induction marksFrom place text with
  | case1 => rfl
  | case3 c rest hc ih =>
    rw [seen_cons, ih (htail h), unfold_cons]
    · rfl
    · rintro more rfl rfl
      rw [marksFrom_newline] at h
      exact h ⟨[], _, rfl⟩
  | case4 place rest _ ih =>
    rw [seen_cons, ih (htail h), unfoldContinuations]
    rfl
  | case5 place c rest _ hc ih =>
    rw [seen_cons, seen_cons, ih (htail (htail h)), unfold_cons, unfold_cons]
    · rfl
    · rintro more rfl rfl
      rw [marksFrom_newline] at h
      exact h ⟨[.char '$'], _, rfl⟩
    · rintro more - hmore
      exact hc (List.cons.inj hmore).1
  | case10 place c rest _ _ hfold _ _ _ _ _ ih =>
    rw [seen_cons, ih (htail h), unfold_cons fun more hc hmore => hfold more hc hmore]
    rfl
  | _ =>
    rename_i rest ih
    rw [seen_cons, ih (htail h), unfold_cons (by simp)]
    rfl

theorem splitOn_seen (marks : List Mark) :
    (seen marks).splitOn '\n' = (marks.splitOn (.char '\n')).map seen := by
  induction marks with
  | nil => rfl
  | cons m marks ih =>
    have hm : (m.seen == '\n') = (m == .char '\n') := by
      cases m with
      | fold => rfl
      | char c => simp [Mark.seen]
    rw [seen_cons, List.splitOn_cons_eq_if_modifyHead, List.splitOn_cons_eq_if_modifyHead, hm, ih]
    split_ifs
    · rfl
    · cases marks.splitOn (.char '\n') <;> rfl

theorem splitOn_unfold {text : Text} (h : NoStrayDollar text) :
    (unfoldContinuations text).splitOn '\n' = (lines text).map seen := by
  rw [← seen_marksFrom h, splitOn_seen]
  rfl

theorem seen_append (a b : Line) : seen (a ++ b) = seen a ++ seen b := List.map_append

/-- What is seen without a blank stands there without a continuation. -/
theorem eq_chars_of_seen {line : Line} {front back : Text} (h : seen line = front ++ back)
    (hfront : ∀ c ∈ front, c ≠ ' ') : ∃ rest, line = front.map Mark.char ++ rest ∧ seen rest = back := by
  induction front generalizing line with
  | nil => exact ⟨line, rfl, h⟩
  | cons c front ih =>
    obtain ⟨hc, hmore⟩ := List.forall_mem_cons.mp hfront
    cases line with
    | nil => cases h
    | cons m line =>
      obtain ⟨hm, hline⟩ := List.cons.inj h
      obtain ⟨rest, rfl, hrest⟩ := ih hline hmore
      cases m with
      | fold => exact absurd hm.symm hc
      | char d =>
        obtain rfl : d = c := hm
        exact ⟨rest, rfl, hrest⟩

/-- A path that needs no escape is read up to what ends it. -/
theorem readPath_chars {path : Text} (hpath : ∀ c ∈ path, c ≠ '$' ∧ c ≠ ' ' ∧ c ≠ ':' ∧ c ≠ '|')
    (rest : Line) :
    readPath (path.map Mark.char ++ rest) = (path ++ (readPath rest).1, (readPath rest).2) := by
  induction path with
  | nil => rfl
  | cons c path ih =>
    obtain ⟨⟨hdollar, hends⟩, hmore⟩ := List.forall_mem_cons.mp hpath
    have hstop : ¬(c = ' ' ∨ c = ':' ∨ c = '|') := by
      rintro (h | h | h)
      · exact hends.1 h
      · exact hends.2.1 h
      · exact hends.2.2 h
    rw [List.map_cons, List.cons_append, readPath.eq_4 _ _ (by simp [hdollar]), if_neg hstop, ih hmore]
    rfl

/-- Behind the path stands its colon, with at most one blank between. -/
theorem readPath_colon {rest : Line} {back : Text}
    (h : seen rest = ':' :: back ∨ seen rest = ' ' :: ':' :: back) :
    (readPath rest).1 = [] ∧
      ∃ more, (readPath rest).2.dropWhile Mark.blank = .char ':' :: more ∧ seen more = back := by
  have hcolon : ∀ {line : Line}, seen line = ':' :: back →
      ∃ more, line = .char ':' :: more ∧ seen more = back := by
    intro line hline
    exact @eq_chars_of_seen _ [':'] _ hline (by simp)
  rcases h with h | h
  · obtain ⟨more, rfl, hmore⟩ := hcolon h
    exact ⟨by simp [readPath], more, by simp [readPath, Mark.blank, Mark.seen], hmore⟩
  · cases rest with
    | nil => cases h
    | cons m rest =>
      obtain ⟨hm, hrest⟩ := List.cons.inj h
      obtain ⟨more, rfl, hmore⟩ := hcolon hrest
      cases m with
      | fold => exact ⟨by simp [readPath], more, by simp [readPath, Mark.blank, Mark.seen], hmore⟩
      | char c =>
        obtain rfl : c = ' ' := hm
        exact ⟨by simp [readPath], more, by simp [readPath, Mark.blank, Mark.seen], hmore⟩

/-- The line of an edge whose target is written plainly. -/
theorem outputOf_of_startsEdge {objPath first : Text} {line : Line}
    (htarget : ∀ c ∈ objTarget objPath, c ≠ '$' ∧ c ≠ ' ' ∧ c ≠ ':' ∧ c ≠ '|')
    (hline : edgeStart (seen line) = some first)
    (hfirst : startsEdge (objTarget objPath) first = true) :
    ∃ body, outputOf (objTarget objPath) line = some body ∧
      (first = objTarget objPath ++ ':' :: seen body ∨
        first = objTarget objPath ++ ' ' :: ':' :: seen body) := by
  have hseen := edgeStart_eq_some.mp hline
  have hbuild : "build ".toList.isPrefixOf (seen line) = true := by
    rw [hseen]
    exact List.isPrefixOf_iff_prefix.mpr (List.prefix_append _ _)
  have hbehind : seen (line.drop 6) = first := by
    rw [seen, List.map_drop, ← seen, hseen]
    rfl
  obtain ⟨back, hback⟩ := startsEdge_eq_true hfirst
  obtain ⟨rest, hrest, hcolon⟩ : ∃ rest, line.drop 6 = (objTarget objPath).map Mark.char ++ rest ∧
      (seen rest = ':' :: back ∨ seen rest = ' ' :: ':' :: back) := by
    rcases hback with hback | hback
    · obtain ⟨rest, hrest, hseenRest⟩ := eq_chars_of_seen (hbehind.trans hback) fun c hc => (htarget c hc).2.1
      exact ⟨rest, hrest, .inl hseenRest⟩
    · obtain ⟨rest, hrest, hseenRest⟩ := eq_chars_of_seen (hbehind.trans hback) fun c hc => (htarget c hc).2.1
      exact ⟨rest, hrest, .inr hseenRest⟩
  have hblank : (line.drop 6).dropWhile Mark.blank = (objTarget objPath).map Mark.char ++ rest := by
    rw [hrest, objTarget_eq]
    rfl
  obtain ⟨hnil, more, hmore, rfl⟩ := readPath_colon hcolon
  refine ⟨more, ?_, hback⟩
  simp only [outputOf, hblank, readPath_chars htarget, hnil, List.append_nil, hbuild, true_and, if_true,
    hmore]

theorem edgesOf_singleton {target : Text} {lines : List Line} {edge : Edge}
    (h : edgesOf target lines = [edge]) :
    ∃ before, lines = before ++ edge.line :: edge.below ∧ outputOf target edge.line = some edge.body ∧
      ∀ line ∈ before, outputOf target line = none := by
  induction lines with
  | nil => cases h
  | cons line rest ih =>
    rw [edgesOf] at h
    cases hline : outputOf target line with
    | some body =>
      rw [hline] at h
      obtain ⟨rfl, -⟩ := List.cons.inj h
      exact ⟨[], rfl, hline, by simp⟩
    | none =>
      rw [hline] at h
      obtain ⟨before, rfl, hbody, hbefore⟩ := ih h
      refine ⟨line :: before, rfl, hbody, ?_⟩
      intro l hl
      rcases List.mem_cons.mp hl with rfl | hl
      · exact hline
      · exact hbefore l hl

/-- No line starts with the path of an object. -/
theorem not_grammatical_path {inBlock : Bool} {line : Line} {path : Text} {rest : List Line}
    (h : seen line = "build/".toList ++ path) : grammatical inBlock (line :: rest) = false := by
  obtain ⟨more, rfl, -⟩ := eq_chars_of_seen h (by simp)
  simp [grammatical, isComment, isBlank, isIndented, isStatement, opensBlock, binding, nameChar, seen,
    Mark.blank, Mark.seen, Mark.test, Mark.kept]

theorem edgeStart_of_outputOf {target : Text} {line body : Line} (h : outputOf target line = some body) :
    edgeStart (seen line) = some ((seen line).drop 6) := by
  rw [outputOf] at h
  split at h
  · rename_i hbuildLine
    rw [edgeStart, if_pos hbuildLine.1]
  · cases h

theorem Edge.Plain.target {edge : Edge} {target : Text} (h : edge.Plain target) :
    ∀ c ∈ target, c ≠ '$' ∧ c ≠ ' ' ∧ c ≠ ':' ∧ c ≠ '|' := fun c hc => (h.unescaped c hc).2

/-- The tool cuts out the edge's line and the lines behind it. -/
theorem edgeBlock_eq {objPath : Text} {lines : List Line} {edge : Edge}
    (hgram : grammatical false lines = true) (hedge : edgesOf (objTarget objPath) lines = [edge])
    (hplain : edge.Plain (objTarget objPath)) :
    edgeBlock (objTarget objPath) (lines.map seen) = some ((seen edge.line).drop 6 :: edge.region) := by
  obtain ⟨before, rfl, hbody, hbefore⟩ := edgesOf_singleton hedge
  have hline := edgeStart_of_outputOf hbody
  have hnone : ∀ l ∈ before.map seen, ∀ f, edgeStart l = some f →
      startsEdge (objTarget objPath) f = false := by
    intro l hl f hf
    obtain ⟨line, hmem, rfl⟩ := List.mem_map.mp hl
    by_contra hstarts
    obtain ⟨body, hbody, -⟩ := outputOf_of_startsEdge hplain.target hf (by simpa using hstarts)
    rw [hbefore line hmem] at hbody
    cases hbody
  have hlines : (before ++ edge.line :: edge.below).map seen =
      before.map seen ++ seen edge.line :: edge.below.map seen := by
    rw [List.map_append, List.map_cons]
  have hfind : (splitEdges ((before ++ edge.line :: edge.below).map seen)).2.find?
      (isEdgeOf (objTarget objPath)) =
        some ((seen edge.line).drop 6 :: (splitEdges (edge.below.map seen)).1) := by
    rw [hlines]
    exact find_splitEdges hnone hline hplain.start
  have hpart : isEdgeOf (objTarget objPath)
      (splitEdges ((before ++ edge.line :: edge.below).map seen)).1 = false := by
    rw [splitEdges_fst, hlines]
    cases before with
    | nil => simp [hline, isEdgeOf]
    | cons l before =>
      rw [List.map_cons, List.cons_append, List.takeWhile_cons]
      split
      · rw [isEdgeOf]
        by_contra hstarts
        obtain ⟨path, hpath⟩ := startsEdge_objTarget (by simpa using hstarts)
        rw [List.cons_append, not_grammatical_path hpath] at hgram
        cases hgram
      · rfl
  rw [edgeBlock, List.find?_cons_of_neg (by rw [hpart]; decide), hfind, splitEdges_fst, Edge.region]

/-! ## The line of the edge -/

theorem isSpace_of_isLineBoundary {c : Char} (h : isLineBoundary c = true) : isSpace c = true := by
  have hall : ∀ n ∈ lineBoundaries, n ∈ whitespace := by decide
  simp only [isLineBoundary, isSpace, List.contains_iff_mem] at h ⊢
  exact hall _ h

theorem firstLine_append {a : Text} (h : ∀ c ∈ a, isLineBoundary c = false) (b : Text) :
    firstLine (a ++ b) = a ++ firstLine b :=
  List.takeWhile_append_of_pos (by simpa using h)

theorem nameChar_not_space {c : Char} (h : nameChar c = true) : isSpace c = false := by
  have hall : ∀ n ∈ whitespace, nameChar (Char.ofNat n) = false := by decide
  by_contra hspace
  have hmem : c.toNat ∈ whitespace := by simpa [isSpace] using hspace
  have hnot := hall _ hmem
  rw [Char.ofNat_toNat, h] at hnot
  cases hnot

theorem explicitInputs_append {word : Text} (h : ∀ c ∈ word, isSpace c = false) (t : Text) :
    explicitInputs (word ++ t) = word ++ explicitInputs t := by
  induction word with
  | nil => rfl
  | cons c word ih =>
    obtain ⟨hc, hword⟩ := List.forall_mem_cons.mp h
    have hbar : barAt (c :: (word ++ t)) = false := by simp [barAt, hc]
    rw [List.cons_append, explicitInputs, hbar, ih hword]
    rfl

theorem go_ordinary {word : Text} (h : ∀ c ∈ word, Ordinary c) (token t : Text) :
    Shlex.go .plain token false (word ++ t) = Shlex.go .plain (token ++ word) false t := by
  induction word generalizing token with
  | nil => rw [List.append_nil, List.nil_append]
  | cons c word ih =>
    obtain ⟨⟨hspace, hplain⟩, hword⟩ := List.forall_mem_cons.mp h
    simp only [List.mem_cons, List.not_mem_nil, or_false, not_or] at hplain
    have hblank : Shlex.blank c = false := by
      by_contra hblank
      simp only [Shlex.blank, Bool.not_eq_false, Bool.or_eq_true, decide_eq_true_eq] at hblank
      rcases hblank with ((rfl | rfl) | rfl) | rfl <;> exact absurd hspace (by decide)
    have hquote : ¬(c = '"' ∨ c = '\'') := fun hq => hq.elim hplain.2.2.2.2.1 hplain.2.2.2.1
    rw [List.cons_append, Shlex.go, if_neg (by simp [hblank]), if_neg hplain.2.2.2.2.2, if_neg hquote,
      ih hword]
    simp

/-- An ordinary word in front of more words. -/
theorem split_ordinary {word t : Text} (hne : word ≠ []) (h : ∀ c ∈ word, Ordinary c)
    (ht : ∀ c ∈ t.head?, c = ' ') (hsome : (Shlex.split t).isSome = true) :
    ∃ more, Shlex.split (word ++ t) = some (word :: more) := by
  rw [Shlex.split, go_ordinary h, List.nil_append]
  cases t with
  | nil => exact ⟨[], by simp [Shlex.go, Shlex.emit, hne]⟩
  | cons c t =>
    obtain rfl := ht c rfl
    have hblank : Shlex.blank ' ' = true := rfl
    rw [Shlex.split, Shlex.go, if_pos hblank, Option.isSome_map] at hsome
    obtain ⟨more, hmore⟩ := Option.isSome_iff_exists.mp hsome
    refine ⟨more, ?_⟩
    rw [Shlex.go, if_pos hblank, hmore]
    simp [Shlex.emit, hne]

theorem head_explicitInputs {t : Text} (h : ∀ c ∈ t.head?, c = ' ') : ∀ c ∈ (explicitInputs t).head?, c = ' ' := by
  cases t with
  | nil => exact h
  | cons d t =>
    rw [explicitInputs]
    split_ifs
    · simp
    · exact h

theorem head_firstLine {t : Text} (h : ∀ c ∈ t.head?, c = ' ') : ∀ c ∈ (firstLine t).head?, c = ' ' := by
  cases t with
  | nil => exact h
  | cons d t =>
    obtain rfl := h d rfl
    have hblank : isLineBoundary ' ' = false := by decide
    simp [firstLine, hblank]

theorem readPath_ordinary {word : Text} {rest : Line} (h : ∀ c ∈ word, Ordinary c)
    (hrest : ∀ m ∈ rest.head?, m = .char ' ') : (readPath (word.map .char ++ rest)).1 = word := by
  have hword : ∀ c ∈ word, c ≠ '$' ∧ c ≠ ' ' ∧ c ≠ ':' ∧ c ≠ '|' := by
    intro c hc
    obtain ⟨hspace, hplain⟩ := h c hc
    simp only [List.mem_cons, List.not_mem_nil, or_false, not_or] at hplain
    refine ⟨hplain.1, ?_, hplain.2.1, hplain.2.2.1⟩
    rintro rfl
    exact absurd hspace (by decide)
  have hend : (readPath rest).1 = [] := by
    cases rest with
    | nil => rfl
    | cons m rest =>
      obtain rfl := hrest m rfl
      simp [readPath]
  rw [readPath_chars hword, hend, List.append_nil]

theorem seen_blanks {line : Line} (h : ∀ m ∈ line, m.blank = true) : ∀ c ∈ seen line, c = ' ' := by
  intro c hc
  obtain ⟨m, hm, rfl⟩ := List.mem_map.mp hc
  simpa [Mark.blank] using h m hm

theorem seen_test (line : Line) {p : Char → Bool} (h : ∀ m ∈ line, m.test p = true) :
    seen line = kept line ∧ ∀ c ∈ seen line, p c = true := by
  induction line with
  | nil => exact ⟨rfl, by simp [seen]⟩
  | cons m line ih =>
    obtain ⟨hm, hline⟩ := List.forall_mem_cons.mp h
    obtain ⟨hsame, hall⟩ := ih hline
    cases m with
    | fold => cases hm
    | char c =>
      constructor
      · show c :: seen line = c :: kept line
        rw [hsame]
      · exact List.forall_mem_cons.mpr ⟨hm, hall⟩

theorem dropWhile_isSpace_blanks {blanks rest : Text} (h : ∀ c ∈ blanks, c = ' ') :
    (blanks ++ rest).dropWhile isSpace = rest.dropWhile isSpace := by
  apply List.dropWhile_append_of_pos
  intro c hc
  rw [h c hc]
  rfl

/-- The parts of a plain edge's line: blanks, the rule, blanks, the first input and the rest. -/
theorem Edge.Plain.body_eq {edge : Edge} {target : Text} (h : edge.Plain target) :
    ∃ gap space word rest, seen edge.body = gap ++ edge.rule ++ space ++ word ++ seen rest ∧
      (∀ c ∈ gap, c = ' ') ∧ (∀ c ∈ edge.rule, isSpace c = false) ∧ space ≠ [] ∧ (∀ c ∈ space, c = ' ') ∧
      edge.firstInput = word ∧ word ≠ [] ∧ (∀ c ∈ word, Ordinary c) ∧
      (∀ c ∈ (seen rest).head?, c = ' ') ∧
      (Shlex.split (explicitInputs (firstLine (seen rest)))).isSome = true := by
  obtain ⟨word, rest, hpaths, hne, hword, hrest, hsplit⟩ := h.input
  let behind := edge.body.dropWhile Mark.blank
  let tail := behind.dropWhile (Mark.test nameChar)
  have hrule := seen_test (behind.takeWhile (Mark.test nameChar)) fun m hm =>
    List.mem_takeWhile_imp hm
  have hspace : seen (tail.takeWhile Mark.blank) ≠ [] := by
    have hhead : tail.head?.any Mark.blank = true := h.space
    cases htail : tail with
    | nil => simp [htail] at hhead
    | cons m ms =>
      have hm : m.blank = true := by simpa [htail] using hhead
      simp [seen, hm]
  have hbody : edge.body = edge.body.takeWhile Mark.blank ++ behind.takeWhile (Mark.test nameChar) ++
      tail.takeWhile Mark.blank ++ edge.paths := by
    have hpath : edge.paths = tail.dropWhile Mark.blank := rfl
    rw [hpath, List.append_assoc, List.takeWhile_append_dropWhile, List.append_assoc,
      List.takeWhile_append_dropWhile, List.takeWhile_append_dropWhile]
  refine ⟨seen (edge.body.takeWhile Mark.blank), seen (tail.takeWhile Mark.blank), word, rest, ?_,
    seen_blanks fun m hm => List.mem_takeWhile_imp hm, ?_, hspace,
    seen_blanks fun m hm => List.mem_takeWhile_imp hm, ?_, hne, hword, ?_, hsplit⟩
  · have hchars : seen (word.map Mark.char) = word := by simp [seen, Function.comp_def, Mark.seen]
    conv_lhs => rw [hbody, hpaths]
    rw [seen_append, seen_append, seen_append, seen_append, hrule.1, hchars, ← List.append_assoc]
    rfl
  · intro c hc
    apply nameChar_not_space
    apply hrule.2
    rw [hrule.1]
    exact hc
  · rw [Edge.firstInput, hpaths, readPath_ordinary hword hrest]
  · cases rest with
    | nil => simp [seen]
    | cons m rest =>
      obtain rfl := hrest m rfl
      simp [seen, Mark.seen]

theorem ruleAndInputs_eq {target first mid gap rule space word rest : Text}
    (hfirst : firstLine first = target ++ (mid ++ ':' :: (gap ++ rule ++ space ++ word ++ rest)))
    (hmid : ∀ c ∈ mid, c = ' ') (hgap : ∀ c ∈ gap, c = ' ') (hrule : ∀ c ∈ rule, isSpace c = false)
    (hruleNe : rule ≠ []) (hspace : ∀ c ∈ space, c = ' ') (hspaceNe : space ≠ [])
    (hword : ∀ c ∈ word, isSpace c = false) (hwordNe : word ≠ []) :
    ruleAndInputs target first = some (rule, word ++ rest) := by
  have hcolon : ((firstLine first).drop target.length).dropWhile isSpace =
      ':' :: (gap ++ rule ++ space ++ word ++ rest) := by
    rw [hfirst, List.drop_left, dropWhile_isSpace_blanks hmid]
    rfl
  have hsolid : ∀ {t more : Text}, t ≠ [] → (∀ c ∈ t, isSpace c = false) →
      (t ++ more).dropWhile isSpace = t ++ more := by
    intro t more hne ht
    obtain ⟨c, cs, rfl⟩ := List.exists_cons_of_ne_nil hne
    rw [List.cons_append, List.dropWhile_cons, ht c (by simp)]
    rfl
  have hbody : (gap ++ rule ++ space ++ word ++ rest).dropWhile isSpace = rule ++ (space ++ (word ++ rest)) := by
    rw [List.append_assoc, List.append_assoc, List.append_assoc, dropWhile_isSpace_blanks hgap,
      hsolid hruleNe hrule]
  obtain ⟨blank, blanks, rfl⟩ := List.exists_cons_of_ne_nil hspaceNe
  obtain rfl : blank = ' ' := hspace blank (by simp)
  have htake : (rule ++ (' ' :: blanks ++ (word ++ rest))).takeWhile (!isSpace ·) = rule := by
    rw [List.takeWhile_append_of_pos (by simpa using hrule)]
    simp [isSpace, whitespace]
  have hdrop : (rule ++ (' ' :: blanks ++ (word ++ rest))).dropWhile (!isSpace ·) =
      ' ' :: blanks ++ (word ++ rest) := by
    rw [List.dropWhile_append_of_pos (by simpa using hrule)]
    simp [isSpace, whitespace]
  have hgroup : (' ' :: blanks ++ (word ++ rest)).dropWhile isSpace = word ++ rest := by
    rw [dropWhile_isSpace_blanks hspace, hsolid hwordNe hword]
  have hgroupNe : word ++ rest ≠ [] := by simp [hwordNe]
  simp only [ruleAndInputs, hcolon, hbody, htake, hdrop, hgroup, if_neg hruleNe, if_pos hgroupNe]

theorem Edge.Plain.read {objPath : Text} {edge : Edge}
    (hbody : outputOf (objTarget objPath) edge.line = some edge.body)
    (h : edge.Plain (objTarget objPath)) : ∃ group more,
      ruleAndInputs (objTarget objPath) ((seen edge.line).drop 6) = some (edge.rule, group) ∧
        Shlex.split (explicitInputs group) = some (edge.firstInput :: more) := by
  obtain ⟨gap, space, word, rest, hparts, hgap, hrule, hspaceNe, hspace, rfl, hne, hword, hrest, hsplit⟩ :=
    h.body_eq
  have hordinary : ∀ c ∈ edge.firstInput, isSpace c = false := fun c hc => (hword c hc).1
  obtain ⟨more, hmore⟩ := split_ordinary hne hword (head_explicitInputs (head_firstLine hrest)) hsplit
  have hfirst : ∀ mid, (∀ c ∈ mid, c = ' ') →
      (seen edge.line).drop 6 = objTarget objPath ++ (mid ++ ':' :: seen edge.body) →
      firstLine ((seen edge.line).drop 6) = objTarget objPath ++
        (mid ++ ':' :: (gap ++ edge.rule ++ space ++ edge.firstInput ++ firstLine (seen rest))) := by
    intro mid hmid hline
    have hunbroken : ∀ c, isSpace c = false → isLineBoundary c = false := by
      intro c hc
      by_contra hbreak
      rw [isSpace_of_isLineBoundary (by simpa using hbreak)] at hc
      cases hc
    have hblank : isLineBoundary ' ' = false := by decide
    have hfront : ∀ c ∈ objTarget objPath ++ (mid ++ ':' :: (gap ++ edge.rule ++ space ++ edge.firstInput)),
        isLineBoundary c = false := by
      intro c hc
      simp only [List.mem_append, List.mem_cons] at hc
      rcases hc with hc | hc | rfl | ((hc | hc) | hc) | hc
      · exact (h.unescaped c hc).1
      · rw [hmid c hc]; exact hblank
      · decide
      · rw [hgap c hc]; exact hblank
      · exact hunbroken c (hrule c hc)
      · rw [hspace c hc]; exact hblank
      · exact hunbroken c (hordinary c hc)
    have hwhole : (seen edge.line).drop 6 = objTarget objPath ++
        (mid ++ ':' :: (gap ++ edge.rule ++ space ++ edge.firstInput)) ++ seen rest := by
      rw [hline, hparts]
      simp
    rw [hwhole, firstLine_append hfront]
    simp
  refine ⟨edge.firstInput ++ firstLine (seen rest), more, ?_, ?_⟩
  · obtain ⟨body, hread, hstart⟩ := outputOf_of_startsEdge h.target (edgeStart_of_outputOf hbody) h.start
    obtain rfl : edge.body = body := Option.some.inj (hbody.symm.trans hread)
    rcases hstart with hstart | hstart
    · exact ruleAndInputs_eq (hfirst [] (by simp) hstart) (by simp) hgap hrule h.rule hspace hspaceNe
        hordinary hne
    · exact ruleAndInputs_eq (hfirst [' '] (by simp) hstart) (by simp) hgap hrule h.rule hspace hspaceNe
        hordinary hne
  · rw [explicitInputs_append hordinary, hmore]

theorem findBuildBlock_eq {text objPath : Text} {edge : Edge} (hdollar : NoStrayDollar text)
    (hgram : grammatical false (lines text) = true)
    (hedge : edgesOf (objTarget objPath) (lines text) = [edge])
    (hplain : edge.Plain (objTarget objPath)) :
    findBuildBlock text objPath =
      readVars edge.rule edge.firstInput (assignments false edge.region) := by
  obtain ⟨-, -, hbody, -⟩ := edgesOf_singleton hedge
  obtain ⟨group, more, hgroup, hwords⟩ := hplain.read hbody
  obtain ⟨path, hpath⟩ := startsEdge_objTarget hplain.start
  have hvars : assignments false ((seen edge.line).drop 6 :: edge.region) =
      assignments false edge.region := by
    rw [hpath]
    rfl
  rw [findBuildBlock, splitOn_unfold hdollar, edgeBlock_eq hgram hedge hplain]
  simp only [readBlock, List.headD_cons, hgroup, hwords, hvars]

theorem isIdent_mwVersion : IsIdent mwVersionName := by decide

theorem isIdent_cflags : IsIdent cflagsName := by decide

theorem isIdent_extabPadding : IsIdent extabPaddingName := by decide

/-- The value that the tool finds for a name. -/
def Edge.found (edge : Edge) (name : Text) : Option Text :=
  lookupLast name (assignments false edge.region)

theorem Edge.found_none {edge : Edge} {name : Text} (hname : IsIdent name) :
    edge.found name = none ↔ NoHit (Sets name) edge.region :=
  lookupLast_none_iff hname

theorem Edge.bound_iff {edge : Edge} {same : Text → Text → Prop} {name : Text} (hname : IsIdent name) :
    edge.Bound same name ↔ Option.Rel same (edge.found name) (edge.value name) := by
  rw [Edge.Bound]
  cases edge.value name with
  | none =>
    simp only [← Edge.found_none hname]
    cases edge.found name <;> simp
  | some value =>
    simp only [← lookupLast_some_iff hname]
    rw [← Edge.found]
    cases edge.found name <;> simp

theorem readVars_error_iff (rule src : Text) (vars : List (Text × Text)) :
    (∃ err : LookupError, readVars rule src vars = .error err ∧ err.isRuntimeError = true) ↔
      lookupLast mwVersionName vars = none ∨ lookupLast cflagsName vars = none := by
  rw [readVars]
  cases lookupLast mwVersionName vars with
  | none => exact iff_of_true ⟨_, rfl, rfl⟩ (.inl rfl)
  | some mwVersion =>
    cases lookupLast cflagsName vars with
    | none => exact iff_of_true ⟨_, rfl, rfl⟩ (.inr rfl)
    | some cflags => simp

theorem readVars_ok_iff {edge : Edge} (same : Text → Text → Prop) (hcomplete : edge.Complete) :
    (∃ found, readVars edge.rule edge.firstInput (assignments false edge.region) = .ok found ∧
        edge.Matches same found) ↔
      Option.Rel same (edge.found mwVersionName) (edge.value mwVersionName) ∧
        Option.Rel same (edge.found cflagsName) (edge.value cflagsName) ∧
        Option.Rel same (edge.found extabPaddingName) (edge.value extabPaddingName) := by
  obtain ⟨mwVersion, hmw⟩ := Option.isSome_iff_exists.mp hcomplete.1
  obtain ⟨cflags, hcflags⟩ := Option.isSome_iff_exists.mp hcomplete.2
  rw [readVars, ← Edge.found, ← Edge.found, ← Edge.found]
  constructor
  · rintro ⟨found, hfound, hmatches⟩
    split at hfound
    · cases hfound
    · cases hfound
    · rename_i hfoundMw hfoundCflags
      cases hfound
      rw [hfoundMw, hfoundCflags]
      exact ⟨hmatches.mwVersion, hmatches.cflags, hmatches.extabPadding⟩
  · rintro ⟨hrelMw, hrelCflags, hrelExtab⟩
    cases hfoundMw : edge.found mwVersionName with
    | none => simp [hfoundMw, hmw] at hrelMw
    | some foundMw =>
      cases hfoundCflags : edge.found cflagsName with
      | none => simp [hfoundCflags, hcflags] at hrelCflags
      | some foundCflags =>
        rw [hfoundMw] at hrelMw
        rw [hfoundCflags] at hrelCflags
        exact ⟨_, rfl, rfl, rfl, hrelMw, hrelCflags, hrelExtab⟩

theorem Edge.scoped_iff {edge : Edge} {same : Text → Text → Prop} (hcomplete : edge.Complete) :
    edge.Scoped same ↔ ∀ name ∈ [mwVersionName, cflagsName, extabPaddingName],
      Option.Rel same (edge.found name) (edge.value name) := by
  have hnames : (∀ name ∈ [mwVersionName, cflagsName, extabPaddingName],
      Option.Rel same (edge.found name) (edge.value name)) ↔ edge.Bound same mwVersionName ∧
        edge.Bound same cflagsName ∧ edge.Bound same extabPaddingName := by
    rw [Edge.bound_iff isIdent_mwVersion, Edge.bound_iff isIdent_cflags,
      Edge.bound_iff isIdent_extabPadding]
    simp
  rw [hnames]
  exact ⟨fun h => h.values hcomplete, fun h => ⟨fun _ => h, absurd hcomplete⟩⟩

/-- An edge with a comment among its bindings and a continued line, and a rule above it. -/
def plainText : Text :=
  ("rule mwcc\n  command = wibo $in\n\nbuild build/GALE01/src/a.o: mwcc src/a.c | $\n    t.h\n" ++
    "  mw_version = GC/1.2.5n\n  # flags\n  cflags = -O4,p -inline auto\n").toList

def chars (text : String) : Line := text.toList.map .char

def plainEdge : Edge where
  line := chars "build build/GALE01/src/a.o: mwcc src/a.c | " ++ (List.replicate 5 .fold ++ chars "t.h")
  body := chars " mwcc src/a.c | " ++ (List.replicate 5 .fold ++ chars "t.h")
  below := [chars "  mw_version = GC/1.2.5n", chars "  # flags",
    chars "  cflags = -O4,p -inline auto", []]

/-- An edge with flags on two lines. -/
def continuedText : Text :=
  ("build build/GALE01/src/a.o: mwcc src/a.c\n  mw_version = GC/1.2.5n\n" ++
    "  cflags = -O4,p $\n    -inline auto\n").toList

def continuedEdge : Edge where
  line := chars "build build/GALE01/src/a.o: mwcc src/a.c"
  body := chars " mwcc src/a.c"
  below := [chars "  mw_version = GC/1.2.5n",
    chars "  cflags = -O4,p " ++ (List.replicate 5 .fold ++ chars "-inline auto"), []]

/-- Two values are the same words for a shell. -/
def SameWords (a b : Text) : Prop := Shlex.split a = Shlex.split b

/-- An edge, a blank line, and a variable of the file. -/
def leakText : Text :=
  ("build build/GALE01/src/a.o: mwcc src/a.c\n" ++
    "  mw_version = GC/1.2.5n\n  cflags = -O4,p\n\ncflags = -O0\n").toList

end Ninja

end MeleeHarness.NinjaCompile
