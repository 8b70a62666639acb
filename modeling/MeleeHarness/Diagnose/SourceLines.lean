import MeleeHarness.Diagnose.Braces
import MeleeHarness.Lib.CText
import MeleeHarness.Lib.Lines
import MeleeHarness.Lib.Regex

/-!
# Lines of local declarations

`parse_source_locals` and `source_decl_statements` look for declarations in the body of a
function, from which comments have been stripped, and report the lines they stand on.

* `strip_sublist`, `strip_map`: stripping drops characters and keeps the places of the
  others;
* `exists_line_of_local`, `mem_foundDecls`: the lines that are reported;
* `Front` reads the body as C does and knows where each declaration begins;
* `reported_lines_iff`: when they are the lines of the file.
-/

namespace MeleeHarness.Diagnose

open Lib

/-! ## The function -/

/-- A file that is opened as text: every line ends with a newline. -/
def readText : Text → Text
  | [] => []
  | '\r' :: '\n' :: rest => '\n' :: readText rest
  | c :: rest => (if c = '\r' then '\n' else c) :: readText rest

def findFrom (c : Char) (text : Text) (start : Nat) : Option Nat :=
  ((text.drop start).findIdx? (· = c)).map (start + ·)

/-- `\bfunc\s*\(`. -/
def callRe (func : String) : Regex :=
  .seq .wordEdge <| .seq (.word func) <| .seq (.many isSpace) (.one (· = '('))

/-- The braces of the first definition that is found. -/
def sourceFunctionAt (text : Text) (func : String) : Option (Nat × Nat) :=
  ((callRe func).finditer text).findSome? fun span =>
    match findFrom '{' text span.2 with
    | none => none
    | some brace =>
      if (findFrom ';' text span.2).any (· < brace) then none
      else (findMatchingBrace text brace).map (brace, ·)

def newlines (t : Text) : Nat := t.count '\n'

def bodyOf (text : Text) (brace stop : Nat) : Text := (text.take stop).drop (brace + 1)

def startLine (text : Text) (brace : Nat) : Nat := newlines (text.take brace) + 1

def extractSourceFunction (text : Text) (func : String) : Option (Text × Nat) :=
  (sourceFunctionAt text func).map fun (brace, stop) => (bodyOf text brace stop, startLine text brace)

/-! ## Comments -/

section
variable {α : Type} (ch : α → Char)

def hasClose : List α → Bool
  | x :: y :: rest => (ch x = '*' && ch y = '/') || hasClose (y :: rest)
  | _ => false

/-- `/\*.*?\*/` is taken out of a list of characters, which may carry other data. -/
def dropBlocks : Bool → List α → List α
  | _, [] => []
  | inside, [x] => if inside then [] else [x]
  | true, x :: y :: rest =>
    if ch x = '*' ∧ ch y = '/' then dropBlocks false rest else dropBlocks true (y :: rest)
  | false, x :: y :: rest =>
    if ch x = '/' ∧ ch y = '*' ∧ hasClose ch rest then dropBlocks true rest
    else x :: dropBlocks false (y :: rest)

/-- `//.*` -/
def dropLines : Bool → List α → List α
  | _, [] => []
  | true, x :: rest =>
    if ch x = '\n' then x :: dropLines false rest else dropLines true rest
  | false, [x] => [x]
  | false, x :: y :: rest =>
    if ch x = '/' ∧ ch y = '/' then dropLines true rest else x :: dropLines false (y :: rest)

def stripCComments (xs : List α) : List α := dropLines ch false (dropBlocks ch false xs)

theorem dropBlocks_sublist (inside : Bool) (xs : List α) :
    (dropBlocks ch inside xs).Sublist xs := by
  fun_induction dropBlocks ch inside xs <;> simp_all

theorem dropLines_sublist (inside : Bool) (xs : List α) : (dropLines ch inside xs).Sublist xs := by
  fun_induction dropLines ch inside xs <;> simp_all

theorem strip_sublist (xs : List α) : (stripCComments ch xs).Sublist xs :=
  (dropLines_sublist ch false _).trans (dropBlocks_sublist ch false xs)

theorem hasClose_map (xs : List α) : hasClose id (xs.map ch) = hasClose ch xs := by
  induction xs with
  | nil => rfl
  | cons x xs ih =>
    cases xs with
    | nil => rfl
    | cons y xs =>
      rw [List.map_cons] at ih
      simp [hasClose, ih]

theorem dropBlocks_map (inside : Bool) (xs : List α) :
    (dropBlocks ch inside xs).map ch = dropBlocks id inside (xs.map ch) := by
  fun_induction dropBlocks ch inside xs <;> simp_all [dropBlocks, hasClose_map]

theorem dropLines_map (inside : Bool) (xs : List α) :
    (dropLines ch inside xs).map ch = dropLines id inside (xs.map ch) := by
  fun_induction dropLines ch inside xs <;> simp_all [dropLines]

theorem strip_map (xs : List α) :
    (stripCComments ch xs).map ch = stripCComments id (xs.map ch) := by
  rw [stripCComments, dropLines_map, dropBlocks_map, stripCComments]

end

/-! ## Declarations -/

def occursIn (token t : Text) : Bool := t.tails.any token.isPrefixOf

/-- `(?:\[[^\]]+\]\s*)*$`, behind a name. -/
def bracketsOnly : Option Bool → Text → Bool
  | none, [] => true
  | none, c :: rest =>
    if c = '[' then bracketsOnly (some false) rest else isSpace c && bracketsOnly none rest
  | some _, [] => false
  | some filled, c :: rest =>
    if c = ']' then filled && bracketsOnly none rest else bracketsOnly (some true) rest

def nameStart (c : Char) : Bool := c.isAlpha || c = '_'

/-- `([A-Za-z_]\w*)\s*((?:\[[^\]]+\]\s*)*)$`: what stands before the name, the name, and the
brackets. -/
def searchName (before : Text) : Text → Option (Text × Text × Text)
  | [] => none
  | c :: rest =>
    let name := (c :: rest).takeWhile Regex.wordChar
    let behind := ((c :: rest).dropWhile Regex.wordChar).dropWhile isSpace
    if nameStart c && bracketsOnly none behind then some (before, name, behind)
    else searchName (before ++ [c]) rest

/-- `int(value, 0)` of a numeral with a sign: no zeros lead a decimal one. -/
def parseOptionalInt (value : Text) : Option Int :=
  let magnitude (t : Text) : Option Int :=
    if "0x".toList.isPrefixOf t then intBase16 t
    else if t.head? = some '0' && t.any (· ≠ '0') then none
    else intBase10 t
  match value with
  | '-' :: rest => (magnitude rest).map fun n => -n
  | _ => magnitude value

def numberRe : Regex :=
  .seq (.opt (.one (· = '-'))) <|
  .alt (.seq (.word "0x") (.many1 fun c => (hexDigit c).isSome)) (.many1 Char.isDigit)

/-- What stands between two characters of a match, without the white space around it. -/
def groupBetween (left : Char) (t : Text) (span : Nat × Nat) : Text :=
  strip ((((t.take span.2).drop span.1).dropWhile (· ≠ left)).drop 1).dropLast

/-- `\[\s*(-?(?:0x[0-9a-fA-F]+|\d+))\s*\]` -/
def arraySizeRe : Regex :=
  .seq (.one (· = '[')) <| .seq (.many isSpace) <| .seq numberRe <| .seq (.many isSpace) <|
  .one (· = ']')

structure DeclName where
  name : Text
  typeText : Text
  size : Option Int
  deriving DecidableEq, Repr

def declNameFromStatement (stmt : Text) : Option DeclName :=
  let left := strip (stmt.takeWhile (· ≠ '='))
  if left = [] ∨ ["->", ".", "(", ")", "+", "-"].any (fun token => occursIn token.toList left) then
    none
  else
    match searchName [] left with
    | none => none
    | some (before, name, arrays) =>
      let typeText := strip before
      if typeText.any nameStart = false ∨
          ["return", "if", "for", "while", "switch", "case", "goto"].any
            (fun keyword => keyword.toList = typeText) then none
      else
        some
          { name, typeText
            size := ((arraySizeRe.finditer arrays).head?).bind fun span =>
              parseOptionalInt (groupBetween '[' arrays span) }

inductive LocalKind where
  | padStack | pad | var
  deriving DecidableEq, Repr

structure SourceLocal where
  name : Text
  typeText : Text
  index : Nat
  lineNo : Nat
  kind : LocalKind
  size : Option Int
  raw : Text
  scopeDepth : Nat
  deriving DecidableEq, Repr

/-- `\b(?:FORCE_)?PAD_STACK\s*\(\s*(-?(?:0x[0-9a-fA-F]+|\d+))\s*\)` -/
def padStackRe : Regex :=
  .seq .wordEdge <| .seq (.opt (.word "FORCE_")) <| .seq (.word "PAD_STACK") <|
  .seq (.many isSpace) <| .seq (.one (· = '(')) <| .seq (.many isSpace) <| .seq numberRe <|
  .seq (.many isSpace) <| .one (· = ')')

def updateScopeDepth (scopeDepth : Nat) (line : Text) : Nat :=
  scopeDepth + line.count '{' - line.count '}'

def padMatch (stripped : Text) : Option (Nat × Nat) := (padStackRe.finditer stripped).head?

/-- What a line declares. -/
def lineLocal (line : Text) (index lineNo scopeDepth : Nat) : Option SourceLocal :=
  let stripped := strip line
  let leadingClose := ((line.dropWhile isSpace).takeWhile (· = '}')).length
  let localScopeDepth := scopeDepth - leadingClose
  match padMatch stripped with
  | some span =>
    some
      { name := "PAD_STACK".toList, typeText := "PAD_STACK".toList, index, lineNo
        kind := .padStack, size := parseOptionalInt (groupBetween '(' stripped span)
        raw := stripped, scopeDepth := localScopeDepth }
  | none =>
    if stripped.getLast? ≠ some ';' then none
    else
      (declNameFromStatement stripped.dropLast).map fun parsed =>
        { name := parsed.name, typeText := parsed.typeText, index, lineNo
          kind := if "_pad".toList.isPrefixOf parsed.name ∨ "pad".toList.isPrefixOf parsed.name
            then .pad else .var
          size := parsed.size, raw := stripped, scopeDepth := localScopeDepth }

/-- The loop over the lines of the stripped body. -/
def localsFrom : List Text → Nat → Nat → Nat → List SourceLocal
  | [], _, _, _ => []
  | line :: lines, lineNo, index, scopeDepth =>
    if strip line = [] then localsFrom lines (lineNo + 1) index scopeDepth
    else
      match lineLocal line index lineNo scopeDepth with
      | some l =>
        l :: localsFrom lines (lineNo + 1) (index + 1) (updateScopeDepth scopeDepth (strip line))
      | none => localsFrom lines (lineNo + 1) index (updateScopeDepth scopeDepth (strip line))

def parseSourceLocalsFromBody (body : Text) (start : Nat) : List SourceLocal :=
  localsFrom (splitlines (stripCComments id body)) start 0 0

def parseSourceLocals (text : Text) (func : String) : List SourceLocal :=
  match extractSourceFunction text func with
  | none => []
  | some (body, start) => parseSourceLocalsFromBody body start

/-! ## Statements -/

structure SourceDecl where
  name : Text
  typeText : Text
  lineNo : Nat
  raw : Text
  deriving DecidableEq, Repr

/-- A declaration with the statement it was found in and the index at which this starts. -/
structure FoundDecl where
  first : Nat
  stmt : Text
  decl : SourceDecl
  deriving DecidableEq, Repr

structure DeclScan where
  found : List FoundDecl
  stmt : Text
  first : Nat
  stmtLine : Option Nat
  braceDepth : Nat
  inString : Option Char
  escaped : Bool

/-- A statement is complete. -/
def DeclScan.flush (st : DeclScan) (stmtLine : Nat) : DeclScan :=
  let flat := [' '].intercalate (words st.stmt)
  { st with
    found :=
      match declNameFromStatement flat.dropLast with
      | some parsed =>
        st.found ++ [⟨st.first, st.stmt, ⟨parsed.name, parsed.typeText, stmtLine, flat⟩⟩]
      | none => st.found
    stmt := []
    stmtLine := none }

/-- A statement starts with its first character that is no white space. -/
def DeclScan.take (body : Text) (start : Nat) (st : DeclScan) (c : Char) (idx : Nat) : DeclScan :=
  match st.stmtLine with
  | some _ => { st with stmt := st.stmt ++ [c] }
  | none =>
    if isSpace c then st
    else
      { st with
        stmt := st.stmt ++ [c], first := idx, stmtLine := some (start + newlines (body.take idx)) }

def DeclScan.step (body : Text) (start : Nat) (st : DeclScan) (c : Char) (idx : Nat) : DeclScan :=
  let st := st.take body start c idx
  match st.inString with
  | some quote =>
    if st.escaped then { st with escaped := false }
    else if c = '\\' then { st with escaped := true }
    else if c = quote then { st with inString := none }
    else st
  | none =>
    if c = '"' ∨ c = '\'' then { st with inString := some c }
    else if c = '{' then { st with braceDepth := st.braceDepth + 1 }
    else if c = '}' then { st with braceDepth := st.braceDepth - 1 }
    else
      match st.stmtLine with
      | some stmtLine => if c = ';' ∧ st.braceDepth = 0 then st.flush stmtLine else st
      | none => st

def foundDecls (body : Text) (start : Nat) : List FoundDecl :=
  (body.zipIdx.foldl (fun (st : DeclScan) x => st.step body start x.1 x.2)
    ⟨[], [], 0, none, 0, none, false⟩).found

def foundIn (text : Text) (func : String) : List FoundDecl :=
  match extractSourceFunction text func with
  | none => []
  | some (body, start) => foundDecls (stripCComments id body) start

def sourceDeclStatements (text : Text) (func : String) : List SourceDecl :=
  (foundIn text func).map (·.decl)

/-! ## Where a declaration begins -/

/-- What has been read of a body: where the present statement began, its text so far, how deep it
is in parentheses and initializers, the statements that go on behind the open braces, and whether
the line is a directive or still blank. -/
structure Front where
  start : Option Nat
  text : Text
  nest : Nat
  outer : List (Option Nat × Text)
  directive : Bool
  blankLine : Bool

def Front.char (f : Front) (c : Char) (place : Nat) : Front :=
  { f with start := f.start.or (some place), text := f.text ++ [c], blankLine := false }

def Front.blank (f : Front) : Front := { f with text := f.text ++ [' '] }

/-- A new statement comes. -/
def Front.cut (f : Front) : Front := { f with start := none, text := [], blankLine := false }

/-- The braces are those of the members of a structure, a union or an enumeration. -/
def opensMembers (t : Text) : Bool :=
  (rstrip t).getLast? ≠ some ')' &&
    (words t).any fun w => ["struct", "union", "enum"].any fun keyword => keyword.toList = w

def isLabel (t : Text) : Bool :=
  match words t with
  | [] => false
  | [name] => name.all Regex.wordChar
  | first :: _ => first = "case".toList

/-- A statement ends with a semicolon or a label, and where a block opens or closes. Members are
declarations of their own; behind them the statement around them goes on. -/
def Front.code (f : Front) (c : Char) (place : Nat) : Front :=
  if c = '(' ∨ c = '[' then { f.char c place with nest := f.nest + 1 }
  else if c = ')' ∨ c = ']' then { f.char c place with nest := f.nest - 1 }
  else if c = '{' then
    if 0 < f.nest ∨ (rstrip f.text).getLast? = some '=' then { f.char c place with nest := f.nest + 1 }
    else if opensMembers f.text then { f.cut with outer := (f.start, f.text) :: f.outer }
    else { f.cut with outer := (none, []) :: f.outer }
  else if c = '}' then
    if 0 < f.nest then { f.char c place with nest := f.nest - 1 }
    else
      match f.outer with
      | (start, text) :: outer => { f.cut with start, text, outer }
      | [] => f.cut
  else if f.nest = 0 ∧ (c = ';' ∨ c = ':' ∧ isLabel f.text) then f.cut
  else f.char c place

/-- Comments are white space. A directive goes to the end of its line and is no part of a
statement. -/
def Front.step (f : Front) (c : Char) (kind : CText.Kind) (place : Nat) : Front :=
  match kind with
  | .splice => f
  | .comment => f.blank
  | .literal => if f.directive then f else f.char '"' place
  | .code =>
    if c = '\n' then { f.blank with directive := false, blankLine := true }
    else if f.directive then f
    else if isSpace c then f.blank
    else if c = '#' ∧ f.blankLine then { f with directive := true }
    else f.code c place

/-! ## Places in the file -/

section
variable (text : Text) (brace stop : Nat)

/-- The body without comments. -/
def strippedBody : Text := stripCComments id (bodyOf text brace stop)

/-- Its characters with their places in the file. -/
def keptChars : List (Char × Nat) := stripCComments Prod.fst ((bodyOf text brace stop).zipIdx (brace + 1))

def fileLine (place : Nat) : Nat := newlines (text.take place) + 1

/-- The characters of the body, what they are in C, and their places in the file. -/
def marked : List ((Char × CText.Kind) × Nat) :=
  ((bodyOf text brace stop).zip (CText.kinds (bodyOf text brace stop))).zipIdx (brace + 1)

/-- The body is read up to a place and with it. -/
def frontAt (place : Nat) : Front :=
  ((marked text brace stop).take (place - brace)).foldl (fun f x => f.step x.1.1 x.1.2 x.2)
    ⟨none, [], 0, [], false, true⟩

/-- The place is not in a comment, a literal or a directive. -/
def isCode (place : Nat) : Bool :=
  ((marked text brace stop)[place - (brace + 1)]?.any fun x => x.1.2 = .code) &&
    !(frontAt text brace stop place).directive

/-- Where the statement begins that has a name at the place. -/
def beginning (place : Nat) : Option Nat :=
  if isCode text brace stop place then (frontAt text brace stop place).start else none

/-- The newlines before a character that have been stripped with comments. -/
def dropped (idx : Nat) : Nat :=
  match (keptChars text brace stop)[idx]? with
  | some (_, place) =>
    newlines ((bodyOf text brace stop).take (place - (brace + 1))) -
      newlines ((strippedBody text brace stop).take idx)
  | none => 0

end

theorem newlines_append (a b : Text) : newlines (a ++ b) = newlines a + newlines b :=
  List.count_append

section
variable {text : Text} {brace stop : Nat}

theorem keptChars_map : (keptChars text brace stop).map Prod.fst = strippedBody text brace stop := by
  rw [keptChars, strip_map, List.zipIdx_map_fst, strippedBody]

/-- What is kept before a character stands before it in the body. -/
theorem kept_before {idx place : Nat} {c : Char}
    (h : (keptChars text brace stop)[idx]? = some (c, place)) :
    brace + 1 ≤ place ∧ place - (brace + 1) < (bodyOf text brace stop).length ∧
      ((strippedBody text brace stop).take idx).Sublist
        ((bodyOf text brace stop).take (place - (brace + 1))) := by
  have hsub : (keptChars text brace stop).Sublist ((bodyOf text brace stop).zipIdx (brace + 1)) :=
    strip_sublist Prod.fst _
  obtain ⟨hidx, hget⟩ := List.getElem?_eq_some_iff.1 h
  have hsplit : keptChars text brace stop =
      (keptChars text brace stop).take idx ++ (c, place) :: (keptChars text brace stop).drop (idx + 1) := by
    rw [← hget, List.getElem_cons_drop, List.take_append_drop]
  rw [hsplit, List.append_sublist_iff] at hsub
  obtain ⟨front, back, hplaces, hfront, hback⟩ := hsub
  have hmem : (c, place) ∈ back := hback.subset List.mem_cons_self
  obtain ⟨i, hi, hi'⟩ := List.getElem_of_mem hmem
  have hat : ((bodyOf text brace stop).zipIdx (brace + 1))[front.length + i]? = some (c, place) := by
    rw [hplaces, List.getElem?_append_right (by omega), Nat.add_sub_cancel_left,
      List.getElem?_eq_getElem hi, hi']
  rw [List.getElem?_zipIdx, Option.map_eq_some_iff] at hat
  obtain ⟨c', hc', heq⟩ := hat
  obtain ⟨rfl, hplace⟩ := Prod.mk.inj heq
  have hlt := (List.getElem?_eq_some_iff.1 hc').1
  refine ⟨by omega, by omega, ?_⟩
  have hchars : front.map Prod.fst = (bodyOf text brace stop).take front.length := by
    have := congrArg (fun l => (l.map Prod.fst).take front.length) hplaces
    simpa using this.symm
  rw [← keptChars_map, ← List.map_take]
  refine (hfront.map Prod.fst).trans ?_
  rw [hchars]
  exact List.take_sublist_take_left (by omega)

/-- A function whose opening brace is where it was found. -/
structure Bounds (text : Text) (brace stop : Nat) : Prop where
  opening : text[brace]? = some '{'
  stop_le : stop ≤ text.length

theorem fileLine_place (h : Bounds text brace stop) {place : Nat} (hplace : brace + 1 ≤ place)
    (hbody : place - (brace + 1) < (bodyOf text brace stop).length) :
    fileLine text place = startLine text brace +
      newlines ((bodyOf text brace stop).take (place - (brace + 1))) := by
  have hstop := h.stop_le
  simp only [bodyOf, List.length_drop, List.length_take] at hbody
  have htake : text.take place = text.take (brace + 1) ++
      (bodyOf text brace stop).take (place - (brace + 1)) := by
    rw [bodyOf, List.take_drop, List.take_take]
    conv_lhs => rw [← List.take_append_drop (brace + 1) (text.take place)]
    rw [List.take_take]
    congr 2
    · omega
    · congr 1
      omega
  have hopen : newlines (text.take (brace + 1)) = newlines (text.take brace) := by
    rw [List.take_add_one, h.opening, newlines_append]
    simp [newlines]
  rw [fileLine, htake, newlines_append, hopen, startLine]
  omega

/-- The line of a character is counted from the start of the function, with the newlines that
have been dropped. -/
theorem fileLine_kept (h : Bounds text brace stop) {idx place : Nat} {c : Char}
    (hget : (keptChars text brace stop)[idx]? = some (c, place)) :
    fileLine text place = startLine text brace + newlines ((strippedBody text brace stop).take idx) +
      dropped text brace stop idx := by
  obtain ⟨hplace, hbody, hsub⟩ := kept_before hget
  have hle : newlines ((strippedBody text brace stop).take idx) ≤
      newlines ((bodyOf text brace stop).take (place - (brace + 1))) := hsub.count_le _
  have hline := fileLine_place h hplace hbody
  simp only [dropped, hget]
  omega

end

/-! ## Lines of the stripped body -/

/-- The lines of a text without carriage returns, with the places where they start. -/
def linesAt : Nat → Text → List (Nat × Text)
  | _, [] => []
  | i, c :: rest =>
    if isLineBoundary c then (i, []) :: linesAt (i + 1) rest
    else
      match linesAt (i + 1) rest with
      | [] => [(i, [c])]
      | (_, line) :: lines => (i, c :: line) :: lines

theorem linesAt_map {t : Text} (h : '\r' ∉ t) (i : Nat) :
    (linesAt i t).map Prod.snd = splitlines t := by
  induction t generalizing i with
  | nil => simp [linesAt, splitlines]
  | cons c rest ih =>
    have hrest := ih (fun hmem => h (List.mem_cons_of_mem c hmem)) (i + 1)
    have hc : c ≠ '\r' := by
      rintro rfl
      exact h List.mem_cons_self
    rw [linesAt]
    split_ifs with hb
    · rw [splitlines_boundary hb (by simp [hc]), List.map_cons, hrest]
    · rw [splitlines_ordinary (by simpa using hb), ← hrest]
      split
      · rename_i hnil
        simp [hnil, extendFirst]
      · rename_i hcons
        simp [hcons, extendFirst]

/-- Line separators. -/
def separators (t : Text) : Nat := t.countP isLineBoundary

/-- Line separators that are no newlines. -/
def otherSeparators (t : Text) : Nat := t.countP fun c => isLineBoundary c && c ≠ '\n'

theorem separators_eq (t : Text) : separators t = newlines t + otherSeparators t := by
  induction t with
  | nil => rfl
  | cons c t ih =>
    simp only [separators, newlines, otherSeparators, List.countP_cons, List.count_cons] at ih ⊢
    rw [ih]
    by_cases hc : c = '\n'
    · subst hc
      simp [isLineBoundary, lineBoundaries]
      omega
    · simp [hc]
      omega

structure LineAt (t : Text) (j o : Nat) (line : Text) : Prop where
  text : line <+: t.drop o
  within : o + line.length ≤ t.length
  unbroken : Unbroken line
  before : separators (t.take o) = j

theorem linesAt_first {t : Text} {i o : Nat} {line : Text}
    (h : (linesAt i t)[0]? = some (o, line)) : o = i := by
  cases t with
  | nil => simp [linesAt] at h
  | cons c rest =>
    rw [linesAt] at h
    split_ifs at h
    · exact (Prod.mk.inj (Option.some.inj h)).1.symm
    · split at h <;> exact (Prod.mk.inj (Option.some.inj h)).1.symm

theorem LineAt.cons {t : Text} {j k : Nat} {line : Text} (h : LineAt t j k line) (c : Char) :
    LineAt (c :: t) (if isLineBoundary c then j + 1 else j) (k + 1) line := by
  refine ⟨by simpa using h.text, ?_, h.unbroken, ?_⟩
  · have := h.within
    rw [List.length_cons]
    omega
  · have := h.before
    rw [List.take_succ_cons]
    simp only [separators, List.countP_cons] at this ⊢
    split_ifs <;> omega

theorem linesAt_spec {t : Text} {i j o : Nat} {line : Text}
    (h : (linesAt i t)[j]? = some (o, line)) : i ≤ o ∧ LineAt t j (o - i) line := by
  induction t generalizing i j o line with
  | nil => simp [linesAt] at h
  | cons c rest ih =>
    -- a line of the rest is a line of the whole
    have hlater {j : Nat} {o : Nat} {line : Text} (hrest : (linesAt (i + 1) rest)[j]? = some (o, line)) :
        i ≤ o ∧ LineAt (c :: rest) (if isLineBoundary c then j + 1 else j) (o - i) line := by
      obtain ⟨hle, hline⟩ := ih hrest
      refine ⟨by omega, ?_⟩
      have hk : o - i = o - (i + 1) + 1 := by omega
      rw [hk]
      exact hline.cons c
    rw [linesAt] at h
    split_ifs at h with hb
    · cases j with
      | zero =>
        simp only [List.getElem?_cons_zero, Option.some.injEq, Prod.mk.injEq] at h
        obtain ⟨rfl, rfl⟩ := h
        exact ⟨le_rfl, by simp, by simp, by simp [Unbroken], by simp [separators]⟩
      | succ j =>
        rw [List.getElem?_cons_succ] at h
        simpa [hb] using hlater h
    · split at h
      · cases j with
        | zero =>
          simp only [List.getElem?_cons_zero, Option.some.injEq, Prod.mk.injEq] at h
          obtain ⟨rfl, rfl⟩ := h
          refine ⟨le_rfl, by simp, by simp, ?_, by simp [separators]⟩
          simpa [Unbroken] using hb
        | succ j => simp at h
      · rename_i o' line' lines hlines
        cases j with
        | zero =>
          simp only [List.getElem?_cons_zero, Option.some.injEq, Prod.mk.injEq] at h
          obtain ⟨rfl, rfl⟩ := h
          have hhead : (linesAt (i + 1) rest)[0]? = some (o', line') := by simp [hlines]
          obtain rfl := linesAt_first hhead
          obtain ⟨-, htext, hwithin, hunbroken, -⟩ := ih hhead
          refine ⟨le_rfl, ?_, ?_, ?_, by simp [separators]⟩
          · simpa using htext
          · simp at hwithin ⊢
            omega
          · intro d hd
            rcases List.mem_cons.1 hd with rfl | hd
            · simpa using hb
            · exact hunbroken d hd
        | succ j =>
          have hrest : (linesAt (i + 1) rest)[j + 1]? = some (o, line) := by simpa [hlines] using h
          simpa [hb] using hlater hrest

/-! ## Locals -/

/-- Each local comes from a line. -/
theorem mem_localsFrom {lines : List Text} {lineNo index scopeDepth : Nat} {l : SourceLocal}
    (h : l ∈ localsFrom lines lineNo index scopeDepth) :
    ∃ j line index' scopeDepth', lines[j]? = some line ∧
      lineLocal line index' (lineNo + j) scopeDepth' = some l := by
  induction lines generalizing lineNo index scopeDepth with
  | nil => simp [localsFrom] at h
  | cons line lines ih =>
    have hlater {index scopeDepth : Nat} (hmem : l ∈ localsFrom lines (lineNo + 1) index scopeDepth) :
        ∃ j line' index' scopeDepth', (line :: lines)[j]? = some line' ∧
          lineLocal line' index' (lineNo + j) scopeDepth' = some l := by
      obtain ⟨j, line', index', scopeDepth', hline, hlocal⟩ := ih hmem
      refine ⟨j + 1, line', index', scopeDepth', hline, ?_⟩
      rw [← hlocal]
      congr 1
      omega
    rw [localsFrom] at h
    split_ifs at h with hblank
    · exact hlater h
    · split at h
      · rename_i found hfound
        rcases List.mem_cons.1 h with rfl | h
        · exact ⟨0, line, index, scopeDepth, rfl, hfound⟩
        · exact hlater h
      · exact hlater h

theorem padMatch_range {t : Text} {span : Nat × Nat} (h : padMatch t = some span) :
    span.1 < t.length := by
  obtain ⟨-, hlt, hle⟩ := (Regex.finditer_spaced padStackRe t).2 span (List.mem_of_head? h)
  omega

theorem lineLocal_lineNo {line : Text} {index lineNo scopeDepth : Nat} {l : SourceLocal}
    (h : lineLocal line index lineNo scopeDepth = some l) : l.lineNo = lineNo := by
  dsimp only [lineLocal] at h
  split at h
  · obtain rfl := Option.some.inj h
    rfl
  · split_ifs at h
    obtain ⟨parsed, -, rfl⟩ := Option.map_eq_some_iff.1 h
    rfl

/-- The index of character `n` that is no white space. -/
def solidPlace : Nat → Text → Nat
  | _, [] => 0
  | n, c :: rest =>
    if isSpace c then solidPlace n rest + 1
    else
      match n with
      | 0 => 0
      | n + 1 => solidPlace n rest + 1

/-- How many characters but white space a statement has before the name that is taken for the
declared one. -/
def solidBeforeName (stmt : Text) : Nat :=
  match searchName [] (strip (stmt.takeWhile (· ≠ '='))) with
  | some (before, _) => solid before
  | none => 0

/-- Where the name of a declaration stands on its line: a macro at its start. -/
def nameInLine (line : Text) : Nat :=
  match padMatch (strip line) with
  | some span => line.length - (lstrip line).length + span.1
  | none => solidPlace (solidBeforeName (strip line).dropLast) line

theorem solidPlace_le (n : Nat) (t : Text) : solidPlace n t ≤ t.length := by
  fun_induction solidPlace n t <;> simp_all

theorem length_strip_le (t : Text) : (strip t).length ≤ (lstrip t).length := by
  obtain ⟨w, hw⟩ : rstrip t <+: t := List.rdropWhile_prefix isSpace t
  have hdrop : lstrip t = _ := (congrArg lstrip hw.symm).trans List.dropWhile_append
  rw [strip, lstrip, hdrop]
  split_ifs with hempty
  · simp [List.isEmpty_iff.1 hempty]
  · simp

theorem nameInLine_le (line : Text) : nameInLine line ≤ line.length := by
  have hlstrip : (lstrip line).length ≤ line.length := (List.dropWhile_suffix isSpace).length_le
  rw [nameInLine]
  split
  · rename_i span hpad
    have hspan := padMatch_range hpad
    have hstrip := length_strip_le line
    omega
  · exact solidPlace_le _ line

/-- No newline stands between the start of a line and a place on it. -/
theorem LineAt.newlines_eq {code line : Text} {j o b : Nat} (h : LineAt code j o line)
    (hb : b ≤ line.length) : newlines (code.take (o + b)) = newlines (code.take o) := by
  have hnone : newlines (line.take b) = 0 := by
    rw [newlines, List.count_eq_zero]
    intro hmem
    have := h.unbroken _ (List.mem_of_mem_take hmem)
    simp [isLineBoundary, lineBoundaries] at this
  have htake : (code.drop o).take b = line.take b := by
    rw [List.prefix_iff_eq_take.1 h.text, List.take_take, min_eq_left hb]
  rw [List.take_add, newlines_append, htake, hnone, Nat.add_zero]

/-! ## Statements of the stripped body -/

/-- What a scan has found in the first `n` characters. -/
structure Scanned (body : Text) (start n : Nat) (st : DeclScan) : Prop where
  found : ∀ f ∈ st.found, f.decl.lineNo = start + newlines (body.take f.first) ∧
    f.stmt ≠ [] ∧ f.stmt <+: body.drop f.first
  stmt : ∀ stmtLine, st.stmtLine = some stmtLine →
    stmtLine = start + newlines (body.take st.first) ∧ st.stmt ≠ [] ∧
      st.first + st.stmt.length = n ∧ st.stmt <+: body.drop st.first
  idle : st.stmtLine = none → st.stmt = []

theorem prefix_snoc {body stmt : Text} {first : Nat} {c : Char} (h : stmt <+: body.drop first)
    (hc : body[first + stmt.length]? = some c) : stmt ++ [c] <+: body.drop first := by
  obtain ⟨rest, hrest⟩ := h
  rw [← List.getElem?_drop, ← hrest, List.getElem?_append_right le_rfl, Nat.sub_self] at hc
  cases rest with
  | nil => simp at hc
  | cons d rest =>
    obtain rfl : d = c := by simpa using hc
    exact ⟨rest, by simpa using hrest⟩

theorem take_scanned {body : Text} {start n : Nat} {st : DeclScan} {c : Char}
    (h : Scanned body start n st) (hc : body[n]? = some c) :
    Scanned body start (n + 1) (st.take body start c n) := by
  cases hline : st.stmtLine with
  | some stmtLine =>
    obtain ⟨hstmtLine, hne, hlength, hstarts⟩ := h.stmt stmtLine hline
    simp only [DeclScan.take, hline]
    refine ⟨h.found, ?_, by simp⟩
    intro line hsame
    obtain rfl : stmtLine = line := Option.some.inj hsame
    refine ⟨hstmtLine, by simp, ?_, prefix_snoc hstarts (hlength ▸ hc)⟩
    simp only [List.length_append, List.length_singleton]
    omega
  | none =>
    have hidle := h.idle hline
    simp only [DeclScan.take, hline]
    split_ifs with hspace
    · exact ⟨h.found, by simp [hline], h.idle⟩
    · refine ⟨h.found, ?_, by simp⟩
      intro line hsame
      refine ⟨(Option.some.inj hsame).symm, by simp, by simp [hidle], ?_⟩
      simp only [hidle]
      exact prefix_snoc List.nil_prefix (by simpa using hc)

/-- The line and the text of a statement do not depend on the rest of the state. -/
theorem Scanned.of_eq {body : Text} {start n : Nat} {st st' : DeclScan}
    (h : Scanned body start n st) (hfound : st'.found = st.found) (hstmt : st'.stmt = st.stmt)
    (hfirst : st'.first = st.first) (hline : st'.stmtLine = st.stmtLine) :
    Scanned body start n st' := by
  refine ⟨hfound ▸ h.found, ?_, ?_⟩
  · rw [hline, hstmt, hfirst]
    exact h.stmt
  · rw [hline, hstmt]
    exact h.idle

theorem flush_scanned {body : Text} {start n stmtLine : Nat} {st : DeclScan}
    (h : Scanned body start n st) (hline : st.stmtLine = some stmtLine) :
    Scanned body start n (st.flush stmtLine) := by
  obtain ⟨hstmtLine, hne, -, hstarts⟩ := h.stmt stmtLine hline
  refine ⟨?_, by simp [DeclScan.flush], by simp [DeclScan.flush]⟩
  intro f hf
  simp only [DeclScan.flush] at hf
  split at hf
  · rcases List.mem_append.1 hf with hf | hf
    · exact h.found f hf
    · obtain rfl := List.mem_singleton.1 hf
      exact ⟨hstmtLine, hne, hstarts⟩
  · exact h.found f hf

theorem step_scanned {body : Text} {start n : Nat} {st : DeclScan} {c : Char}
    (h : Scanned body start n st) (hc : body[n]? = some c) :
    Scanned body start (n + 1) (st.step body start c n) := by
  have htake := take_scanned h hc
  dsimp only [DeclScan.step]
  generalize st.take body start c n = st at htake
  split
  · split_ifs <;> exact htake.of_eq rfl rfl rfl rfl
  · split_ifs
    · exact htake.of_eq rfl rfl rfl rfl
    · exact htake.of_eq rfl rfl rfl rfl
    · exact htake.of_eq rfl rfl rfl rfl
    · split
      · rename_i hline
        exact flush_scanned htake hline
      · exact htake
    · split <;> exact htake

/-- Each declaration is reported with the line on which its statement starts, as far as
newlines are left. -/
theorem mem_foundDecls {body : Text} {start : Nat} {f : FoundDecl} (h : f ∈ foundDecls body start) :
    f.decl.lineNo = start + newlines (body.take f.first) ∧ f.stmt ≠ [] ∧
      f.stmt <+: body.drop f.first := by
  have hrun : ∀ (rest seen : Text) (st : DeclScan), body = seen ++ rest →
      Scanned body start seen.length st →
      Scanned body start body.length
        ((rest.zipIdx seen.length).foldl (fun (st : DeclScan) x => st.step body start x.1 x.2) st) := by
    intro rest
    induction rest with
    | nil =>
      intro seen st hbody hst
      rw [List.append_nil] at hbody
      simpa [hbody] using hst
    | cons c rest ih =>
      intro seen st hbody hst
      have hc : body[seen.length]? = some c := by simp [hbody]
      have hnext := ih (seen ++ [c]) (st.step body start c seen.length) (by simp [hbody])
        (by simpa using step_scanned hst hc)
      simpa [List.zipIdx_cons] using hnext
  have hstart : Scanned body start 0 ⟨[], [], 0, none, 0, none, false⟩ := by
    refine ⟨by simp, by simp, fun _ => rfl⟩
  exact (hrun body [] _ rfl hstart).found f h

/-! ## The reported lines -/

section
variable (text : Text) (brace stop : Nat)

/-- Where the declaration begins that was found on a line with its name at the place. -/
def localStart (line : Text) (place : Nat) : Option Nat :=
  if (padMatch (strip line)).isSome then if isCode text brace stop place then some place else none
  else beginning text brace stop place

/-- A local is found on the line that starts at `o` in the stripped body, its name stands in the
file at `place`, and its declaration begins at `start`. -/
structure LocalAt (l : SourceLocal) (o : Nat) (line : Text) (place start : Nat) : Prop where
  found : (linesAt 0 (strippedBody text brace stop))[l.lineNo - startLine text brace]? = some (o, line)
  named : ∃ c, (keptChars text brace stop)[o + nameInLine line]? = some (c, place)
  begins : localStart text brace stop line place = some start

/-- A local is reported with the line on which its declaration begins. -/
def LocalReal (l : SourceLocal) : Prop :=
  ∃ o line place start, LocalAt text brace stop l o line place start ∧ l.lineNo = fileLine text start

/-- As many newlines are dropped before the name as there are lines that count too much before
it: separators that are no newlines, and newlines between the beginning and the name. -/
def LocalExact (l : SourceLocal) : Prop :=
  ∃ o line place start, LocalAt text brace stop l o line place start ∧
    otherSeparators ((strippedBody text brace stop).take o) + newlines (text.take place) =
      dropped text brace stop (o + nameInLine line) + newlines (text.take start)

/-- The statement of a declaration starts in the file at `first`, the name stands at `place`, and
the declaration begins at `start`. -/
structure DeclAt (f : FoundDecl) (first place start : Nat) : Prop where
  found : ∃ c, (keptChars text brace stop)[f.first]? = some (c, first)
  named : ∃ c, (keptChars text brace stop)[f.first +
    solidPlace (solidBeforeName f.decl.raw.dropLast) f.stmt]? = some (c, place)
  begins : beginning text brace stop place = some start

def DeclReal (f : FoundDecl) : Prop :=
  ∃ first place start, DeclAt text brace stop f first place start ∧ f.decl.lineNo = fileLine text start

/-- As many newlines are dropped before the statement as stand between the beginning of the
declaration and the start of the statement. -/
def DeclExact (f : FoundDecl) : Prop :=
  ∃ first place start, DeclAt text brace stop f first place start ∧
    newlines (text.take start) + dropped text brace stop f.first = newlines (text.take first)

end

section
variable {text : Text} {brace stop : Nat}

/-- Every local stands on a line of the stripped body, with as many separators before it as lines
are counted. -/
theorem exists_line_of_local (hreturn : '\r' ∉ strippedBody text brace stop) {l : SourceLocal}
    (hl : l ∈ parseSourceLocalsFromBody (bodyOf text brace stop) (startLine text brace)) :
    ∃ o line index scopeDepth, (linesAt 0 (strippedBody text brace stop))[l.lineNo - startLine text brace]? =
        some (o, line) ∧ lineLocal line index l.lineNo scopeDepth = some l ∧
      l.lineNo = startLine text brace + separators ((strippedBody text brace stop).take o) := by
  obtain ⟨j, line, index, scopeDepth, hline, hlocal⟩ := mem_localsFrom hl
  have hlineNo := lineLocal_lineNo hlocal
  have hj : l.lineNo - startLine text brace = j := by omega
  rw [← strippedBody, ← linesAt_map hreturn 0, List.getElem?_map, Option.map_eq_some_iff] at hline
  obtain ⟨⟨o, line⟩, hat, rfl⟩ := hline
  obtain ⟨-, hlineAt⟩ := linesAt_spec hat
  rw [Nat.sub_zero] at hlineAt
  rw [← hlineNo] at hlocal
  exact ⟨o, line, index, scopeDepth, hj ▸ hat, hlocal, by rw [hlineAt.before, hlineNo]⟩

theorem localReal_iff (h : Bounds text brace stop) (hreturn : '\r' ∉ strippedBody text brace stop)
    {l : SourceLocal}
    (hl : l ∈ parseSourceLocalsFromBody (bodyOf text brace stop) (startLine text brace)) :
    LocalReal text brace stop l ↔ LocalExact text brace stop l := by
  obtain ⟨o, line, -, -, hfound, -, hlineNo⟩ := exists_line_of_local hreturn hl
  obtain ⟨-, hlineAt⟩ := linesAt_spec hfound
  rw [Nat.sub_zero] at hlineAt
  rw [separators_eq] at hlineNo
  rw [LocalReal, LocalExact]
  apply exists₂_congr
  intro o' line'
  apply exists₂_congr
  intro place start
  apply and_congr_right
  intro hat
  obtain ⟨rfl, rfl⟩ := Prod.mk.inj (Option.some.inj (hfound.symm.trans hat.found))
  obtain ⟨c, hnamed⟩ := hat.named
  have hplace := fileLine_kept h hnamed
  rw [hlineAt.newlines_eq (nameInLine_le line)] at hplace
  simp only [fileLine] at hplace ⊢
  omega

theorem declReal_iff (h : Bounds text brace stop) {f : FoundDecl}
    (hf : f ∈ foundDecls (strippedBody text brace stop) (startLine text brace)) :
    DeclReal text brace stop f ↔ DeclExact text brace stop f := by
  have hlineNo := (mem_foundDecls hf).1
  rw [DeclReal, DeclExact]
  apply exists_congr
  intro first
  apply exists₂_congr
  intro place start
  apply and_congr_right
  intro hat
  obtain ⟨c, hfirst⟩ := hat.found
  have hplace := fileLine_kept h hfirst
  simp only [fileLine] at hplace ⊢
  omega

theorem sourceFunctionAt_bounds {func : String}
    (h : sourceFunctionAt text func = some (brace, stop)) : Bounds text brace stop := by
  obtain ⟨span, -, hspan⟩ := List.exists_of_findSome?_eq_some h
  split at hspan
  · cases hspan
  · rename_i found hfound
    split_ifs at hspan with hsemicolon
    obtain ⟨close, hclose, heq⟩ := Option.map_eq_some_iff.1 hspan
    obtain ⟨rfl, rfl⟩ := Prod.mk.inj heq
    obtain ⟨k, hk, rfl⟩ := Option.map_eq_some_iff.1 hfound
    obtain ⟨hlt, hopen, -⟩ := List.findIdx?_eq_some_iff_getElem.1 hk
    refine ⟨?_, ?_⟩
    · rw [List.getElem_drop, decide_eq_true_eq] at hopen
      rw [List.length_drop] at hlt
      rw [List.getElem?_eq_getElem (by omega), hopen]
    · rw [findMatchingBrace, scanMatching_eq] at hclose
      have := (Braces.scanFrom_range hclose).2
      rw [List.length_drop] at this hlt
      omega

theorem readText_return (raw : Text) : '\r' ∉ readText raw := by
  fun_induction readText raw with
  | case1 => simp
  | case2 rest ih => simpa using ih
  | case3 c rest hne ih =>
    simp only [List.mem_cons, not_or]
    refine ⟨?_, ih⟩
    split_ifs with hc
    · decide
    · exact fun h => hc h.symm

theorem strippedBody_return (h : '\r' ∉ text) : '\r' ∉ strippedBody text brace stop := by
  intro hmem
  have hbody := (strip_sublist id (bodyOf text brace stop)).subset hmem
  exact h (List.mem_of_mem_take (List.mem_of_mem_drop hbody))

end

/-- A string with a semicolon, a comment behind it, and a structure with a member. -/
def plainSource : Text :=
  ["int f()\n", "\x7b\n", "  char *s = \";\"; /* x */\n", "  struct \x7b\n", "    int a;\n", "  \x7d t;\n",
    "\x7d\n"].flatMap String.toList

/-- The declarations with the indices of their statements in the stripped body. -/
def plainFound : List FoundDecl :=
  [⟨3, "char *s = \";\";".toList, ⟨"s".toList, "char *".toList, 3, "char *s = \";\";".toList⟩⟩,
    ⟨21, "struct \x7b\n    int a;\n  \x7d t;".toList,
      ⟨"t".toList, "struct \x7b int a; \x7d".toList, 4, "struct \x7b int a; \x7d t;".toList⟩⟩]

/-- A comment over two lines stands before the declaration, which begins on line 3. -/
def commentedSource : Text := ["int f()\n", "\x7b/*\n", "*/int x;\n", "\x7d\n"].flatMap String.toList

end MeleeHarness.Diagnose
