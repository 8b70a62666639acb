import MeleeHarness.Lib.Text

/-!
# Comments, literals and include directives of C text

A text is read as C reads it: a newline behind a backslash counts for nothing, a comment is
white space, and what stands in quotes is a literal.

* `length_kinds`: every character has a kind;
* `length_includeLines`: every line is an include directive or none.
-/

namespace MeleeHarness.Lib.CText

inductive Kind where
  | code
  | literal
  | comment
  | splice
  deriving DecidableEq, Repr

/-- Where the next character stands. The star that opens a block comment does not close it. -/
inductive Mode where
  | code
  | line
  | opening
  | block
  | star
  | literal (quote : Char)
  | escaped (quote : Char)
  deriving DecidableEq, Repr

/-- What stands behind newlines that count for nothing. -/
def unspliced : Text → Text
  | '\\' :: '\n' :: rest => unspliced rest
  | t => t

/-- The mode behind a character, in front of `rest`. A literal ends with its line at the latest. -/
def Mode.next : Mode → Char → Text → Mode
  | .code, c, rest =>
    if c = '/' ∧ (unspliced rest).head? = some '/' then .line
    else if c = '/' ∧ (unspliced rest).head? = some '*' then .opening
    else if c = '"' ∨ c = '\'' then .literal c
    else .code
  | .line, c, _ => if c = '\n' then .code else .line
  | .opening, _, _ => .block
  | .block, c, _ => if c = '*' then .star else .block
  | .star, c, _ => if c = '/' then .code else if c = '*' then .star else .block
  | .literal q, c, _ => if c = '\\' then .escaped q else if c = q ∨ c = '\n' then .code else .literal q
  | .escaped q, _, _ => .literal q

def Mode.kind : Mode → Char → Text → Kind
  | .code, c, rest =>
    match Mode.code.next c rest with
    | .code => .code
    | .literal _ => .literal
    | _ => .comment
  | .line, c, _ => if c = '\n' then .code else .comment
  | .literal _, c, _ => if c = '\n' then .code else .literal
  | .escaped _, _, _ => .literal
  | _, _, _ => .comment

def kindsFrom : Mode → Text → List Kind
  | _, [] => []
  | mode, '\\' :: '\n' :: rest => .splice :: .splice :: kindsFrom mode rest
  | mode, c :: rest => mode.kind c rest :: kindsFrom (mode.next c rest) rest

def kinds (t : Text) : List Kind := kindsFrom .code t

theorem length_kindsFrom (mode : Mode) (t : Text) : (kindsFrom mode t).length = t.length := by
  fun_induction kindsFrom mode t <;> simp_all

theorem length_kinds (t : Text) : (kinds t).length = t.length := length_kindsFrom .code t

/-! ## Include directives -/

/-- What has been read of a line: white space, a hash, a part of the name of a directive, or more. -/
inductive Directive where
  | start
  | hash
  | name (read : Text)
  | included
  | other
  deriving DecidableEq, Repr

def isBlank (c : Char) : Bool := [' ', '\t', '\r', '\x0b', '\x0c'].contains c

def identChar (c : Char) : Bool := c.isAlphanum || c = '_' || 128 ≤ c.toNat

def includeName : Text := "include".toList

def Directive.char : Directive → Char → Directive
  | .start, c => if isBlank c then .start else if c = '#' then .hash else .other
  | .hash, c => if isBlank c then .hash else if identChar c then .name [c] else .other
  | .name read, c =>
    if identChar c then .name (read ++ [c]) else if read = includeName then .included else .other
  | .included, _ => .included
  | .other, _ => .other

/-- A newline in a comment, or behind a backslash, does not end the directive. -/
def Directive.step (d : Directive) (c : Char) : Kind → Directive
  | .code => if c = '\n' then .start else d.char c
  | .literal => d.char '"'
  | .comment => d.char ' '
  | .splice => d

/-- The directive is known to be an include where the line ends. -/
def Directive.isInclude (d : Directive) (last : Bool) : Bool :=
  d = .included || (last && d = .name includeName)

/-- For each line whether it is an include directive, or the end of one. Behind the last newline
there is a line only if it has a character. -/
def includeLinesFrom : Directive → Bool → List (Char × Kind) → List Bool
  | d, filled, [] => if filled then [d.isInclude true] else []
  | d, _, (c, kind) :: rest =>
    if c = '\n' then d.isInclude (kind = .code) :: includeLinesFrom (d.step c kind) false rest
    else includeLinesFrom (d.step c kind) true rest

def includeLines (t : Text) : List Bool := includeLinesFrom .start false (t.zip (kinds t))

theorem length_includeLinesFrom (d : Directive) (filled : Bool) (marked : List (Char × Kind)) :
    (includeLinesFrom d filled marked).length = (marked.map Prod.fst).count '\n' +
      if (marked.getLast?.map fun x => decide (x.1 ≠ '\n')).getD filled then 1 else 0 := by
  induction marked generalizing d filled with
  | nil => cases filled <;> rfl
  | cons x marked ih =>
    obtain ⟨c, kind⟩ := x
    have hlast (b : Bool) : (((c, kind) :: marked).getLast?.map fun x => decide (x.1 ≠ '\n')).getD filled =
        (marked.getLast?.map fun x => decide (x.1 ≠ '\n')).getD (decide (c ≠ '\n')) := by
      rw [List.getLast?_cons]
      cases marked.getLast? <;> rfl
    rw [hlast filled, includeLinesFrom]
    by_cases hc : c = '\n'
    · rw [if_pos hc, List.length_cons, ih]
      simp [hc]
      omega
    · rw [if_neg hc, ih]
      simp [hc]

/-- The lines of a text, with one behind the last newline if there is any text. -/
theorem length_includeLines (t : Text) :
    (includeLines t).length = t.count '\n' + if t.getLast?.any (· ≠ '\n') then 1 else 0 := by
  have hfst : (t.zip (kinds t)).map Prod.fst = t := by
    rw [List.map_fst_zip]
    exact (length_kinds t).ge
  have hlast : ((t.zip (kinds t)).getLast?.map fun x => decide (x.1 ≠ '\n')).getD false =
      t.getLast?.any (· ≠ '\n') := by
    conv_rhs => rw [← hfst, List.getLast?_map]
    cases (t.zip (kinds t)).getLast? <;> rfl
  rw [includeLines, length_includeLinesFrom, hfst, hlast]

/-- Empty lines are no directives. -/
theorem includeLines_newlines {t : Text} (h : ∀ c ∈ t, c = '\n') : ∀ flag ∈ includeLines t, flag = false := by
  rw [includeLines, kinds]
  induction t with
  | nil => simp [includeLinesFrom]
  | cons c t ih =>
    obtain ⟨rfl, ht⟩ := List.forall_mem_cons.mp h
    have hkinds : kindsFrom .code ('\n' :: t) = .code :: kindsFrom .code t := rfl
    rw [hkinds, List.zip_cons_cons, includeLinesFrom, if_pos rfl]
    exact List.forall_mem_cons.mpr ⟨rfl, ih ht⟩

end MeleeHarness.Lib.CText
