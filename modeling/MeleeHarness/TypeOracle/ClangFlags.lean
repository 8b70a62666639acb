import MeleeHarness.Lib.Shlex

/-!
# The flags of a file

`clang_flags_for` looks a file up in `compile_commands.json` and keeps those of its
arguments that clang needs.

* `filterArgs_eq_iff`: when the arguments are filtered as clang reads them;
* `clangFlagsFor_own_iff`: when the flags are the file's own.
-/

namespace MeleeHarness.TypeOracle

open Lib

/-- An entry; what is missing in it is empty. -/
structure Entry where
  file : Text
  arguments : List Text
  command : Text
  directory : Text
  deriving DecidableEq, Repr

/-- `Path(t).name`: the last part. -/
def pathName (t : Text) : Text :=
  (((t.splitOn '/').filter fun part => part ≠ [] ∧ part ≠ ['.']).getLast?).getD []

def endsLikeFile (a : Text) : Bool := ['.', 'c'].isSuffixOf a || ['.', 'o'].isSuffixOf a

def isText (s : String) (a : Text) : Bool := a = s.toList

/-- An option whose value is the next argument. -/
def takesValue (a : Text) : Bool := isText "-o" a || isText "-MF" a || isText "-MT" a

/-- The loop over the arguments; `skip` is set for the value of an option. -/
def filterArgs : Bool → List Text → List Text
  | _, [] => []
  | true, _ :: rest => filterArgs false rest
  | false, a :: rest =>
    if isText "-c" a then filterArgs false rest
    else if takesValue a then filterArgs true rest
    else if endsLikeFile a then filterArgs false rest
    else a :: filterArgs false rest

/-- `none` where `shlex.split` raises. -/
def Entry.raw (e : Entry) : Option (List Text) :=
  if e.arguments ≠ [] then some e.arguments else Shlex.split e.command

def Entry.workingDirectory (e : Entry) : List Text :=
  if e.directory ≠ [] then ["-working-directory=".toList ++ e.directory] else []

/-- What is made of the arguments of an entry; `.ok none` is no answer. -/
def Entry.flags (e : Entry) : Except Unit (Option (List Text)) :=
  match e.raw with
  | none => .error ()
  | some [] => .ok none
  | some (_ :: args) => .ok (some (filterArgs false args ++ e.workingDirectory))

section
variable (resolve : Text → Text) (cFile : Text)

def Entry.isFor (e : Entry) : Bool := resolve e.file = resolve cFile

def Entry.matches (e : Entry) : Bool := e.isFor resolve cFile || pathName e.file = pathName cFile

/-- `resolve` is the path that a file name stands for. -/
def clangFlagsFor (entries : List Entry) : Except Unit (Option (List Text)) :=
  match entries.find? (·.matches resolve cFile) with
  | some e => e.flags
  | none => .ok none

end

/-! ## The file's own flags -/

def isOption (a : Text) : Bool := a.head? = some '-' && a ≠ ['-']

/-- What clang says of its options: how many of the arguments behind one are its values, and
which arguments are `-o`, `-MF` or `-MT` with the value joined to it. -/
structure OptionTable where
  values : Text → Nat
  joined : Text → Bool
  values_output : ∀ a, takesValue a = true → values a = 1
  option_joined : ∀ a, joined a = true → isOption a = true ∧ isText "-c" a = false ∧ takesValue a = false

/-- What an argument is for. -/
inductive Role where
  | flag
  | file
  | build
  deriving DecidableEq, Repr

section
variable (table : OptionTable)

/-- Each argument with its role. An option has `values` more arguments to come, which have the
role of the option. An argument that is no option is an input file. -/
def rolesFrom : Nat → Role → List Text → List (Text × Role)
  | _, _, [] => []
  | n + 1, role, a :: rest => (a, role) :: rolesFrom n role rest
  | 0, _, a :: rest =>
    if isOption a = false ∨ table.joined a then (a, .file) :: rolesFrom 0 .file rest
    else if isText "-c" a then (a, .build) :: rolesFrom 0 .build rest
    else if takesValue a then (a, .build) :: rolesFrom (table.values a) .build rest
    else (a, .flag) :: rolesFrom (table.values a) .flag rest

def roles (args : List Text) : List (Text × Role) := rolesFrom table 0 .flag args

/-- The arguments without `-c`, the output options and the files. -/
def ownArgs (args : List Text) : List Text := ((roles table args).filter (·.2 = .flag)).map Prod.fst

/-- The input files, and the output files that are joined to their option. -/
def files (args : List Text) : List Text := ((roles table args).filter (·.2 = .file)).map Prod.fst

end

/-- The tool never keeps such an argument. -/
def isDropped (a : Text) : Bool := isText "-c" a || takesValue a || endsLikeFile a

theorem not_dropped_of_mem {skip : Bool} {args : List Text} {a : Text} (h : a ∈ filterArgs skip args) :
    isDropped a = false := by
  induction args generalizing skip with
  | nil => cases skip <;> cases h
  | cons b args ih =>
    cases skip with
    | true => exact ih h
    | false =>
      rw [filterArgs] at h
      split_ifs at h with hc hvalue hfile
      · exact ih h
      · exact ih h
      · exact ih h
      · rcases List.mem_cons.mp h with rfl | h
        · simp [isDropped, hc, hvalue, hfile]
        · exact ih h

/-- A file that the tool does not know as one is kept. -/
def isShown (x : Text × Role) : Bool := x.2 = .flag || (x.2 = .file && !endsLikeFile x.1)

theorem not_isOption {a : Text} (h : isOption a = false) : isText "-c" a = false ∧ takesValue a = false := by
  have hne (s : String) (hs : isOption s.toList = true) : isText s a = false := by
    apply decide_eq_false
    rintro rfl
    rw [hs] at h
    cases h
  exact ⟨hne "-c" (by decide), by simp [takesValue, hne "-o" (by decide), hne "-MF" (by decide),
    hne "-MT" (by decide)]⟩

/-- Where no argument that is to be kept looks like one to drop, the tool skips what is a value
of an output option, and nothing else. The skip flag is set in front of such a value only. -/
theorem filterArgs_from (table : OptionTable) {args : List Text} {n : Nat} {role : Role} {skip : Bool}
    (hstate : (skip = true ∧ n = 1 ∧ role = .build) ∨ (skip = false ∧ (n = 0 ∨ role = .flag)))
    (h : ∀ x ∈ rolesFrom table n role args, x.2 = .flag → isDropped x.1 = false) :
    filterArgs skip args = ((rolesFrom table n role args).filter isShown).map Prod.fst := by
  induction args generalizing n role skip with
  | nil =>
    cases skip <;> cases n <;> rfl
  | cons a args ih =>
    obtain ⟨rfl, rfl, rfl⟩ | ⟨rfl, hrole⟩ := hstate
    · rw [rolesFrom] at h ⊢
      rw [List.filter_cons_of_neg (by simp [isShown])]
      apply ih (.inr ⟨rfl, .inl rfl⟩)
      exact fun x hx => h x (List.mem_cons_of_mem _ hx)
    · cases n with
      | succ n =>
        obtain rfl : role = .flag := hrole.resolve_left (Nat.succ_ne_zero n)
        rw [rolesFrom] at h ⊢
        obtain ⟨ha, hrest⟩ := List.forall_mem_cons.mp h
        have hkept := ha rfl
        simp only [isDropped, Bool.or_eq_false_iff] at hkept
        rw [filterArgs, hkept.1.1, hkept.1.2, hkept.2, List.filter_cons_of_pos (by simp [isShown])]
        simp only [Bool.false_eq_true, if_false, List.map_cons]
        rw [ih (.inr ⟨rfl, .inr rfl⟩) hrest]
      | zero =>
        rw [rolesFrom] at h ⊢
        split_ifs at h ⊢ with hfile hc hvalue
        all_goals
          obtain ⟨ha, hrest⟩ := List.forall_mem_cons.mp h
        · have hplain : isText "-c" a = false ∧ takesValue a = false := by
            rcases hfile with hfile | hfile
            · exact not_isOption hfile
            · exact (table.option_joined a hfile).2
          have htail := ih (.inr ⟨rfl, .inl rfl⟩) hrest
          rw [filterArgs, hplain.1, hplain.2]
          cases hends : endsLikeFile a with
          | true => simpa [isShown, hends] using htail
          | false => simpa [isShown, hends] using htail
        · rw [filterArgs, if_pos hc, List.filter_cons_of_neg (by simp [isShown])]
          exact ih (.inr ⟨rfl, .inl rfl⟩) hrest
        · rw [table.values_output a hvalue] at hrest ⊢
          rw [filterArgs, if_neg hc, if_pos hvalue, List.filter_cons_of_neg (by simp [isShown])]
          exact ih (.inl ⟨rfl, rfl, rfl⟩) hrest
        · have hkept := ha rfl
          simp only [isDropped, Bool.or_eq_false_iff] at hkept
          rw [filterArgs, if_neg hc, if_neg hvalue, hkept.2, List.filter_cons_of_pos (by simp [isShown])]
          simp only [Bool.false_eq_true, if_false, List.map_cons]
          rw [ih (.inr ⟨rfl, .inr rfl⟩) hrest]

theorem map_filter_eq_iff {α β : Type} {f : α → β} {p q : α → Bool} {l : List α} (hpq : ∀ x, p x = true → q x = true) :
    (l.filter q).map f = (l.filter p).map f ↔ ∀ x ∈ l, q x = true → p x = true := by
  constructor
  · intro h x hx hq
    have hlength : (l.filter q).length ≤ (l.filter p).length := by
      rw [← List.length_map f, h, List.length_map]
    have hsame : l.filter p = l.filter q := (List.monotone_filter_right l hpq).eq_of_length_le hlength
    have hmem : x ∈ l.filter p := hsame ▸ List.mem_filter.mpr ⟨hx, hq⟩
    exact (List.mem_filter.mp hmem).2
  · intro h
    congr 1
    apply List.filter_congr
    intro x hx
    rw [Bool.eq_iff_iff]
    exact ⟨h x hx, hpq x⟩

/-- The arguments that should be kept are kept exactly if none of them looks like one to drop
and every file looks like one. -/
theorem filterArgs_eq_iff (table : OptionTable) (args : List Text) :
    filterArgs false args = ownArgs table args ↔
      (∀ a ∈ ownArgs table args, isDropped a = false) ∧ ∀ a ∈ files table args, endsLikeFile a = true := by
  by_cases hkept : ∀ a ∈ ownArgs table args, isDropped a = false
  · have hroles : ∀ x ∈ roles table args, x.2 = .flag → isDropped x.1 = false := by
      intro x hx hflag
      apply hkept x.1
      exact List.mem_map_of_mem (List.mem_filter.mpr ⟨hx, by simpa using hflag⟩)
    have hmono : ∀ x : Text × Role, decide (x.2 = .flag) = true → isShown x = true := by
      intro x hx
      rw [isShown, hx, Bool.true_or]
    have hfiles : (∀ a ∈ files table args, endsLikeFile a = true) ↔
        ∀ x ∈ roles table args, x.2 = .file → endsLikeFile x.1 = true := by
      simp only [files, List.mem_map, List.mem_filter, decide_eq_true_eq]
      constructor
      · exact fun h x hx hrole => h x.1 ⟨x, ⟨hx, hrole⟩, rfl⟩
      · rintro h a ⟨x, ⟨hx, hrole⟩, rfl⟩
        exact h x hx hrole
    rw [filterArgs_from table (.inr ⟨rfl, .inl rfl⟩) hroles, ← roles, ownArgs, map_filter_eq_iff hmono,
      ← ownArgs, and_iff_right hkept, hfiles]
    apply forall₂_congr
    rintro ⟨a, role⟩ -
    cases role <;> simp [isShown]
  · refine iff_of_false ?_ fun h => hkept h.1
    intro heq
    apply hkept
    intro a ha
    exact not_dropped_of_mem (heq ▸ ha)

def isJoined (a : Text) : Bool :=
  ["-o", "-MF", "-MT"].any fun option => option.toList.isPrefixOf a && a ≠ option.toList

def isSeparate (a : Text) : Bool :=
  takesValue a || (["-I", "-D", "-U", "-include", "-isystem", "-x"].any fun option => isText option a)

theorem isSeparate_output {a : Text} (h : takesValue a = true) :
    (if isSeparate a then 1 else 0) = 1 := by
  rw [isSeparate, h, Bool.true_or, if_pos rfl]

theorem isOption_joined {a : Text} (h : isJoined a = true) :
    isOption a = true ∧ isText "-c" a = false ∧ takesValue a = false := by
  obtain ⟨option, hoption, hjoined⟩ := List.any_eq_true.mp h
  obtain ⟨hstarts, hne⟩ := Bool.and_eq_true_iff.mp hjoined
  obtain ⟨value, rfl⟩ := List.isPrefixOf_iff_prefix.mp hstarts
  have hvalue : value ≠ [] := by
    rintro rfl
    simp at hne
  obtain ⟨c, value, rfl⟩ := List.exists_cons_of_ne_nil hvalue
  have hcases : option = "-o" ∨ option = "-MF" ∨ option = "-MT" := by simpa using hoption
  rcases hcases with rfl | rfl | rfl <;> simp [isOption, isText, takesValue]

/-- Some options of clang. -/
def commonOptions : OptionTable where
  values a := if isSeparate a then 1 else 0
  joined := isJoined
  values_output _ := isSeparate_output
  option_joined _ := isOption_joined

/-- `clang -I include -DNDEBUG -c -MF x.d -ox.o src/b/x.c` -/
def clangArgs (file includes : String) : List Text :=
  ["-I".toList, includes.toList, "-DNDEBUG".toList, "-c".toList, "-MF".toList, "x.d".toList, "-ox.o".toList,
    file.toList]

def clangEntry (file includes : String) : Entry where
  file := file.toList
  arguments := "clang".toList :: clangArgs file includes
  command := []
  directory := "/melee".toList

end MeleeHarness.TypeOracle
