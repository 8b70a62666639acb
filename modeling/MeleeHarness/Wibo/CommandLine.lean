import MeleeHarness.Lib.Bytes

/-!
# The command line of a guest

`main` joins the arguments of the guest to one command line, and `splitCommandLine` takes a
command line apart again for a child.

* `readArg_quoted`, `readArg_plain`: one argument read back;
* `splitCommandLine_commandLine`: what comes back of all of them.
-/

namespace MeleeHarness.Wibo

open Lib

def backslash : UInt8 := 0x5C

def quote : UInt8 := 0x22

def space : UInt8 := 0x20

def tab : UInt8 := 0x09

def newline : UInt8 := 0x0A

def needQuotes (arg : Bytes) : Bool := arg.any fun c => c ∈ [quote, space, tab, newline]

/-- The loop over an argument, after so many backslashes. The list ends where the C string
has its `'\0'`. -/
def escapeArg : Nat → Bytes → Bytes
  | backslashes, [] => List.replicate (2 * backslashes) backslash
  | backslashes, c :: arg =>
    if c = backslash then escapeArg (backslashes + 1) arg
    else if c = quote then
      List.replicate (2 * backslashes) backslash ++ backslash :: quote :: escapeArg 0 arg
    else List.replicate backslashes backslash ++ c :: escapeArg 0 arg

def quoteArg (arg : Bytes) : Bytes :=
  if needQuotes arg then quote :: (escapeArg 0 arg ++ [quote]) else escapeArg 0 arg

/-- `cmdLine`, as `main` builds it where none is given. -/
def commandLine (guestArgs : List Bytes) : Bytes := [space].intercalate (guestArgs.map quoteArg)

def isBlank (c : UInt8) : Bool := c = space || c = tab

/-- The inner loop of `splitCommandLine`: the argument, and the input it stops at. -/
def readArg : Bytes → Bool → Nat → Bytes → Bytes × Bytes
  | arg, _, backslashes, [] => (arg ++ List.replicate backslashes backslash, [])
  | arg, inQuotes, backslashes, c :: input =>
    if c = backslash then readArg arg inQuotes (backslashes + 1) input
    else if c = quote then
      if backslashes % 2 = 0 then
        readArg (arg ++ List.replicate (backslashes / 2) backslash) (!inQuotes) 0 input
      else readArg (arg ++ List.replicate (backslashes / 2) backslash ++ [quote]) inQuotes 0 input
    else if !inQuotes && isBlank c then (arg ++ List.replicate backslashes backslash, c :: input)
    else readArg (arg ++ List.replicate backslashes backslash ++ [c]) inQuotes 0 input

theorem length_readArg_le (arg : Bytes) (inQuotes : Bool) (backslashes : Nat) (input : Bytes) :
    (readArg arg inQuotes backslashes input).2.length ≤ input.length := by
  fun_induction readArg arg inQuotes backslashes input with
  | case1 => exact Nat.le_refl _
  | case2 arg inQuotes backslashes input ih => exact Nat.le_succ_of_le ih
  | case3 arg inQuotes backslashes input hne heven ih => exact Nat.le_succ_of_le ih
  | case4 arg inQuotes backslashes input hne hodd ih => exact Nat.le_succ_of_le ih
  | case5 => exact Nat.le_refl _
  | case6 arg inQuotes backslashes c input hne hquote hblank ih => exact Nat.le_succ_of_le ih

/-- It does not stop at its first character. -/
theorem length_readArg_lt {c : UInt8} (hc : isBlank c = false) (input : Bytes) :
    (readArg [] false 0 (c :: input)).2.length < (c :: input).length := by
  rw [readArg, hc, Bool.and_false, if_neg Bool.false_ne_true]
  split_ifs <;> exact Nat.lt_succ_of_le (length_readArg_le ..)

theorem length_dropBlanks_le (input : Bytes) : (input.dropWhile isBlank).length ≤ input.length :=
  (List.dropWhile_suffix isBlank).length_le

theorem not_blank_of_dropBlanks {input rest : Bytes} {c : UInt8}
    (h : input.dropWhile isBlank = c :: rest) : isBlank c = false := by
  have hne : input.dropWhile isBlank ≠ [] := by
    rw [h]
    exact List.cons_ne_nil _ _
  have hhead := List.head_dropWhile_not isBlank hne
  simpa only [h, List.head_cons] using hhead

theorem length_next_lt {input rest : Bytes} {c : UInt8} (h : input.dropWhile isBlank = c :: rest) :
    (readArg [] false 0 (c :: rest)).2.length < input.length := by
  apply Nat.lt_of_lt_of_le (length_readArg_lt (not_blank_of_dropBlanks h) rest)
  rw [← h]
  exact length_dropBlanks_le input

/-- The blanks behind an argument are dropped in front of the next. -/
def splitCommandLine (input : Bytes) : List Bytes :=
  match _ : input.dropWhile isBlank with
  | [] => []
  | c :: rest =>
    (readArg [] false 0 (c :: rest)).1 :: splitCommandLine (readArg [] false 0 (c :: rest)).2
termination_by input.length
decreasing_by exact length_next_lt ‹_›

theorem splitCommandLine_cons {input rest : Bytes} {c : UInt8}
    (h : input.dropWhile isBlank = c :: rest) :
    splitCommandLine input = (readArg [] false 0 (c :: rest)).1 ::
      splitCommandLine (readArg [] false 0 (c :: rest)).2 := by
  rw [splitCommandLine]
  split
  · next hnil =>
    rw [h] at hnil
    cases hnil
  · next d rest' hcons =>
    obtain ⟨rfl, rfl⟩ := List.cons.inj (h.symm.trans hcons)
    rfl

/-! ## One argument -/

theorem readArg_backslashes (arg : Bytes) (inQuotes : Bool) (n m : Nat) (input : Bytes) :
    readArg arg inQuotes n (List.replicate m backslash ++ input) =
      readArg arg inQuotes (n + m) input := by
  induction m generalizing n with
  | zero => rfl
  | succ m ih =>
    rw [List.replicate_succ, List.cons_append, readArg, if_pos rfl, ih]
    congr 1
    omega

/-- An even number of backslashes leaves a quote its meaning. -/
theorem readArg_even (arg : Bytes) (inQuotes : Bool) (n : Nat) (input : Bytes) :
    readArg arg inQuotes 0 (List.replicate (2 * n) backslash ++ quote :: input) =
      readArg (arg ++ List.replicate n backslash) (!inQuotes) 0 input := by
  rw [readArg_backslashes, readArg, if_neg (by decide), if_pos rfl, if_pos (by omega)]
  congr 3
  omega

theorem readArg_odd (arg : Bytes) (inQuotes : Bool) (n : Nat) (input : Bytes) :
    readArg arg inQuotes 0 (List.replicate (2 * n) backslash ++ backslash :: quote :: input) =
      readArg (arg ++ List.replicate n backslash ++ [quote]) inQuotes 0 input := by
  rw [readArg_backslashes, readArg, if_pos rfl, readArg, if_neg (by decide), if_pos rfl,
    if_neg (by omega)]
  congr 4
  omega

/-- The backslashes of an argument that is in quotes are kept, those at its end included. -/
theorem readArg_quoted (arg : Bytes) (read : Bytes) (backslashes : Nat) (input : Bytes) :
    readArg read true 0 (escapeArg backslashes arg ++ quote :: input) =
      readArg (read ++ List.replicate backslashes backslash ++ arg) false 0 input := by
  induction arg generalizing read backslashes with
  | nil =>
    rw [escapeArg, readArg_even, List.append_nil]
    rfl
  | cons c arg ih =>
    rw [escapeArg]
    by_cases hback : c = backslash
    · rw [if_pos hback, ih, List.replicate_succ', hback]
      simp only [List.append_assoc, List.singleton_append]
    · rw [if_neg hback]
      by_cases hquote : c = quote
      · rw [if_pos hquote, List.append_assoc, List.cons_append, List.cons_append, readArg_odd, ih,
          hquote]
        simp only [List.append_assoc, List.singleton_append, List.replicate_zero]
      · rw [if_neg hquote, List.append_assoc, List.cons_append, readArg_backslashes, readArg,
          if_neg hback, if_neg hquote, Bool.not_true, Bool.false_and, if_neg Bool.false_ne_true, ih,
          Nat.zero_add]
        simp only [List.append_assoc, List.singleton_append, List.replicate_zero]

/-- The backslashes an argument ends with. -/
def trailing (arg : Bytes) : Nat := (arg.reverse.takeWhile (· = backslash)).length

theorem trailing_replicate (n : Nat) : trailing (List.replicate n backslash) = n := by
  rw [trailing, List.reverse_replicate, List.takeWhile_replicate, if_pos (by decide),
    List.length_replicate]

theorem trailing_append_cons {c : UInt8} (hc : c ≠ backslash) (front arg : Bytes) :
    trailing (front ++ c :: arg) = trailing arg := by
  have hreverse : (front ++ c :: arg).reverse = arg.reverse ++ c :: front.reverse := by simp
  rw [trailing, trailing, hreverse, List.takeWhile_append,
    List.takeWhile_cons_of_neg (by simpa using hc), List.append_nil]
  split_ifs with hall
  · rw [hall]
  · rfl

theorem needQuotes_cons {c : UInt8} {arg : Bytes} : needQuotes (c :: arg) = false ↔
    (c ≠ quote ∧ c ≠ space ∧ c ≠ tab ∧ c ≠ newline) ∧ needQuotes arg = false := by
  simp [needQuotes]

/-- Without quotes the backslashes at the end are doubled nevertheless. -/
theorem escapeArg_plain {arg : Bytes} (harg : needQuotes arg = false) (backslashes : Nat) :
    escapeArg backslashes arg = List.replicate backslashes backslash ++ arg ++
      List.replicate (trailing (List.replicate backslashes backslash ++ arg)) backslash := by
  induction arg generalizing backslashes with
  | nil =>
    rw [escapeArg, List.append_nil, trailing_replicate, ← List.replicate_add, Nat.two_mul]
  | cons c arg ih =>
    obtain ⟨⟨hquote, -⟩, harg⟩ := needQuotes_cons.mp harg
    rw [escapeArg, if_neg hquote]
    by_cases hback : c = backslash
    · rw [if_pos hback, ih harg, List.replicate_succ', hback]
      simp only [List.append_assoc, List.singleton_append]
    · rw [if_neg hback, ih harg, trailing_append_cons hback]
      simp only [List.append_assoc, List.cons_append, List.replicate_zero, List.nil_append]

theorem readArg_plain {arg input : Bytes} (harg : needQuotes arg = false)
    (hinput : ∀ c ∈ input.head?, isBlank c = true) (read : Bytes) (backslashes : Nat) :
    readArg read false backslashes (arg ++ input) =
      (read ++ List.replicate backslashes backslash ++ arg, input) := by
  induction arg generalizing read backslashes with
  | nil =>
    cases input with
    | nil => rw [List.append_nil, readArg, List.append_nil]
    | cons c input =>
      have hc := hinput c rfl
      have hback : c ≠ backslash := by
        rintro rfl
        exact absurd hc (by decide)
      have hquote : c ≠ quote := by
        rintro rfl
        exact absurd hc (by decide)
      rw [List.nil_append, readArg, if_neg hback, if_neg hquote, hc, List.append_nil]
      rfl
  | cons c arg ih =>
    obtain ⟨⟨hquote, hspace, htab, -⟩, harg⟩ := needQuotes_cons.mp harg
    have hblank : isBlank c = false := by simp [isBlank, hspace, htab]
    rw [List.cons_append, readArg, if_neg hquote, hblank, Bool.and_false,
      if_neg Bool.false_ne_true, ih harg, ih harg]
    by_cases hback : c = backslash
    · rw [if_pos hback, List.replicate_succ', hback]
      simp only [List.append_assoc, List.singleton_append]
    · rw [if_neg hback]
      simp only [List.append_assoc, List.singleton_append, List.replicate_zero]

/-- What a child gets for an argument. -/
def received (arg : Bytes) : Bytes :=
  if needQuotes arg then arg else arg ++ List.replicate (trailing arg) backslash

theorem readArg_quoteArg (arg : Bytes) {input : Bytes}
    (hinput : ∀ c ∈ input.head?, isBlank c = true) :
    readArg [] false 0 (quoteArg arg ++ input) = (received arg, input) := by
  rw [quoteArg, received]
  cases harg : needQuotes arg with
  | true =>
    have hopen := readArg_even [] false 0 (escapeArg 0 arg ++ quote :: input)
    rw [Nat.mul_zero, List.replicate_zero, List.nil_append] at hopen
    rw [if_pos rfl, if_pos rfl, List.cons_append, List.append_assoc, List.singleton_append, hopen,
      List.append_nil, Bool.not_false, readArg_quoted, List.replicate_zero, List.nil_append,
      List.nil_append]
    have hclosed := @readArg_plain [] input rfl hinput arg 0
    rwa [List.nil_append, List.replicate_zero, List.append_nil, List.append_nil] at hclosed
  | false =>
    have hrest : needQuotes (arg ++ List.replicate (trailing arg) backslash) = false := by
      rw [needQuotes, List.any_append, ← needQuotes, harg, Bool.false_or, List.any_replicate]
      simp [quote, space, tab, newline, backslash]
    rw [if_neg Bool.false_ne_true, if_neg Bool.false_ne_true, escapeArg_plain harg,
      List.replicate_zero, List.nil_append, readArg_plain hrest hinput, List.replicate_zero,
      List.nil_append, List.nil_append]

/-! ## All arguments -/

theorem quoteArg_cons {arg : Bytes} (harg : arg ≠ []) :
    ∃ c rest, quoteArg arg = c :: rest ∧ isBlank c = false := by
  rw [quoteArg]
  cases hneed : needQuotes arg with
  | true => exact ⟨quote, _, if_pos rfl, by decide⟩
  | false =>
    obtain ⟨c, rest, rfl⟩ := List.exists_cons_of_ne_nil harg
    obtain ⟨⟨-, hspace, htab, -⟩, -⟩ := needQuotes_cons.mp hneed
    rw [if_neg Bool.false_ne_true, escapeArg_plain hneed]
    exact ⟨c, _, rfl, by simp [isBlank, hspace, htab]⟩

theorem splitCommandLine_nil : splitCommandLine [] = [] := by
  rw [splitCommandLine]
  rfl

theorem splitCommandLine_blank {c : UInt8} (hc : isBlank c = true) (input : Bytes) :
    splitCommandLine (c :: input) = splitCommandLine input := by
  rw [splitCommandLine.eq_def (c :: input), splitCommandLine.eq_def input,
    List.dropWhile_cons_of_pos hc]

theorem splitCommandLine_quoteArg {arg : Bytes} (harg : arg ≠ []) {input : Bytes}
    (hinput : ∀ c ∈ input.head?, isBlank c = true) :
    splitCommandLine (quoteArg arg ++ input) = received arg :: splitCommandLine input := by
  have hread := readArg_quoteArg arg hinput
  obtain ⟨c, rest, hquoted, hblank⟩ := quoteArg_cons harg
  rw [hquoted, List.cons_append] at hread ⊢
  rw [splitCommandLine_cons (List.dropWhile_cons_of_neg (by simp [hblank])), hread]

theorem commandLine_cons (arg : Bytes) (guestArgs : List Bytes) : commandLine (arg :: guestArgs) =
    quoteArg arg ++ guestArgs.flatMap fun next => space :: quoteArg next := by
  rw [commandLine, List.map_cons]
  induction guestArgs generalizing arg with
  | nil => simp
  | cons next guestArgs ih =>
    rw [List.map_cons, List.intercalate_cons_cons, ih, List.flatMap_cons, List.append_assoc]
    rfl

/-- An argument may be empty: it leaves the blank in front of it. -/
theorem splitCommandLine_next (arg : Bytes) {input : Bytes}
    (hinput : ∀ c ∈ input.head?, isBlank c = true) :
    splitCommandLine (quoteArg arg ++ input) =
      ([arg].filter (· ≠ [])).map received ++ splitCommandLine input := by
  by_cases harg : arg = []
  · subst harg
    rfl
  · rw [splitCommandLine_quoteArg harg hinput, List.filter_cons_of_pos (by simpa using harg)]
    rfl

theorem splitCommandLine_rest (guestArgs : List Bytes) :
    (∀ c ∈ (guestArgs.flatMap fun next => space :: quoteArg next).head?, isBlank c = true) ∧
    splitCommandLine (guestArgs.flatMap fun next => space :: quoteArg next) =
      (guestArgs.filter (· ≠ [])).map received := by
  induction guestArgs with
  | nil => exact ⟨by simp, splitCommandLine_nil⟩
  | cons arg guestArgs ih =>
    obtain ⟨hblank, ih⟩ := ih
    rw [List.flatMap_cons, List.cons_append]
    constructor
    · intro c hc
      obtain rfl := Option.some.inj hc
      decide
    · rw [splitCommandLine_blank (by decide), splitCommandLine_next arg hblank, ih, ← List.map_append,
        ← List.filter_append, List.singleton_append]

theorem splitCommandLine_append (guestArgs : List Bytes) :
    splitCommandLine (commandLine guestArgs) = (guestArgs.filter (· ≠ [])).map received := by
  cases guestArgs with
  | nil => exact splitCommandLine_nil
  | cons arg guestArgs =>
    obtain ⟨hblank, hrest⟩ := splitCommandLine_rest guestArgs
    rw [commandLine_cons, splitCommandLine_next arg hblank, hrest, ← List.map_append,
      ← List.filter_append, List.singleton_append]

theorem trailing_eq_zero {arg : Bytes} : trailing arg = 0 ↔ arg.getLast? ≠ some backslash := by
  rw [trailing, List.length_eq_zero_iff, List.getLast?_eq_head?_reverse]
  cases arg.reverse with
  | nil => simp
  | cons c rest => simp [List.takeWhile_cons]

theorem received_eq_self {arg : Bytes} :
    received arg = arg ↔ (arg.getLast? = some backslash → needQuotes arg = true) := by
  rw [received]
  cases needQuotes arg with
  | true => simp
  | false =>
    rw [if_neg Bool.false_ne_true, List.append_right_eq_self, List.replicate_eq_nil_iff,
      trailing_eq_zero]
    simp

/-- A child gets the arguments without the empty ones, each as it was but for the backslashes
at its end, which are doubled where it is not in quotes. -/
theorem splitCommandLine_commandLine (guestArgs : List Bytes) :
    splitCommandLine (commandLine guestArgs) = (guestArgs.filter (· ≠ [])).map received ∧
    (splitCommandLine (commandLine guestArgs) = guestArgs ↔ ∀ arg ∈ guestArgs,
      arg ≠ [] ∧ (arg.getLast? = some backslash → needQuotes arg = true)) := by
  refine ⟨splitCommandLine_append guestArgs, ?_⟩
  rw [splitCommandLine_append]
  induction guestArgs with
  | nil => simp
  | cons arg guestArgs ih =>
    rw [List.forall_mem_cons, ← ih, ← received_eq_self]
    by_cases harg : arg = []
    · have hlength := List.length_filter_le (· ≠ []) guestArgs
      constructor
      · intro h
        have hshort := congrArg List.length h
        rw [List.filter_cons_of_neg (by simp [harg]), List.length_map, List.length_cons] at hshort
        omega
      · exact fun h => absurd harg h.1.1
    · rw [List.filter_cons_of_pos (by simpa using harg), List.map_cons, List.cons.injEq]
      simp [harg]

end MeleeHarness.Wibo
