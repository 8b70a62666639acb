import MeleeHarness.Lib.PowerPC
import MeleeHarness.Lib.Run

/-!
# Stack slots of a compiler pass

`analyze_stack_pass` reads the listing of a pass and files each reference to the frame
under the slot it names. A register that is set by `addi r, r1, expr` is taken for a
pointer to that slot.

* `mem_analyze`: which indexed references are filed;
* `analyze_attributed`: when each of them is filed under the slot its base points to.
-/

namespace MeleeHarness.MwccDump

open Lib PowerPC

/-! ## Lines -/

structure MwccInstruction where
  index : Nat
  lineNo : Nat
  block : Option Text
  op : Text
  operands : List Text
  text : Text
  raw : Text
  flags : List Text
  deriving DecidableEq, Repr

def cleanInst (line : Text) : Text := strip (line.takeWhile (· ≠ ';'))

/-- The first word of each part behind a semicolon. -/
def lineFlags (line : Text) : List Text :=
  ((line.splitOn ';').drop 1).filterMap fun part => (words part).head?

def opChar (c : Char) : Bool := c.isLower || c.isDigit || c = '.'

/-- White space, a mnemonic, and what follows it. -/
def mnemonic (line : Text) : Option (Text × Text) :=
  let body := line.dropWhile isSpace
  if line.head?.any isSpace ∧ body.head?.any Char.isLower then
    some (body.takeWhile opChar, body.dropWhile opChar)
  else none

/-- `^\s+([a-z][a-z0-9.]*)\s+([^;]+)`: where nothing but white space follows, the last of it
is the second group. -/
def parseInst (line : Text) : Option (Text × List Text × Text) := do
  let (op, rest) ← mnemonic line
  let gap := rest.takeWhile isSpace
  let group := (rest.dropWhile isSpace).takeWhile (· ≠ ';')
  if gap = [] then none
  else if group = [] then
    if gap.length = 1 then none else some (op, [[]], cleanInst line)
  else some (op, (group.splitOn ',').map strip, cleanInst line)

/-- `^(B\d+):\s+`. -/
def blockLabel (line : Text) : Option Text :=
  match line with
  | 'B' :: rest =>
    let digits := rest.takeWhile Char.isDigit
    match rest.dropWhile Char.isDigit with
    | ':' :: c :: _ => if digits ≠ [] ∧ isSpace c then some ('B' :: digits) else none
    | _ => none
  | _ => none

structure Parsed where
  lineNo : Nat
  block : Option Text
  insts : List MwccInstruction

def parseLine (p : Parsed) (line : Text) : Parsed :=
  let lineNo := p.lineNo + 1
  match blockLabel line with
  | some block => { p with lineNo, block }
  | none =>
    match parseInst line with
    | none => { p with lineNo }
    | some (op, operands, text) =>
      { p with
        lineNo
        insts := p.insts ++
          [⟨p.insts.length, lineNo, p.block, op, operands, text, line, lineFlags line⟩] }

def parseLines (lines : List Text) : Parsed := lines.foldl parseLine ⟨0, none, []⟩

def parseMwccInstructions (lines : List Text) : List MwccInstruction := (parseLines lines).insts

/-! ## Operands -/

def digits? (t : Text) : Bool := t ≠ [] && t.all Char.isDigit

/-- `-?\d+`. -/
def signed? (t : Text) : Bool :=
  match t with
  | '-' :: rest => digits? rest
  | _ => digits? t

/-- `rN` at the start of a text, and the rest. -/
def regAt (t : Text) : Option (Text × Text) :=
  match t with
  | 'r' :: rest =>
    if (rest.takeWhile Char.isDigit) ≠ [] then
      some ('r' :: rest.takeWhile Char.isDigit, rest.dropWhile Char.isDigit)
    else none
  | _ => none

/-- `(-?\d+)\((r\d+)\)`. -/
def regFromOffsetOperand (operand : Text) : Option (Int × Text) :=
  let number := operand.takeWhile (· ≠ '(')
  match operand.dropWhile (· ≠ '(') with
  | '(' :: rest =>
    match regAt rest with
    | some (reg, ')' :: _) =>
      if signed? number then (intBase10 number).map fun n => (n, reg) else none
    | _ => none
  | _ => none

/-- `([^()]+)\((r\d+)\)$`. -/
def offsetExprFromOperand (operand : Text) : Option (Text × Text) :=
  let expr := operand.takeWhile (· ≠ '(')
  match operand.dropWhile (· ≠ '(') with
  | '(' :: rest =>
    match regAt rest with
    | some (reg, [')']) => if expr ≠ [] ∧ ')' ∉ expr then some (expr, reg) else none
    | _ => none
  | _ => none

def nameStart (c : Char) : Bool := c.isAlpha || c = '_' || c = '@'

def nameChar (c : Char) : Bool := c.isAlphanum || c = '_' || c = '@' || c = '.'

/-- `[+-]\d+`. -/
def delta? (t : Text) : Option Int :=
  match t with
  | '+' :: rest => if digits? rest then intBase10 rest else none
  | '-' :: rest => if digits? rest then intBase10 t else none
  | _ => none

def splitStackExpr (text : Text) : Text × Option Int :=
  let expr := strip text
  let name := expr.takeWhile nameChar
  let rest := expr.dropWhile nameChar
  if signed? expr then (expr, some 0)
  else if expr.head?.any nameStart then
    if rest = [] then (name, some 0)
    else
      match delta? rest with
      | some delta => (name, some delta)
      | none => (expr, none)
  else (expr, none)

def isIndexedMemOp (op : Text) : Bool :=
  anyOf ["lbzx", "lhax", "lhzx", "lwzx", "lfsx", "stbx", "sthx", "stwx", "stfsx"] op

def isOffsetMemOp (op : Text) : Bool :=
  anyOf ["lbz", "lha", "lhz", "lwz", "lfs", "lfd", "stb", "sth", "stw", "stfs", "stfd"] op

/-- `\((r\d+),(r\d+)\)` at the start. -/
def pairAt (t : Text) : Option (Text × Text) :=
  match t with
  | '(' :: rest =>
    match regAt rest with
    | some (base, ',' :: rest) =>
      match regAt rest with
      | some (index, ')' :: _) => some (base, index)
      | _ => none
    | _ => none
  | _ => none

/-- The first pair anywhere. -/
def searchPair : Text → Option (Text × Text)
  | [] => none
  | c :: rest => (pairAt (c :: rest)).or (searchPair rest)

/-! ## The analysis -/

inductive RefKind where
  | ptr | mem | indexed
  deriving DecidableEq, Repr

structure MwccStackRef where
  slot : Text
  delta : Option Int
  kind : RefKind
  op : Text
  instruction : Text
  lineNo : Nat
  block : Option Text
  flags : List Text
  destReg : Option Text
  baseReg : Option Text
  ptrReg : Option Text
  indexReg : Option Text
  conversion : Bool
  deriving DecidableEq, Repr

structure SavedRegister where
  op : Text
  reg : Text
  offset : Int
  instruction : Text
  lineNo : Nat
  block : Option Text
  deriving DecidableEq, Repr

structure MwccStackSlot where
  name : Text
  refs : List MwccStackRef
  deriving DecidableEq, Repr

/-- What the loop has collected; the last field is `stack_ptrs`. -/
structure StackState where
  frameSize : Option Nat
  savedRegs : List SavedRegister
  slots : List MwccStackSlot
  stackPtrs : Text → Option (Text × Option Int)

def addRef (slots : List MwccStackSlot) (ref : MwccStackRef) : List MwccStackSlot :=
  if slots.any (·.name = ref.slot) then
    slots.map fun slot => if slot.name = ref.slot then { slot with refs := slot.refs ++ [ref] } else slot
  else slots ++ [⟨ref.slot, [ref]⟩]

def StackState.addRef (st : StackState) (ref : MwccStackRef) : StackState :=
  { st with slots := MwccDump.addRef st.slots ref }

def stackPointer : Text := "r1".toList

/-- `-(\d+)\(r1\)`. -/
def frameOperand (operand : Text) : Option Nat :=
  match operand with
  | '-' :: rest =>
    if "(r1)".toList.isPrefixOf (rest.dropWhile Char.isDigit) then
      numeral (rest.takeWhile Char.isDigit)
    else none
  | _ => none

def noteFrame (st : StackState) (inst : MwccInstruction) : StackState :=
  match inst.operands with
  | reg :: operand :: _ =>
    if anyOf ["stwu"] inst.op ∧ reg = stackPointer then
      { st with frameSize := st.frameSize.or (frameOperand operand) }
    else st
  | _ => st

/-- `f?r?\d+`. -/
def savedName (t : Text) : Bool :=
  let t := if t.head? = some 'f' then t.tail else t
  digits? (if t.head? = some 'r' then t.tail else t)

def noteSaved (st : StackState) (inst : MwccInstruction) : StackState :=
  match inst.operands with
  | reg :: operand :: _ =>
    match regFromOffsetOperand operand with
    | some (offset, base) =>
      if anyOf ["stmw", "stw", "stfd"] inst.op ∧ base = stackPointer ∧ savedName reg ∧
          '@' ∉ operand then
        { st with
          savedRegs := st.savedRegs ++
            [⟨inst.op, reg, offset, inst.text, inst.lineNo, inst.block⟩] }
      else st
    | none => st
  | _ => st

/-- The register and the expression of `addi r, r1, expr`. -/
def pointerTo (op : Text) (operands : List Text) : Option (Text × Text) :=
  match operands with
  | [reg, base, expr] => if anyOf ["addi"] op ∧ base = stackPointer then some (reg, expr) else none
  | _ => none

def notePointer (st : StackState) (inst : MwccInstruction) : StackState :=
  match pointerTo inst.op inst.operands with
  | none => st
  | some (reg, expr) =>
    let (key, delta) := splitStackExpr expr
    { st.addRef
        { slot := key, delta, kind := .ptr, op := inst.op, instruction := inst.text,
          lineNo := inst.lineNo, block := inst.block, flags := inst.flags, destReg := some reg,
          baseReg := some stackPointer, ptrReg := some reg, indexReg := none,
          conversion := false } with
      stackPtrs := Function.update st.stackPtrs reg (some (key, delta)) }

def memRef (inst : MwccInstruction) (conversion : Bool) (operand : Text) : Option MwccStackRef :=
  match offsetExprFromOperand operand with
  | none => none
  | some (expr, base) =>
    if base ≠ stackPointer then none
    else
      let (key, delta) := splitStackExpr expr
      some
        { slot := key, delta, kind := .mem, op := inst.op, instruction := inst.text,
          lineNo := inst.lineNo, block := inst.block, flags := inst.flags,
          destReg := inst.operands.head?, baseReg := some base, ptrReg := none, indexReg := none,
          conversion }

def noteMem (st : StackState) (inst : MwccInstruction) (conversion : Bool) : StackState :=
  if isOffsetMemOp inst.op then
    ((inst.operands.drop 1).filterMap (memRef inst conversion)).foldl StackState.addRef st
  else st

/-- The registers of an indexed access. -/
def indexedPair (op text : Text) : Option (Text × Text) :=
  if isIndexedMemOp op then searchPair text else none

def indexedRef (inst : MwccInstruction) (base index : Text) (pointer : Text × Option Int) :
    MwccStackRef where
  slot := pointer.1
  delta := pointer.2
  kind := .indexed
  op := inst.op
  instruction := inst.text
  lineNo := inst.lineNo
  block := inst.block
  flags := inst.flags
  destReg := inst.operands.head?
  baseReg := some base
  ptrReg := none
  indexReg := some index
  conversion := false

def noteIndexed (st : StackState) (inst : MwccInstruction) : StackState :=
  match indexedPair inst.op inst.text with
  | none => st
  | some (base, index) =>
    match st.stackPtrs base with
    | none => st
    | some pointer => st.addRef (indexedRef inst base index pointer)

/-- One of the last three instructions converts a number. -/
def converts (earlier : List MwccInstruction) (inst : MwccInstruction) : Bool :=
  let recent := earlier.drop (earlier.length - 3)
  anyOf ["lfd", "stfd"] inst.op && recent.any fun prior => anyOf ["xoris", "fctiwz"] prior.op

def analyzeInst (insts : List MwccInstruction) (st : StackState) (inst : MwccInstruction) :
    StackState :=
  let conversion := converts (insts.take inst.index) inst
  noteIndexed (noteMem (notePointer (noteSaved (noteFrame st inst) inst) inst) inst conversion) inst

structure MwccStackAnalysis where
  passName : Text
  instructions : List MwccInstruction
  frameSize : Option Nat
  savedRegs : List SavedRegister
  slots : List MwccStackSlot

def stackState (insts : List MwccInstruction) : StackState :=
  insts.foldl (analyzeInst insts) ⟨none, [], [], fun _ => none⟩

def analyzeStackPass (lines : List Text) (passName : Option Text) : MwccStackAnalysis :=
  let insts := parseMwccInstructions lines
  let st := stackState insts
  { passName := passName.getD (lines.head?.getD "<none>".toList)
    instructions := insts
    frameSize := st.frameSize
    savedRegs := st.savedRegs
    slots := st.slots }

/-! ## What is filed -/

def refsOf (slots : List MwccStackSlot) : List (Text × MwccStackRef) :=
  slots.flatMap fun slot => slot.refs.map (slot.name, ·)

theorem mem_addRef {slots : List MwccStackSlot} {ref : MwccStackRef} {entry : Text × MwccStackRef} :
    entry ∈ refsOf (addRef slots ref) ↔ entry ∈ refsOf slots ∨ entry = (ref.slot, ref) := by
  rw [addRef]
  split_ifs with h
  · simp only [refsOf, List.mem_flatMap, List.mem_map, List.any_eq_true, decide_eq_true_eq] at h ⊢
    constructor
    · rintro ⟨_, ⟨slot, hslot, rfl⟩, r, hr, rfl⟩
      split_ifs at hr ⊢ with hname
      · rcases List.mem_append.1 hr with hr | hr
        · exact .inl ⟨slot, hslot, r, hr, rfl⟩
        · obtain rfl := List.mem_singleton.1 hr
          exact .inr (by rw [hname])
      · exact .inl ⟨slot, hslot, r, hr, rfl⟩
    · rintro (⟨slot, hslot, r, hr, rfl⟩ | rfl)
      · refine ⟨_, ⟨slot, hslot, rfl⟩, r, ?_, ?_⟩
        · split_ifs
          · exact List.mem_append_left _ hr
          · exact hr
        · split_ifs <;> rfl
      · obtain ⟨slot, hslot, hname⟩ := h
        exact ⟨_, ⟨slot, hslot, rfl⟩, ref, by simp [hname], by simp [hname]⟩
  · simp [refsOf]

/-- The expression that a register is pointed to by. -/
def pointsTo (reg op : Text) (operands : List Text) : Option Text :=
  match pointerTo op operands with
  | some (dest, expr) => if dest = reg then some expr else none
  | none => none

def lastPointer (reg : Text) (insts : List MwccInstruction) : Option Text :=
  latest (fun inst => pointsTo reg inst.op inst.operands) insts

@[simp]
theorem noteFrame_slots (st : StackState) (inst : MwccInstruction) :
    (noteFrame st inst).slots = st.slots ∧ (noteFrame st inst).stackPtrs = st.stackPtrs := by
  unfold noteFrame
  split
  · split_ifs <;> exact ⟨rfl, rfl⟩
  · exact ⟨rfl, rfl⟩

@[simp]
theorem noteSaved_slots (st : StackState) (inst : MwccInstruction) :
    (noteSaved st inst).slots = st.slots ∧ (noteSaved st inst).stackPtrs = st.stackPtrs := by
  unfold noteSaved
  split
  · split
    · split_ifs <;> exact ⟨rfl, rfl⟩
    · exact ⟨rfl, rfl⟩
  · exact ⟨rfl, rfl⟩

theorem notePointer_ptrs (st : StackState) (inst : MwccInstruction) (reg : Text) :
    (notePointer st inst).stackPtrs reg =
      ((pointsTo reg inst.op inst.operands).map splitStackExpr).or (st.stackPtrs reg) := by
  cases h : pointerTo inst.op inst.operands with
  | none => simp [notePointer, pointsTo, h]
  | some pointer =>
    obtain ⟨dest, expr⟩ := pointer
    by_cases hreg : reg = dest
    · simp [notePointer, pointsTo, h, hreg]
    · simp [notePointer, pointsTo, h, hreg, Ne.symm hreg]

/-- References of the other kinds do not matter for the indexed ones. -/
theorem mem_addRef_indexed {slots : List MwccStackSlot} {ref : MwccStackRef}
    {entry : Text × MwccStackRef} (hentry : entry.2.kind = .indexed) (hkind : ref.kind ≠ .indexed) :
    entry ∈ refsOf (addRef slots ref) ↔ entry ∈ refsOf slots := by
  rw [mem_addRef, or_iff_left]
  rintro rfl
  exact hkind hentry

theorem notePointer_indexed (st : StackState) (inst : MwccInstruction)
    {entry : Text × MwccStackRef} (hentry : entry.2.kind = .indexed) :
    entry ∈ refsOf (notePointer st inst).slots ↔ entry ∈ refsOf st.slots := by
  cases h : pointerTo inst.op inst.operands with
  | none => simp [notePointer, h]
  | some pointer =>
    simp only [notePointer, h]
    exact mem_addRef_indexed hentry (by simp)

theorem memRef_kind {inst : MwccInstruction} {conversion : Bool} {operand : Text}
    {ref : MwccStackRef} (h : memRef inst conversion operand = some ref) : ref.kind = .mem := by
  unfold memRef at h
  split at h
  · cases h
  · split_ifs at h
    obtain rfl := Option.some.inj h
    rfl

theorem noteMem_indexed (st : StackState) (inst : MwccInstruction) (conversion : Bool) :
    (noteMem st inst conversion).stackPtrs = st.stackPtrs ∧
    ∀ entry : Text × MwccStackRef, entry.2.kind = .indexed →
      (entry ∈ refsOf (noteMem st inst conversion).slots ↔ entry ∈ refsOf st.slots) := by
  unfold noteMem
  split_ifs
  · have hkinds : ∀ ref ∈ (inst.operands.drop 1).filterMap (memRef inst conversion),
        ref.kind = .mem := by
      intro ref href
      obtain ⟨operand, -, hoperand⟩ := List.mem_filterMap.1 href
      exact memRef_kind hoperand
    revert hkinds
    generalize (inst.operands.drop 1).filterMap (memRef inst conversion) = refs
    induction refs generalizing st with
    | nil => simp
    | cons ref refs ih =>
      intro hkinds
      obtain ⟨hptrs, hrefs⟩ := ih (st.addRef ref) fun r hr => hkinds r (List.mem_cons_of_mem _ hr)
      refine ⟨hptrs, fun entry hentry => ?_⟩
      rw [List.foldl_cons, hrefs entry hentry]
      exact mem_addRef_indexed hentry (by simp [hkinds ref List.mem_cons_self])
  · exact ⟨rfl, fun _ _ => Iff.rfl⟩

theorem pointsTo_indexed {op text : Text} (h : (indexedPair op text).isSome = true) (reg : Text)
    (operands : List Text) : pointsTo reg op operands = none := by
  have hop : isIndexedMemOp op = true := by
    by_contra hop
    simp [indexedPair, hop] at h
  have haddi : anyOf ["addi"] op = false := by
    by_contra haddi
    simp only [anyOf, List.any_cons, List.any_nil, Bool.or_false, decide_eq_true_eq,
      Bool.not_eq_false] at haddi
    subst haddi
    exact absurd hop (by decide)
  unfold pointsTo pointerTo
  split
  · rename_i h
    split at h <;> simp [haddi] at h
  · rfl

/-- An indexed access through a register that has been pointed to a slot. -/
def FiledBy (before : List MwccInstruction) (use : MwccInstruction) (entry : Text × MwccStackRef) :
    Prop :=
  ∃ base index expr, indexedPair use.op use.text = some (base, index) ∧
    lastPointer base before = some expr ∧
    entry = ((splitStackExpr expr).1, indexedRef use base index (splitStackExpr expr))

def FiledAt (insts : List MwccInstruction) (entry : Text × MwccStackRef) : Prop :=
  ∃ before use after, insts = before ++ use :: after ∧ FiledBy before use entry

structure Filed (seen : List MwccInstruction) (st : StackState) : Prop where
  ptrs : ∀ reg, st.stackPtrs reg = (lastPointer reg seen).map splitStackExpr
  refs : ∀ entry : Text × MwccStackRef, entry.2.kind = .indexed →
    (entry ∈ refsOf st.slots ↔ FiledAt seen entry)

theorem analyzeInst_filed (insts : List MwccInstruction) {seen : List MwccInstruction}
    {st : StackState} (inst : MwccInstruction) (h : Filed seen st) :
    Filed (seen ++ [inst]) (analyzeInst insts st inst) := by
  rw [analyzeInst]
  set conversion := converts (insts.take inst.index) inst
  set noted := noteSaved (noteFrame st inst) inst
  have hnoted : noted.slots = st.slots ∧ noted.stackPtrs = st.stackPtrs := by
    simp [noted]
  obtain ⟨hmemPtrs, hmemRefs⟩ := noteMem_indexed (notePointer noted inst) inst conversion
  set before := noteMem (notePointer noted inst) inst conversion
  have hptrs : ∀ reg, before.stackPtrs reg =
      (lastPointer reg (seen ++ [inst])).map splitStackExpr := by
    intro reg
    rw [hmemPtrs, notePointer_ptrs, hnoted.2, h.ptrs, lastPointer, lastPointer, latest_concat]
    cases pointsTo reg inst.op inst.operands <;> rfl
  have hrefs : ∀ entry : Text × MwccStackRef, entry.2.kind = .indexed →
      (entry ∈ refsOf before.slots ↔ FiledAt seen entry) := by
    intro entry hentry
    rw [hmemRefs entry hentry, notePointer_indexed _ _ hentry, hnoted.1, h.refs entry hentry]
  cases hpair : indexedPair inst.op inst.text with
  | none =>
    have hsame : noteIndexed before inst = before := by simp [noteIndexed, hpair]
    rw [hsame]
    refine ⟨hptrs, fun entry hentry => ?_⟩
    rw [hrefs entry hentry, FiledAt, FiledAt, exists_split_concat]
    simp [FiledBy, hpair]
  | some pair =>
    obtain ⟨base, index⟩ := pair
    have hlast : lastPointer base (seen ++ [inst]) = lastPointer base seen := by
      have hnone := pointsTo_indexed (Option.isSome_of_eq_some hpair) base inst.operands
      rw [lastPointer, latest_concat, hnone, Option.none_or]
      rfl
    have hbase := hptrs base
    rw [hlast] at hbase
    cases hexpr : lastPointer base seen with
    | none =>
      have hsame : noteIndexed before inst = before := by simp [noteIndexed, hpair, hbase, hexpr]
      rw [hsame]
      refine ⟨hptrs, fun entry hentry => ?_⟩
      rw [hrefs entry hentry, FiledAt, FiledAt, exists_split_concat]
      simp [FiledBy, hpair, hexpr]
    | some expr =>
      have hnew : noteIndexed before inst =
          before.addRef (indexedRef inst base index (splitStackExpr expr)) := by
        simp [noteIndexed, hpair, hbase, hexpr]
      rw [hnew]
      refine ⟨hptrs, fun entry hentry => ?_⟩
      rw [StackState.addRef, mem_addRef, hrefs entry hentry, FiledAt, FiledAt, exists_split_concat]
      simp [FiledBy, hpair, hexpr, indexedRef]

/-- The indexed references of a pass. -/
theorem mem_analyze (insts : List MwccInstruction) : Filed insts (stackState insts) := by
  apply foldl_invariant Filed
  · refine ⟨fun reg => rfl, fun entry _ => ?_⟩
    simp [refsOf, FiledAt]
  · intro seen st inst h
    exact analyzeInst_filed insts inst h

/-! ## Lines and instructions -/

def linePointer (reg line : Text) : Option Text :=
  match parseInst line with
  | some (op, operands, _) => pointsTo reg op operands
  | none => none

def linePair (line : Text) : Option (Text × Text) :=
  match parseInst line with
  | some (op, _, text) => indexedPair op text
  | none => none

theorem parseInst_label {line : Text} (h : (parseInst line).isSome = true) :
    blockLabel line = none := by
  cases line with
  | nil => rfl
  | cons c rest =>
    by_cases hB : c = 'B'
    · subst hB
      have hspace : isSpace 'B' = false := by decide
      simp [parseInst, mnemonic, hspace] at h
    · unfold blockLabel
      split
      · rename_i heq
        exact absurd (List.head_eq_of_cons_eq heq) hB
      · rfl

/-- What a line adds. -/
def lineInst (lineNo index : Nat) (block : Option Text) (line : Text) : List MwccInstruction :=
  match parseInst line with
  | none => []
  | some (op, operands, text) =>
    [⟨index, lineNo, block, op, operands, text, line, lineFlags line⟩]

theorem parseLine_eq (p : Parsed) (line : Text) :
    (parseLine p line).lineNo = p.lineNo + 1 ∧
      (parseLine p line).insts = p.insts ++ lineInst (p.lineNo + 1) p.insts.length p.block line := by
  cases hparse : parseInst line with
  | none =>
    cases hlabel : blockLabel line <;> simp [parseLine, lineInst, hlabel, hparse]
  | some parsed =>
    have hlabel := parseInst_label (Option.isSome_of_eq_some hparse)
    simp [parseLine, lineInst, hlabel, hparse]

theorem parseLines_lineNo (lines : List Text) : (parseLines lines).lineNo = lines.length := by
  induction lines using List.reverseRecOn with
  | nil => rfl
  | append_singleton lines line ih =>
    rw [parseLines, List.foldl_append, List.foldl_cons, List.foldl_nil, (parseLine_eq _ _).1]
    rw [parseLines] at ih
    simp [ih]

theorem parse_concat (lines : List Text) (line : Text) :
    parseMwccInstructions (lines ++ [line]) = parseMwccInstructions lines ++
      lineInst (lines.length + 1) (parseMwccInstructions lines).length (parseLines lines).block
        line := by
  have hline := (parseLine_eq (parseLines lines) line).2
  rw [parseLines_lineNo] at hline
  rw [← parseMwccInstructions] at hline
  rw [← hline, parseMwccInstructions, parseLines, List.foldl_append]
  rfl

theorem lastPointer_parse (reg : Text) (lines : List Text) :
    lastPointer reg (parseMwccInstructions lines) = latest (linePointer reg) lines := by
  induction lines using List.reverseRecOn with
  | nil => rfl
  | append_singleton lines line ih =>
    rw [parse_concat, latest_concat, linePointer, lineInst]
    cases hparse : parseInst line with
    | none => simpa using ih
    | some parsed =>
      simp only [lastPointer, latest_concat]
      rw [← ih, lastPointer]

def LineFiledBy (before : List Text) (use : Text) (entry : Text × MwccStackRef) : Prop :=
  ∃ base index expr, linePair use = some (base, index) ∧
    latest (linePointer base) before = some expr ∧
    ∃ inst ∈ lineInst (before.length + 1) (parseMwccInstructions before).length
      (parseLines before).block use,
    entry = ((splitStackExpr expr).1, indexedRef inst base index (splitStackExpr expr))

/-- The indexed references by lines. -/
theorem filedAt_lines {lines : List Text} {entry : Text × MwccStackRef} :
    FiledAt (parseMwccInstructions lines) entry ↔
      ∃ before use after, lines = before ++ use :: after ∧ LineFiledBy before use entry := by
  induction lines using List.reverseRecOn with
  | nil => simp [FiledAt, parseMwccInstructions, parseLines]
  | append_singleton lines line ih =>
    rw [exists_split_concat, ← ih, parse_concat, LineFiledBy, linePair, lineInst]
    cases hparse : parseInst line with
    | none => simp
    | some parsed =>
      simp only [FiledAt, exists_split_concat, FiledBy, lastPointer_parse, List.mem_singleton,
        exists_eq_left]

/-! ## Registers and slots -/

/-- The instruction on a line, whether or not it has operands; the registers of an indexed
access stand in parentheses. -/
def lineInsn (line : Text) : Option Insn :=
  (mnemonic line).map fun (op, rest) =>
    let group := (rest.dropWhile isSpace).takeWhile (· ≠ ';')
    ⟨op, (group.splitOn ',').map fun operand => (strip operand).dropWhile (· = '(')⟩

def lineWrites (reg line : Text) : Bool :=
  match gpr reg, lineInsn line with
  | some n, some i => n ∈ writes i
  | _, _ => false

/-- The last line that writes a register points it to a slot. -/
def PointsAt (before : List Text) (reg slot : Text) : Prop :=
  ∃ earlier line later expr, before = earlier ++ line :: later ∧ lineWrites reg line = true ∧
    (∀ x ∈ later, lineWrites reg x = false) ∧ linePointer reg line = some expr ∧
    (splitStackExpr expr).1 = slot

/-- Every indexed reference is filed under the slot that its base points to. -/
def Attributed (lines : List Text) (slots : List MwccStackSlot) : Prop :=
  ∀ slot ∈ slots, ∀ ref ∈ slot.refs, ref.kind = .indexed →
    ∃ reg, ref.baseReg = some reg ∧ PointsAt (lines.take (ref.lineNo - 1)) reg slot.name

/-- A pointer register that is put to another use is pointed again before the next indexed
access through it. -/
def Repointed (lines : List Text) : Prop :=
  ∀ before use after, lines = before ++ use :: after →
    ∀ base index, linePair use = some (base, index) →
    ∀ earlier line later, before = earlier ++ line :: later → lineWrites base line = true →
      linePointer base line = none → (∃ x ∈ earlier, (linePointer base x).isSome = true) →
      ∃ x ∈ later, (linePointer base x).isSome = true

theorem regAt_gpr {t rest reg : Text} (h : regAt t = some (reg, rest)) :
    ∃ n, gpr reg = some n := by
  unfold regAt at h
  split at h
  · split_ifs at h with hdigits
    simp only [Option.some.injEq, Prod.mk.injEq] at h
    obtain ⟨rfl, -⟩ := h
    refine ⟨_, if_pos ⟨hdigits, ?_⟩⟩
    rw [List.all_eq_true]
    intro c hc
    exact List.mem_takeWhile_imp hc
  · cases h

theorem searchPair_gpr {t base index : Text} (h : searchPair t = some (base, index)) :
    ∃ n, gpr base = some n := by
  induction t with
  | nil => cases h
  | cons c rest ih =>
    rw [searchPair] at h
    cases hpair : pairAt (c :: rest) with
    | none =>
      rw [hpair, Option.none_or] at h
      exact ih h
    | some pair =>
      rw [hpair, Option.some_or, Option.some.injEq] at h
      subst h
      unfold pairAt at hpair
      split at hpair
      · split at hpair
        · rename_i hbase
          split at hpair
          · simp only [Option.some.injEq, Prod.mk.injEq] at hpair
            obtain ⟨rfl, rfl⟩ := hpair
            exact regAt_gpr hbase
          · cases hpair
        · cases hpair
      · cases hpair

theorem linePair_gpr {use base index : Text} (h : linePair use = some (base, index)) :
    ∃ n, gpr base = some n := by
  unfold linePair at h
  split at h
  · rw [indexedPair] at h
    split_ifs at h
    exact searchPair_gpr h
  · cases h

theorem parseInst_lineInsn {line op text : Text} {operands : List Text}
    (h : parseInst line = some (op, operands, text)) (hlength : operands.length ≠ 1) :
    lineInsn line = some ⟨op, operands.map fun operand => operand.dropWhile (· = '(')⟩ := by
  simp only [parseInst, Option.bind_eq_bind, Option.bind_eq_some_iff] at h
  obtain ⟨⟨op', rest⟩, hmnemonic, h⟩ := h
  split_ifs at h with hgap hgroup hone
  · simp only [Option.some.injEq, Prod.mk.injEq] at h
    exact absurd (h.2.1 ▸ rfl) hlength
  · simp only [Option.some.injEq, Prod.mk.injEq] at h
    obtain ⟨rfl, rfl, -⟩ := h
    simp [lineInsn, hmnemonic, Function.comp_def]

theorem pointsTo_some {reg op expr : Text} {operands : List Text}
    (h : pointsTo reg op operands = some expr) :
    op = "addi".toList ∧ operands = [reg, stackPointer, expr] := by
  unfold pointsTo pointerTo at h
  split at h
  · rename_i hpointer
    split at hpointer
    · split_ifs at hpointer with haddi
      simp only [Option.some.injEq, Prod.mk.injEq] at hpointer
      obtain ⟨rfl, rfl⟩ := hpointer
      split_ifs at h with hdest
      obtain rfl := Option.some.inj h
      refine ⟨?_, by rw [hdest, haddi.2]⟩
      simpa [anyOf, eq_comm] using haddi.1
    · cases hpointer
  · cases h

theorem writes_addi (operands : List Text) :
    writes ⟨"addi".toList, operands⟩ = (operands[0]?.bind gpr).toList := by
  have hcall : isCall "addi".toList = false := by decide
  have hlmw : anyOf ["lmw"] "addi".toList = false := by decide
  have hlswi : anyOf ["lswi"] "addi".toList = false := by decide
  have hlswx : anyOf ["lswx"] "addi".toList = false := by decide
  have hkeeps : keepsFirst "addi".toList = false := by decide
  have hbase : updatesBase "addi".toList = false := by decide
  have hindexed : updatesIndexed "addi".toList = false := by decide
  simp only [writes, hcall, hlmw, hlswi, hlswx, hkeeps, hbase, hindexed, Insn.first, Bool.false_eq_true,
    ↓reduceIte, List.append_nil]

theorem linePointer_writes {reg line expr : Text} {n : Nat} (hreg : gpr reg = some n)
    (h : linePointer reg line = some expr) : lineWrites reg line = true := by
  unfold linePointer at h
  split at h
  · rename_i op operands text hparse
    obtain ⟨rfl, rfl⟩ := pointsTo_some h
    have hbare : reg.dropWhile (· = '(') = reg := by
      unfold gpr at hreg
      split at hreg
      · rfl
      · cases hreg
    have hinsn := parseInst_lineInsn hparse (by simp)
    rw [List.map_cons, hbare] at hinsn
    simp only [lineWrites, hreg, hinsn, writes_addi]
    simp [hreg]
  · cases h

/-- The last pointer is the last writer, unless the register has been put to another use. -/
theorem pointsAt_of_latest {before : List Text} {base expr : Text} {n : Nat}
    (hreg : gpr base = some n) (hlatest : latest (linePointer base) before = some expr)
    (hfresh : ∀ earlier line later, before = earlier ++ line :: later →
      lineWrites base line = true → linePointer base line = none →
      (∃ x ∈ earlier, (linePointer base x).isSome = true) →
      ∃ x ∈ later, (linePointer base x).isSome = true) :
    PointsAt before base (splitStackExpr expr).1 := by
  obtain ⟨earlier, line, later, rfl, hline, hlater⟩ := latest_eq_some_iff.1 hlatest
  refine ⟨earlier, line, later, expr, rfl, linePointer_writes hreg hline, fun x hx => ?_, hline, rfl⟩
  by_contra hwrites
  obtain ⟨mid, rest, rfl⟩ := List.append_of_mem hx
  obtain ⟨y, hy, hpoints⟩ := hfresh (earlier ++ line :: mid) x rest (by simp)
    (by simpa using hwrites) (hlater x hx) ⟨line, by simp, by simp [hline]⟩
  rw [hlater y (by simp [hy])] at hpoints
  cases hpoints

/-- After another use the last writer can only be a pointer that comes later. -/
theorem pointer_after {before earlier later : List Text} {base slot line : Text}
    (hpoints : PointsAt before base slot) (hsplit : before = earlier ++ line :: later)
    (hwrites : lineWrites base line = true) (hnone : linePointer base line = none) :
    ∃ x ∈ later, (linePointer base x).isSome = true := by
  obtain ⟨earlier', line', later', expr, rfl, -, hquiet, hline', -⟩ := hpoints
  rcases List.append_eq_append_iff.1 hsplit with ⟨mid, rfl, hmid⟩ | ⟨mid, rfl, hmid⟩
  · cases mid with
    | nil =>
      obtain rfl : line' = line := List.head_eq_of_cons_eq hmid
      simp [hnone] at hline'
    | cons c mid =>
      obtain ⟨-, rfl⟩ := List.cons.inj hmid
      have hline := hquiet line (List.mem_append_right mid List.mem_cons_self)
      simp [hwrites] at hline
  · cases mid with
    | nil =>
      obtain rfl : line = line' := List.head_eq_of_cons_eq hmid
      simp [hnone] at hline'
    | cons c mid =>
      obtain ⟨-, rfl⟩ := List.cons.inj hmid
      exact ⟨line', by simp, by simp [hline']⟩

theorem lineInst_lineNo {lineNo index : Nat} {block : Option Text} {line : Text}
    {inst : MwccInstruction} (h : inst ∈ lineInst lineNo index block line) :
    inst.lineNo = lineNo := by
  unfold lineInst at h
  split at h
  · cases h
  · rw [List.mem_singleton.1 h]

theorem linePair_inst {use : Text} {pair : Text × Text} (h : linePair use = some pair)
    (lineNo index : Nat) (block : Option Text) : ∃ inst, inst ∈ lineInst lineNo index block use := by
  unfold linePair at h
  split at h
  · rename_i hparse
    rw [lineInst, hparse]
    exact ⟨_, List.mem_singleton_self _⟩
  · cases h

theorem take_lineNo {before after : List Text} {use base index : Text} {pointer : Text × Option Int}
    {inst : MwccInstruction} {i : Nat} {block : Option Text}
    (h : inst ∈ lineInst (before.length + 1) i block use) :
    (before ++ use :: after).take ((indexedRef inst base index pointer).lineNo - 1) = before := by
  simp [indexedRef, lineInst_lineNo h]

/-- **Slots of indexed accesses.** Every indexed reference of a pass is filed under the slot
its base points to, if and only if pointer registers that are put to another use are pointed
again before they are indexed. -/
theorem analyze_attributed (lines : List Text) (passName : Option Text) :
    Attributed lines (analyzeStackPass lines passName).slots ↔ Repointed lines := by
  have hfiled := (mem_analyze (parseMwccInstructions lines)).refs
  have hrefs : ∀ entry : Text × MwccStackRef, entry.2.kind = .indexed →
      (entry ∈ refsOf (analyzeStackPass lines passName).slots ↔
        ∃ before use after, lines = before ++ use :: after ∧ LineFiledBy before use entry) :=
    fun entry hentry => (hfiled entry hentry).trans filedAt_lines
  have hmem : ∀ entry : Text × MwccStackRef,
      entry ∈ refsOf (analyzeStackPass lines passName).slots ↔
        ∃ slot ∈ (analyzeStackPass lines passName).slots, entry.2 ∈ slot.refs ∧
          slot.name = entry.1 := by
    rintro ⟨name, ref⟩
    simp [refsOf]
  constructor
  · intro h before use after hlines base index hpair earlier line later hsplit hwrites hnone hpointed
    obtain ⟨x, hx, hpoints⟩ := hpointed
    obtain ⟨expr, hexpr⟩ := latest_isSome (show x ∈ before by simp [hsplit, hx]) hpoints
    obtain ⟨inst, hinst⟩ := linePair_inst hpair (before.length + 1)
      (parseMwccInstructions before).length (parseLines before).block
    have hentry := (hrefs ((splitStackExpr expr).1, indexedRef inst base index (splitStackExpr expr))
      rfl).2 ⟨before, use, after, hlines, base, index, expr, hpair, hexpr, inst, hinst, rfl⟩
    obtain ⟨slot, hslot, href, -⟩ := (hmem _).1 hentry
    obtain ⟨reg, hbase, hpoints⟩ := h slot hslot _ href rfl
    obtain rfl : base = reg := Option.some.inj hbase
    rw [hlines, take_lineNo hinst] at hpoints
    exact pointer_after hpoints hsplit hwrites hnone
  · intro h slot hslot ref href hkind
    obtain ⟨before, use, after, rfl, base, index, expr, hpair, hlatest, inst, hinst, hentry⟩ :=
      (hrefs (slot.name, ref) hkind).1 ((hmem _).2 ⟨slot, hslot, href, rfl⟩)
    obtain ⟨hname, rfl⟩ := Prod.mk.inj hentry
    obtain ⟨n, hreg⟩ := linePair_gpr hpair
    refine ⟨base, rfl, ?_⟩
    rw [take_lineNo hinst, hname]
    exact pointsAt_of_latest hreg hlatest (h before use after rfl base index hpair)

/-- The register that pointed to `sp24` holds a loaded word when it is indexed. -/
theorem reused_pointer_misfiled :
    ¬Attributed
      ["    addi    r4,r1,sp24".toList, "    lwz     r4,8(r3)".toList,
        "    lwzx    r5,(r4,r6)".toList]
      (analyzeStackPass ["    addi    r4,r1,sp24".toList, "    lwz     r4,8(r3)".toList,
        "    lwzx    r5,(r4,r6)".toList] none).slots := by
  intro h
  let ref : MwccStackRef :=
    { slot := "sp24".toList, delta := some 0, kind := .indexed, op := "lwzx".toList
      instruction := "lwzx    r5,(r4,r6)".toList, lineNo := 3, block := none, flags := []
      destReg := some "r5".toList, baseReg := some "r4".toList, ptrReg := none
      indexReg := some "r6".toList, conversion := false }
  have href : ∃ slot ∈ (analyzeStackPass ["    addi    r4,r1,sp24".toList,
      "    lwz     r4,8(r3)".toList, "    lwzx    r5,(r4,r6)".toList] none).slots,
      ref ∈ slot.refs := by decide
  obtain ⟨slot, hslot, hmem⟩ := href
  obtain ⟨reg, hreg, hpoints⟩ := h slot hslot ref hmem rfl
  obtain rfl : "r4".toList = reg := Option.some.inj hreg
  have hsplit : ["    addi    r4,r1,sp24".toList, "    lwz     r4,8(r3)".toList] =
      ["    addi    r4,r1,sp24".toList] ++ "    lwz     r4,8(r3)".toList :: [] := rfl
  obtain ⟨x, hx, -⟩ := pointer_after hpoints hsplit (by decide) (by decide)
  cases hx

end MeleeHarness.MwccDump
