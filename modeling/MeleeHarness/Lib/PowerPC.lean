import MeleeHarness.Lib.Text
import Mathlib.Data.BitVec

/-!
# PowerPC instructions in a listing

An instruction is its mnemonic and the text of its operands. What it does is given as far
as general registers and memory accesses go: which registers it may write, what moves,
additions of immediates and updates of a base put in them, and which bytes an access takes.
-/

namespace MeleeHarness.Lib.PowerPC

structure Insn where
  op : Text
  operands : List Text
  deriving DecidableEq, Repr

/-! ## Operands -/

def numeral (t : Text) : Option Nat :=
  if t ≠ [] ∧ t.all Char.isDigit then some (Nat.ofDigitChars 10 t 0) else none

/-- The general register `rN`. -/
def gpr : Text → Option Nat
  | 'r' :: digits => numeral digits
  | _ => none

/-- A displacement and its base, `expr(rN)`. -/
def based (t : Text) : Option (Text × Nat) :=
  match t.dropWhile (· ≠ '(') with
  | '(' :: inner =>
    match inner.reverse with
    | ')' :: reg => (gpr reg.reverse).map (t.takeWhile (· ≠ '('), ·)
    | _ => none
  | _ => none

def magnitude (t : Text) : Option Int :=
  match t with
  | '0' :: 'x' :: _ | '0' :: 'X' :: _ => intBase16 t
  | _ => intBase10 t

/-- The quantisation register `qrN`. -/
def quantReg : Text → Option Nat
  | 'q' :: 'r' :: digits => numeral digits
  | _ => none

/-- A number, decimal or with `0x`; commas behind it do not count. -/
def parseImm (t : Text) : Option Int :=
  match (strip t).rdropWhile (· = ',') with
  | '-' :: rest => (magnitude rest).map fun n => -n
  | rest => magnitude rest

/-! ## Registers that are written -/

def anyOf (names : List String) (op : Text) : Bool := names.any fun name => name.toList = op

def startsWith (starts : List String) (op : Text) : Bool :=
  starts.any fun start => start.toList.isPrefixOf op

/-- A branch that comes back. -/
def isCall (op : Text) : Bool :=
  op.head? = some 'b' && (op.getLast? = some 'l' || "la".toList.isSuffixOf op) &&
    !anyOf ["bnl", "bnla"] op

/-- The registers that a function may leave changed. -/
def volatile : List Nat := 0 :: List.range' 3 10

/-- The first operand is a source or a floating-point register, not a general one that is
written. -/
def keepsFirst (op : Text) : Bool :=
  startsWith ["st", "lf", "psq_", "cmp", "tw", "mt", "dcb", "icb", "tlb", "ecowx", "b"] op

/-- The base of a displacement is updated. -/
def updatesBase (op : Text) : Bool :=
  anyOf ["lbzu", "lhzu", "lhau", "lwzu", "lfsu", "lfdu", "stbu", "sthu", "stwu", "stfsu", "stfdu",
    "psq_lu", "psq_stu"] op

/-- The second operand, the base of an indexed access, is updated. -/
def updatesIndexed (op : Text) : Bool :=
  anyOf ["lbzux", "lhzux", "lhaux", "lwzux", "lfsux", "lfdux", "stbux", "sthux", "stwux", "stfsux",
    "stfdux", "psq_lux", "psq_stux"] op

def Insn.first (i : Insn) : Option Nat := i.operands[0]?.bind gpr

def Insn.second (i : Insn) : Option Nat := i.operands[1]?.bind gpr

def Insn.memory (i : Insn) : Option (Text × Nat) := i.operands[1]?.bind based

/-- The registers that a string of `n` bytes fills: four bytes in each, and register 0 comes
after 31. No bytes stand for 32. -/
def stringRegs (d n : Nat) : List Nat :=
  (List.range (((if n = 0 then 32 else n) + 3) / 4)).map fun k => (d + k) % 32

/-- The general registers that an instruction may write. How many `lswx` fills is only known
when it runs. -/
def writes (i : Insn) : List Nat :=
  if isCall i.op then volatile
  else if anyOf ["lmw"] i.op then (i.first.map fun d => List.range' d (32 - d)).getD []
  else if anyOf ["lswi"] i.op then
    match i.first, i.operands[2]?.bind parseImm with
    | some d, some n => stringRegs d n.toNat
    | _, _ => List.range 32
  else if anyOf ["lswx"] i.op then List.range 32
  else
    (if keepsFirst i.op then [] else i.first.toList) ++
    (if updatesBase i.op then (i.memory.map Prod.snd).toList else []) ++
    (if updatesIndexed i.op then i.second.toList else [])

/-! ## What is computed -/

abbrev Regs := Nat → BitVec 32

/-- The registers, the accesses that have been made, with their addresses and sizes, and the
quantisation registers. -/
structure State where
  regs : Regs
  touched : List (BitVec 32 × Nat)
  gqr : Nat → BitVec 32

/-- As a base, register 0 stands for zero. -/
def State.base (s : State) (a : Nat) : BitVec 32 := if a = 0 then 0 else s.regs a

def State.address (s : State) (a : Nat) (d : Int) : BitVec 32 := s.base a + BitVec.ofInt 32 d

/-! ## What an access takes -/

/-- A lane or two of a pair, converted as a quantisation register says. -/
def quantised (op : Text) : Bool := anyOf ["psq_l", "psq_lu", "psq_st", "psq_stu"] op

/-- The bytes that an access by displacement takes whatever the state is. -/
def fixedWidth (op : Text) : Option Nat :=
  if anyOf ["lbz", "lbzu", "stb", "stbu"] op then some 1
  else if anyOf ["lhz", "lhzu", "lha", "lhau", "sth", "sthu"] op then some 2
  else if anyOf ["lwz", "lwzu", "stw", "stwu", "lfs", "lfsu", "stfs", "stfsu"] op then some 4
  else if anyOf ["lfd", "lfdu", "stfd", "stfdu"] op then some 8
  else none

/-- The type that a quantisation register gives for loads, or for stores. -/
def laneType (load : Bool) (gqr : BitVec 32) : Nat :=
  (if load then gqr.toNat / 0x10000 else gqr.toNat) % 8

/-- A float, an integer of eight bits or one of sixteen; the other types are reserved. -/
def laneSize : Nat → Option Nat
  | 0 => some 4
  | 4 | 6 => some 1
  | 5 | 7 => some 2
  | _ => none

/-- Two lanes, or one where the third operand is not 0. -/
def quantisedWidth (s : State) (i : Insn) : Option Nat := do
  let single ← i.operands[2]?.bind parseImm
  let register ← i.operands[3]?.bind quantReg
  let lane ← laneSize (laneType (startsWith ["psq_l"] i.op) (s.gqr register))
  return if single = 0 then 2 * lane else lane

/-- The bytes that an access by displacement takes. -/
def width (s : State) (i : Insn) : Option Nat :=
  if quantised i.op then quantisedWidth s i else fixedWidth i.op

/-! ## Steps -/

/-- What is added: `subi` takes away, and only the carrying forms read register 0. -/
def addend (s : State) (op : Text) (a : Nat) (n : Int) : Option (BitVec 32) :=
  if anyOf ["addi"] op then some (s.address a n)
  else if anyOf ["subi"] op then some (s.address a (-n))
  else if anyOf ["addic", "addic."] op then some (s.regs a + BitVec.ofInt 32 n)
  else none

/-- An instruction takes one state to another. -/
structure Exec (i : Insn) (s s' : State) : Prop where
  frame : ∀ r, r ∉ writes i → s'.regs r = s.regs r
  past : ∀ access ∈ s.touched, access ∈ s'.touched
  move : ∀ d a, i.op = "mr".toList → i.operands.map gpr = [some d, some a] → s'.regs d = s.regs a
  sum : ∀ d a x y z n v, i.operands = [x, y, z] → gpr x = some d → gpr y = some a →
    parseImm z = some n → addend s i.op a n = some v → s'.regs d = v
  access : ∀ w expr a n, width s i = some w → i.memory = some (expr, a) → parseImm expr = some n →
    (s.address a n, w) ∈ s'.touched
  update : ∀ expr a n, updatesBase i.op = true → i.memory = some (expr, a) →
    parseImm expr = some n → (keepsFirst i.op = false → i.first ≠ some a) →
    s'.regs a = s.address a n

/-- Instructions one after another. -/
inductive Runs : List Insn → State → State → Prop
  | nil {s : State} : Runs [] s s
  | cons {i : Insn} {rest : List Insn} {s s' s'' : State} : Exec i s s' → Runs rest s' s'' →
      Runs (i :: rest) s s''

end MeleeHarness.Lib.PowerPC
