import MeleeHarness.Lib.Lines
import MeleeHarness.Lib.Regex
import MeleeHarness.MwccDump.Stack

/-!
# The blocks of a listing

`parse_scheduled_blocks` of `tools/mwcc_diagnose.py` reads the basic blocks that
`mwcc_debug.c` lists.
-/

namespace MeleeHarness.Diagnose

open Lib Regex

structure ScheduledInst where
  block : Text
  blockIndex : Nat
  instIndex : Nat
  blockInstIndex : Nat
  op : Text
  operands : List Text
  text : Text
  deriving DecidableEq, Repr

structure ScheduledBlock where
  name : Text
  index : Nat
  preds : List Text
  succs : List Text
  insts : List ScheduledInst
  deriving DecidableEq, Repr

/-! ## Reading -/

/-- `tag=\{([^}]*)\}` at the start, and what follows. -/
def bracedAt (tag : String) (t : Text) : Option (Text × Text) :=
  let opening := tag.toList ++ ['=', '\x7b']
  if opening.isPrefixOf t then
    let rest := t.drop opening.length
    match rest.dropWhile (· ≠ '\x7d') with
    | '\x7d' :: after => some (rest.takeWhile (· ≠ '\x7d'), after)
    | _ => none
  else none

/-- `\s+` and what follows. -/
def spacesAt (t : Text) : Option Text :=
  if t.head?.any isSpace then some (t.dropWhile isSpace) else none

/-- `B\d+` at the start, and what follows. -/
def blockNameAt (t : Text) : Option (Text × Text) :=
  match t with
  | 'B' :: rest =>
    if rest.takeWhile Char.isDigit = [] then none
    else some ('B' :: rest.takeWhile Char.isDigit, rest.dropWhile Char.isDigit)
  | _ => none

/-- `BLOCK_HEADER_RE`: the name, the successors and the predecessors. -/
def blockHeader (line : Text) : Option (Text × Text × Text) := do
  let (name, rest) ← blockNameAt (line.dropWhile isSpace)
  guard (rest.head? = some ':')
  let (succs, rest) ← bracedAt "Succ" (← spacesAt rest.tail)
  let (preds, _) ← bracedAt "Pred" (← spacesAt rest)
  return (name, succs, preds)

/-- The maximal runs of characters of words. -/
def wordRuns : Text → List Text
  | [] => []
  | c :: cs =>
    if wordChar c then
      match cs with
      | d :: _ =>
        if wordChar d then
          match wordRuns cs with
          | run :: runs => (c :: run) :: runs
          | [] => [[c]]
        else [c] :: wordRuns cs
      | [] => [[c]]
    else wordRuns cs

def isBlockRef (run : Text) : Bool := (blockNameAt run).any fun (_, rest) => rest = []

/-- `\bB\d+\b`: between two boundaries there is a whole run. -/
def parseBlockRefs (t : Text) : List Text := (wordRuns t).filter isBlockRef

/-- The blocks that are complete, the current one and the number of instructions. -/
structure BlockParse where
  done : List ScheduledBlock
  current : Option ScheduledBlock
  instIndex : Nat

def BlockParse.blocks (p : BlockParse) : List ScheduledBlock := p.done ++ p.current.toList

def ScheduledBlock.addInst (b : ScheduledBlock) (instIndex : Nat) (op : Text) (operands : List Text)
    (text : Text) : ScheduledBlock :=
  { b with insts := b.insts ++ [⟨b.name, b.index, instIndex, b.insts.length, op, operands, text⟩] }

def parseBlockLine (p : BlockParse) (raw : Text) : BlockParse :=
  match blockHeader raw with
  | some (name, succs, preds) =>
    { p with
      done := p.blocks
      current := some ⟨name, p.blocks.length, parseBlockRefs preds, parseBlockRefs succs, []⟩ }
  | none =>
    match p.current with
    | none => p
    | some current =>
      match MwccDump.parseInst raw with
      | none => p
      | some (op, operands, text) =>
        { p with current := current.addInst p.instIndex op operands text, instIndex := p.instIndex + 1 }

def parseScheduledBlocks (lines : List Text) : List ScheduledBlock :=
  (lines.foldl parseBlockLine ⟨[], none, 0⟩).blocks

/-! ## Listing -/

/-- An instruction and what `formatoperands` writes for it. -/
structure PCode where
  op : Int
  operands : Text
  deriving DecidableEq, Repr

/-- A link to a block is the index of the block, or null. -/
structure PCodeBlock where
  flags : Nat
  loopWeight : Int
  blockIndex : Int
  successors : List (Option Int)
  predecessors : List (Option Int)
  labels : List Nat
  pcodes : List PCode
  deriving DecidableEq, Repr

def opcodes : List String :=
  ["b", "bl", "bc", "bclr", "bcctr", "bt", "btlr", "btctr", "bf", "bflr",
    "bfctr", "bdnz", "bdnzt", "bdnzf", "bdz", "bdzt", "bdzf", "blr", "bctr", "bctrl",
    "blrl", "lbz", "lbzu", "lbzx", "lbzux", "lhz", "lhzu", "lhzx", "lhzux", "lha",
    "lhau", "lhax", "lhaux", "lhbrx", "lwz", "lwzu", "lwzx", "lwzux", "lwbrx", "lmw",
    "stb", "stbu", "stbx", "stbux", "sth", "sthu", "sthx", "sthux", "sthbrx", "stw",
    "stwu", "stwx", "stwux", "stwbrx", "stmw", "dcbf", "dcbst", "dcbt", "dcbtst", "dcbz",
    "add", "addc", "adde", "addi", "addic", "addic.", "addis", "addme", "addze", "divw",
    "divwu", "mulhw", "mulhwu", "mulli", "mullw", "neg", "subf", "subfc", "subfe", "subfic",
    "subfme", "subfze", "cmpi", "cmp", "cmpli", "cmpl", "andi.", "andis.", "ori", "oris",
    "xori", "xoris", "and", "or", "xor", "nand", "nor", "eqv", "andc", "orc",
    "extsb", "extsh", "cntlzw", "rlwinm", "rlwnm", "rlwimi", "slw", "srw", "srawi", "sraw",
    "crand", "crandc", "creqv", "crnand", "crnor", "cror", "crorc", "crxor", "mcrf",
    "mtxer", "mtctr", "mtlr", "mtcrf", "mtmsr", "mtspr", "mfmsr", "mfspr", "mfxer", "mfctr",
    "mflr", "mfcr", "mffs", "mtfsf", "eieio", "isync", "sync", "rfi",
    "li", "lis", "mr", "nop", "not", "lfs", "lfsu", "lfsx", "lfsux",
    "lfd", "lfdu", "lfdx", "lfdux", "stfs", "stfsu", "stfsx", "stfsux",
    "stfd", "stfdu", "stfdx", "stfdux", "fmr", "fabs", "fneg", "fnabs",
    "fadd", "fadds", "fsub", "fsubs", "fmul", "fmuls", "fdiv", "fdivs",
    "fmadd", "fmadds", "fmsub", "fmsubs", "fnmadd", "fnmadds", "fnmsub", "fnmsubs",
    "fres", "frsqrte", "fsel", "frsp", "fctiw", "fctiwz", "fcmpu", "fcmpo",
    "lwarx", "lswi", "lswx", "stfiwx", "stswi", "stswx", "stwcx",
    "eciwx", "ecowx", "dcbi", "icbi", "mcrfs", "mcrxr", "mftb",
    "mfsr", "mtsr", "mfsrin", "mtsrin", "mtfsb0", "mtfsb1", "mtfsfi", "sc",
    "fsqrt", "fsqrts", "tlbia", "tlbie", "tlbld", "tlbli", "tlbsync",
    "tw", "trap", "twi", "opword", "mfrom", "dsa", "esa"]

def PCode.name (p : PCode) : Option Text :=
  if p.op < 0 then none else opcodes[p.op.toNat]?.map String.toList

/-- `%d` -/
def printInt (n : Int) : Text := if n < 0 then '-' :: Nat.toDigits 10 n.natAbs else Nat.toDigits 10 n.natAbs

/-- `%04x` -/
def hex4 (n : Nat) : Text := List.replicate (4 - (hex n).length) '0' ++ hex n

def blockName (index : Int) : Text := 'B' :: printInt index

/-- The line of an instruction. `%x` prints a negative number as a 32-bit one. -/
def PCode.line (p : PCode) : Text :=
  match p.name with
  | some name => "    ".toList ++ padRight 7 name ++ ' ' :: p.operands
  | none => "    op=0x".toList ++ hex (p.op % 2 ^ 32).toNat ++ ' ' :: p.operands

def listLinks (links : List (Option Int)) : Text :=
  (links.filterMap id).flatMap fun index => blockName index ++ [' ']

def PCodeBlock.weightLine (b : PCodeBlock) : Text :=
  ":\x7b".toList ++ hex4 b.flags ++ "\x7d::::LOOPWEIGHT=".toList ++ printInt b.loopWeight

def PCodeBlock.listLabels (b : PCodeBlock) : Text :=
  if b.labels = [] then []
  else "\x7d Labels=\x7b".toList ++ b.labels.flatMap fun label => 'L' :: Nat.toDigits 10 label ++ [' ']

def PCodeBlock.headerLine (b : PCodeBlock) : Text :=
  blockName b.blockIndex ++ ": Succ=\x7b".toList ++ listLinks b.successors ++ "\x7d Pred=\x7b".toList ++
    listLinks b.predecessors ++ b.listLabels ++ ['\x7d']

def PCodeBlock.lines (b : PCodeBlock) : List Text :=
  [b.weightLine, b.headerLine, []] ++ b.pcodes.map PCode.line

/-- `list_block`: each line with its newline. -/
def listBlock (b : PCodeBlock) : Text := b.lines.flatMap (· ++ ['\n'])

end MeleeHarness.Diagnose
