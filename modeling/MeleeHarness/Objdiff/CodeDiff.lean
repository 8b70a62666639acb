import MeleeHarness.Objdiff.Object

/-!
# Diffing one function against another

`objdiff-core/src/diff/code.rs`: `diff_code` aligns two instruction lists by
opcode, compares the aligned rows and adds up a penalty; `no_diff_code` lists a
function that has nothing to be compared with.
-/

namespace MeleeHarness.Objdiff

open Lib

inductive FunctionRelocDiffs where
  | none | nameAddress | dataValue | all
  deriving DecidableEq, Repr

/-- The configuration that diffing and display read. -/
structure DiffObjConfig where
  functionRelocDiffs : FunctionRelocDiffs := .nameAddress
  spaceBetweenArgs : Bool := true
  showDataFlow : Bool := false

inductive InstructionDiffKind where
  | none | opMismatch | argMismatch | replace | delete | insert
  deriving DecidableEq, Repr

structure InstructionBranchFrom where
  insIdx : List Nat
  branchIdx : Nat
  deriving DecidableEq, Repr

structure InstructionBranchTo where
  insIdx : Nat
  branchIdx : Nat
  deriving DecidableEq, Repr

/-- Index of an argument difference, for coloring; `none` where the arguments agree. -/
abbrev InstructionArgDiffIndex := Option Nat

structure InstructionDiffRow where
  insRef : Option InstructionRef := none
  kind : InstructionDiffKind := .none
  branchFrom : Option InstructionBranchFrom := none
  branchTo : Option InstructionBranchTo := none
  argDiff : List InstructionArgDiffIndex := []
  deriving DecidableEq, Repr

/-- The percentage is the rational before it is rounded to `f32`. -/
structure SymbolDiff where
  targetSymbol : Option Nat := none
  matchPercent : Option Rat := none
  diffScore : Option (Nat × Nat) := none
  instructionRows : List InstructionDiffRow := []

/-- An operation of `similar::capture_diff_slices`. -/
inductive DiffOp where
  | equal (oldIndex newIndex len : Nat)
  | delete (oldIndex oldLen newIndex : Nat)
  | insert (oldIndex newIndex newLen : Nat)
  | replace (oldIndex oldLen newIndex newLen : Nat)

/-- `as_tag_tuple`: start and length of the old and the new range. -/
def DiffOp.ranges : DiffOp → (Nat × Nat) × (Nat × Nat)
  | .equal i j n => ((i, n), (j, n))
  | .delete i n j => ((i, n), (j, 0))
  | .insert i j n => ((i, 0), (j, n))
  | .replace i n j m => ((i, n), (j, m))

/-- The patience diff of two opcode lists, from a third-party crate. -/
abbrev CaptureDiffSlices := List Nat → List Nat → List DiffOp

def outOfBounds (symbol : Symbol) : String :=
  String.ofList ("Symbol data out of bounds: 0x".toList ++ hex symbol.address ++ "..0x".toList ++
    hex (symbol.address + symbol.size))

structure CodeSymbol where
  symbol : Symbol
  sectionIndex : Nat
  «section» : Section

def codeSymbol (obj : Object) (symbolIndex : Nat) : Except String CodeSymbol := do
  let some symbol := obj.symbols[symbolIndex]? | throw "index out of bounds"
  let some sectionIndex := symbol.sectionIndex | throw "Missing section for symbol"
  let some «section» := obj.sections[sectionIndex]? | throw "Missing section for symbol"
  return { symbol, sectionIndex, «section» }

def CodeSymbol.data (c : CodeSymbol) : Except String Bytes :=
  match c.section.dataRange c.symbol.address c.symbol.size with
  | some data => .ok data
  | none => .error (outOfBounds c.symbol)

def CodeSymbol.ops (c : CodeSymbol) (obj : Object) (data : Bytes) :
    Except String (List InstructionRef) :=
  obj.scanInstructions c.symbol c.sectionIndex c.section data

/-- The instructions of a symbol. -/
def functionOps (obj : Object) (symbolIndex : Nat) : Except String (List InstructionRef) := do
  let c ← codeSymbol obj symbolIndex
  c.ops obj (← c.data)

/-! ## Alignment -/

def insRow (ins : InstructionRef) : InstructionDiffRow := { insRef := some ins }

/-- The rows of one range, padded to `len`. -/
def rangeRows (insts : List InstructionRef) (range : Nat × Nat) (len : Nat) :
    Except String (List InstructionDiffRow) := do
  let rows ← (List.range range.2).mapM fun k =>
    match insts[range.1 + k]? with
    | some ins => pure (insRow ins)
    | none => throw "index out of bounds"
  return rows ++ List.replicate (len - range.2) { insRef := none }

def opRows (left right : List InstructionRef) :
    List DiffOp → Except String (List InstructionDiffRow × List InstructionDiffRow)
  | [] => return ([], [])
  | op :: ops => do
    let (l, r) := op.ranges
    let leftRows ← rangeRows left l (max l.2 r.2)
    let rightRows ← rangeRows right r (max l.2 r.2)
    let (ls, rs) ← opRows left right ops
    return (leftRows ++ ls, rightRows ++ rs)

def diffInstructions (captureDiffSlices : CaptureDiffSlices) (left right : List InstructionRef) :
    Except String (List InstructionDiffRow × List InstructionDiffRow) :=
  let ops := captureDiffSlices (left.map (·.opcode)) (right.map (·.opcode))
  if ops.isEmpty then
    if left.length = right.length then .ok (left.map insRow, right.map insRow)
    else .error "Condition failed: `left_insts.len() == right_insts.len()`"
  else opRows left right ops

/-! ## Branches -/

/-- Instruction address to row index; a later row of the same address wins. -/
def addrMap (rows : List InstructionDiffRow) : List (Nat × Nat) :=
  (rows.zipIdx.filterMap fun (row, i) => row.insRef.map fun ins => (ins.address, i)).reverse

structure BranchState where
  rows : List InstructionDiffRow
  branches : List (Nat × InstructionBranchFrom) := []
  branchIdx : Nat := 0

/-- Give row `i` its arrow to row `insIdx`, numbering each destination once. -/
def BranchState.add (s : BranchState) (i insIdx : Nat) : BranchState :=
  match s.branches.lookup insIdx with
  | none =>
    { rows := s.rows.modify i fun row => { row with branchTo := some ⟨insIdx, s.branchIdx⟩ }
      branches := s.branches ++ [(insIdx, ⟨[i], s.branchIdx⟩)]
      branchIdx := s.branchIdx + 1 }
  | some branch =>
    { s with
      rows := s.rows.modify i fun row => { row with branchTo := some ⟨insIdx, branch.branchIdx⟩ }
      branches := s.branches.map fun (k, b) =>
        if k = insIdx then (k, { b with insIdx := b.insIdx ++ [i] }) else (k, b) }

def BranchState.next (map : List (Nat × Nat)) (s : BranchState) (i : Nat) (ins : InstructionRef) :
    BranchState :=
  match ins.branchDest.bind fun dest => map.lookup dest with
  | none => s
  | some insIdx => s.add i insIdx

def resolveBranches (ops : List InstructionRef) (rows : List InstructionDiffRow) :
    List InstructionDiffRow :=
  let map := addrMap rows
  let sources := (rows.zipIdx.filter fun (row, _) => row.insRef.isSome).map (·.2)
  let s := (sources.zip ops).foldl (fun (s : BranchState) (i, ins) => s.next map i ins) { rows }
  s.branches.foldl (fun rows (i, branch) =>
    rows.modify i fun row => { row with branchFrom := some branch }) s.rows

/-! ## Arguments -/

def argToString (arg : InstructionArg) (reloc : Option ResolvedRelocation) : String :=
  match arg with
  | .value v => String.ofList v.toText
  | .reloc => (reloc.map fun r => r.symbol.name).getD "<unknown>"
  | .branchDest dest => toString dest

def addressEq (left right : ResolvedRelocation) : Bool :=
  if right.symbol.size = 0 ∧ left.symbol.size ≠ 0 then
    (left.symbol.address : Int) + left.relocation.addend ==
      (right.symbol.address : Int) + right.relocation.addend
  else
    left.symbol.address == right.symbol.address &&
      left.relocation.addend == right.relocation.addend

def sectionNameEq (leftObj rightObj : Object) (left right : Nat) : Bool :=
  match leftObj.sections[left]?, rightObj.sections[right]? with
  | some l, some r => l.name == r.name
  | _, _ => false

def relocEq (leftObj rightObj : Object) (left right : ResolvedInstructionRef)
    (config : DiffObjConfig) : Bool :=
  let relax := config.functionRelocDiffs == .none
  match left.relocation, right.relocation with
  | none, none => true
  | none, some _ => relax
  | some _, none => false
  | some l, some r =>
    if l.relocation.flags ≠ r.relocation.flags then false
    else if relax then true
    else
      let nameAddend := l.symbol.name == r.symbol.name && l.relocation.addend == r.relocation.addend
      match l.symbol.sectionIndex, r.symbol.sectionIndex with
      | some sl, some sr =>
        sectionNameEq leftObj rightObj sl sr &&
          (config.functionRelocDiffs == .dataValue || nameAddend || addressEq l r) &&
          (config.functionRelocDiffs == .nameAddress || l.symbol.kind != .object ||
            r.symbol.size == 0 ||
            leftObj.insDataLiterals left == rightObj.insDataLiterals right)
      | _, _ => nameAddend

def argEq (leftObj rightObj : Object) (leftRow rightRow : InstructionDiffRow)
    (left right : ResolvedInstructionRef) (config : DiffObjConfig)
    (leftArg rightArg : InstructionArg) : Bool :=
  match leftArg, rightArg with
  | .value l, .value r => l.looseEq r
  | .value _, .reloc => config.functionRelocDiffs == .none
  | .reloc, .reloc => relocEq leftObj rightObj left right config
  | .branchDest _, .branchDest _ =>
    leftRow.branchTo.map (·.insIdx) == rightRow.branchTo.map (·.insIdx)
  | .branchDest _, .reloc => config.functionRelocDiffs == .none
  | _, _ => false

/-- A signed or unsigned number. -/
def InstructionArg.isNumeric : InstructionArg → Bool
  | .value (.signed _) => true
  | .value (.unsigned _) => true
  | _ => false

def penaltyImmDiff : Nat := 1
def penaltyRegDiff : Nat := 5
def penaltyReplace : Nat := 60
def penaltyInsertDelete : Nat := 100

/-- First-seen numbering of argument texts on one side. -/
structure ArgIndex where
  next : Nat := 0
  map : List (String × Nat) := []

def ArgIndex.entry (s : ArgIndex) (key : String) : Nat × ArgIndex :=
  match s.map.lookup key with
  | some idx => (idx, s)
  | none => (s.next, { next := s.next + 1, map := (key, s.next) :: s.map })

structure InstructionDiffState where
  diffScore : Nat := 0
  leftArgs : ArgIndex := {}
  rightArgs : ArgIndex := {}

structure InstructionDiffResult where
  kind : InstructionDiffKind
  leftArgsDiff : List InstructionArgDiffIndex := []
  rightArgsDiff : List InstructionArgDiffIndex := []

abbrev RowState := InstructionDiffResult × InstructionDiffState

/-- One pair of arguments of two instructions that are compared in detail. -/
def diffArg (eq : InstructionArg → InstructionArg → Bool)
    (left right : ResolvedInstructionRef) (s : RowState) (args : InstructionArg × InstructionArg) :
    RowState :=
  let (a, b) := args
  let (result, state) := s
  if eq a b then
    ({ result with
        leftArgsDiff := result.leftArgsDiff ++ [none]
        rightArgsDiff := result.rightArgsDiff ++ [none] }, state)
  else
    let (aDiff, leftArgs) := state.leftArgs.entry (argToString a left.relocation)
    let (bDiff, rightArgs) := state.rightArgs.entry (argToString b right.relocation)
    ({ kind := if result.kind = .none then .argMismatch else result.kind
       leftArgsDiff := result.leftArgsDiff ++ [some aDiff]
       rightArgsDiff := result.rightArgsDiff ++ [some bDiff] },
      { diffScore := state.diffScore + if a.isNumeric then penaltyImmDiff else penaltyRegDiff
        leftArgs, rightArgs })

def addPenalty (s : InstructionDiffState) (n : Nat) : InstructionDiffState :=
  { s with diffScore := s.diffScore + n }

def diffMnemonic (leftIns rightIns : ParsedInstruction) (state : InstructionDiffState) : RowState :=
  if leftIns.mnemonic = rightIns.mnemonic then ({ kind := .none }, state)
  else ({ kind := .opMismatch }, addPenalty state penaltyRegDiff)

/-- The result for two parsed instructions with equally many arguments. -/
def diffParsed (eq : InstructionArg → InstructionArg → Bool)
    (left right : ResolvedInstructionRef) (leftIns rightIns : ParsedInstruction)
    (state : InstructionDiffState) : RowState :=
  let (result, state) := (leftIns.args.zip rightIns.args).foldl (diffArg eq left right)
    (diffMnemonic leftIns rightIns state)
  if result.kind = .none ∧ left.code.length ≠ right.code.length then
    ({ result with kind := .opMismatch }, addPenalty state penaltyRegDiff)
  else (result, state)

structure DiffPair where
  leftObj : Object
  rightObj : Object
  leftSymbolIdx : Nat
  rightSymbolIdx : Nat
  config : DiffObjConfig

def diffInstruction (p : DiffPair) (leftRow rightRow : InstructionDiffRow)
    (state : InstructionDiffState) : Except String RowState :=
  match leftRow.insRef, rightRow.insRef with
  | none, none => .ok ({ kind := .none }, state)
  | some _, none => .ok ({ kind := .delete }, addPenalty state penaltyInsertDelete)
  | none, some _ => .ok ({ kind := .insert }, addPenalty state penaltyInsertDelete)
  | some l, some r =>
    if l.opcode ≠ r.opcode then .ok ({ kind := .replace }, addPenalty state penaltyReplace)
    else do
      let some left := p.leftObj.resolveInstructionRef p.leftSymbolIdx l
        | throw "Failed to resolve left instruction"
      let some right := p.rightObj.resolveInstructionRef p.rightSymbolIdx r
        | throw "Failed to resolve right instruction"
      if left.code = right.code ∧ relocEq p.leftObj p.rightObj left right p.config then
        return ({ kind := .none }, state)
      else
        let leftIns ← p.leftObj.processInstruction left
        let rightIns ← p.rightObj.processInstruction right
        if leftIns.args.length ≠ rightIns.args.length then
          return ({ kind := .replace }, addPenalty state penaltyReplace)
        else
          return diffParsed (argEq p.leftObj p.rightObj leftRow rightRow left right p.config)
            left right leftIns rightIns state

/-- Compare the aligned rows in order; both rows of a pair get the same kind. -/
def diffRows (p : DiffPair) : List InstructionDiffRow → List InstructionDiffRow →
    InstructionDiffState →
    Except String (List InstructionDiffRow × List InstructionDiffRow × InstructionDiffState)
  | l :: ls, r :: rs, state => do
    let (result, state) ← diffInstruction p l r state
    let (ls, rs, state) ← diffRows p ls rs state
    return ({ l with kind := result.kind, argDiff := result.leftArgsDiff } :: ls,
      { r with kind := result.kind, argDiff := result.rightArgsDiff } :: rs, state)
  | ls, rs, state => return (ls, rs, state)

def diffCode (captureDiffSlices : CaptureDiffSlices) (p : DiffPair) :
    Except String (SymbolDiff × SymbolDiff) := do
  let left ← codeSymbol p.leftObj p.leftSymbolIdx
  let right ← codeSymbol p.rightObj p.rightSymbolIdx
  let leftData ← left.data
  let rightData ← right.data
  let leftOps ← left.ops p.leftObj leftData
  let rightOps ← right.ops p.rightObj rightData
  let (leftRows, rightRows) ← diffInstructions captureDiffSlices leftOps rightOps
  let (leftRows, rightRows, state) ← diffRows p (resolveBranches leftOps leftRows)
    (resolveBranches rightOps rightRows) {}
  let maxScore := leftOps.length * penaltyInsertDelete
  let diffScore := min state.diffScore maxScore
  let matchPercent : Rat := if maxScore = 0 then 100 else (1 - (diffScore : Rat) / maxScore) * 100
  let diff (target : Nat) (rows : List InstructionDiffRow) : SymbolDiff :=
    { targetSymbol := some target, matchPercent := some matchPercent
      diffScore := some (diffScore, maxScore), instructionRows := rows }
  return (diff p.rightSymbolIdx leftRows, diff p.leftSymbolIdx rightRows)

def noDiffCode (obj : Object) (symbolIndex : Nat) : Except String SymbolDiff := do
  let ops ← functionOps obj symbolIndex
  return { instructionRows := resolveBranches ops (ops.map insRow) }

end MeleeHarness.Objdiff
