import MeleeHarness.Objdiff.Object

/-!
# PowerPC

The architecture `objdiff-core/src/arch/ppc/mod.rs` hands to the rest of objdiff,
over the decoder of the third-party `powerpc` crate (`PpcDecoder`). Only ELF
relocations are named; COFF ones take the last branch of each match.
-/

namespace MeleeHarness.Objdiff

open Lib

/-- `powerpc::Argument`, as far as displaying an instruction distinguishes it. -/
inductive PpcArgument where
  | simm (v : Int)
  | uimm (v : Nat)
  | offset (v : Int)
  | branchDest (v : Int)
  | gpr (n : Nat)
  | other (text : String)
  deriving DecidableEq

/-- Opcode of a word, branch destination at an address, and the mnemonic and
arguments of the simplified instruction. -/
structure PpcDecoder where
  op : Nat → Nat
  branchDest : Nat → Nat → Option Nat
  parse : Nat → Nat → String × List PpcArgument
  dataLiterals : ResolvedInstructionRef → Bytes → List Literal := fun _ _ => []

def rPpcNone : Nat := 0
def rPpcAddr16Lo : Nat := 4
def rPpcAddr16Hi : Nat := 5
def rPpcAddr16Ha : Nat := 6
def rPpcRel24 : Nat := 10
def rPpcRel14 : Nat := 11
def rPpc64Toc16 : Nat := 47
def rPpcEmbSda21 : Nat := 109

def beWord (bytes : Bytes) : Nat := bytes.foldl (fun n b => n * 256 + b.toNat) 0

/-- Words of four bytes, with their addresses. -/
def ppcWords (address : Nat) : Bytes → List (Nat × Nat)
  | a :: b :: c :: d :: rest => (address, beWord [a, b, c, d]) :: ppcWords (address + 4) rest
  | _ => []

def isRelativeArg : PpcArgument → Bool
  | .simm _ | .offset _ | .branchDest _ => true
  | _ => false

def isRelAbsArg : PpcArgument → Bool
  | .uimm _ | .simm _ | .offset _ => true
  | _ => false

def isOffsetArg : PpcArgument → Bool
  | .offset _ => true
  | _ => false

/-- `Iterator::rposition`. -/
def rposition (p : PpcArgument → Bool) (args : List PpcArgument) : Option Nat :=
  (args.zipIdx.reverse.find? fun (a, _) => p a).map (·.2)

def elfType : RelocationFlags → Option Nat
  | .elf type => some type
  | .coff _ => none

def zeroReloc (code : Nat) (flags : RelocationFlags) : Nat :=
  match elfType flags with
  | none => code
  | some type =>
    if type = rPpcEmbSda21 then code / 0x200000 * 0x200000
    else if type = rPpcRel24 then code / 0x4000000 * 0x4000000 + code % 4
    else if type = rPpcRel14 then code / 0x10000 * 0x10000 + code % 4
    else if type = rPpcAddr16Hi ∨ type = rPpcAddr16Ha ∨ type = rPpcAddr16Lo then
      code / 0x10000 * 0x10000
    else code

def findRelocArg (args : List PpcArgument) (reloc : Option ResolvedRelocation) : Option Nat := do
  let r ← reloc
  let type ← elfType r.relocation.flags
  if type = rPpcEmbSda21 then some 1
  else if type = rPpcRel24 ∨ type = rPpcRel14 then rposition isRelativeArg args
  else if type = rPpcAddr16Hi ∨ type = rPpcAddr16Ha ∨ type = rPpcAddr16Lo then
    rposition isRelAbsArg args
  else if type = rPpc64Toc16 then rposition isOffsetArg args
  else none

def displayReloc (flags : RelocationFlags) : List InstructionPart :=
  let reloc : InstructionPart := .arg .reloc
  let type := elfType flags
  if type = some rPpcAddr16Lo then [reloc, .basic "@l".toList]
  else if type = some rPpcAddr16Hi then [reloc, .basic "@h".toList]
  else if type = some rPpcAddr16Ha then [reloc, .basic "@ha".toList]
  else if type = some rPpcEmbSda21 then [reloc, .basic "@sda21".toList]
  else if type = some rPpcNone then [.basic "<".toList, reloc, .basic ">".toList]
  else [reloc]

def displayArgument (address : Nat) : PpcArgument → InstructionArg
  | .simm v => .value (.signed (Int64.ofInt v))
  | .uimm v => .value (.unsigned (UInt64.ofNat v))
  | .offset v => .value (.signed (Int64.ofInt v))
  | .branchDest v => .branchDest (((address : Int) + v) % 2 ^ 32).toNat
  | .gpr n => .value (.opaqueText ("r" ++ toString n))
  | .other text => .value (.opaqueText text)

/-- The arguments from index `idx` on; `writingOffset` is set between an offset
and the register in parentheses behind it. -/
def displayArgs (resolved : ResolvedInstructionRef) (relocArg : Option Nat) :
    Nat → Bool → List PpcArgument → List InstructionPart
  | _, _, [] => []
  | idx, writingOffset, arg :: rest =>
    let separator := if 0 < idx ∧ writingOffset = false then [InstructionPart.separator] else []
    let close := if writingOffset then [InstructionPart.basic ")".toList] else []
    let opening := if isOffsetArg arg then [InstructionPart.basic "(".toList] else []
    let tail := close ++ opening ++ displayArgs resolved relocArg (idx + 1) (isOffsetArg arg) rest
    match resolved.relocation with
    | some reloc =>
      if relocArg = some idx then
        let flags := reloc.relocation.flags
        if elfType flags = some rPpcEmbSda21 ∧ rest.head? = some (.gpr 0) then
          separator ++ displayReloc flags
        else separator ++ displayReloc flags ++ tail
      else separator ++ .arg (displayArgument resolved.insRef.address arg) :: tail
    | none => separator ++ .arg (displayArgument resolved.insRef.address arg) :: tail

/-- `R_PPC_ADDR32` and `R_PPC_UADDR32`, and the `IMAGE_REL_PPC_ADDR32` of a COFF object. -/
def ppcDataRelocSize : RelocationFlags → Nat
  | .elf 1 | .elf 24 => 4
  | .elf _ => 1
  | .coff 2 => 4
  | .coff _ => 1

theorem ppcDataRelocSize_pos (flags : RelocationFlags) : 0 < ppcDataRelocSize flags := by
  rw [ppcDataRelocSize.eq_def]
  split <;> decide

def archPpc (decoder : PpcDecoder) : Arch where
  scanInstructionsInternal := fun address code _ _ =>
    if code.length % 4 = 0 then
      .ok ((ppcWords address code).map fun (at', word) =>
        { address := at', size := 4, opcode := decoder.op word
          branchDest := decoder.branchDest word at' })
    else .error "Code length must be a multiple of 4"
  displayInstruction := fun resolved =>
    if resolved.code.length = 4 then
      let code := beWord resolved.code
      let code := match resolved.relocation with
        | some reloc => zeroReloc code reloc.relocation.flags
        | none => code
      let (mnemonic, args) := decoder.parse code resolved.insRef.opcode
      .ok (.opcode mnemonic resolved.insRef.opcode ::
        displayArgs resolved (findRelocArg args resolved.relocation) 0 false args)
    else .error "could not convert slice to array"
  dataLiterals := decoder.dataLiterals
  dataRelocSize := ppcDataRelocSize

/-! ## A fragment of the decoder -/

def signed16 (n : Nat) : Int := if n < 0x8000 then n else (n : Int) - 0x10000

/-- Loads, stores and immediates, and `blr` for the remaining words. Opcode
numbers are the primary opcodes; objdiff only compares them. -/
def dFormDecoder : PpcDecoder where
  op := fun word => word / 2 ^ 26
  branchDest := fun _ _ => none
  parse := fun code op =>
    let d := code / 2 ^ 21 % 32
    let a := code / 2 ^ 16 % 32
    let imm := signed16 (code % 2 ^ 16)
    match op with
    | 14 => if a = 0 then ("li", [.gpr d, .simm imm]) else ("addi", [.gpr d, .gpr a, .simm imm])
    | 15 => if a = 0 then ("lis", [.gpr d, .simm imm]) else ("addis", [.gpr d, .gpr a, .simm imm])
    | 32 => ("lwz", [.gpr d, .offset imm, .gpr a])
    | 36 => ("stw", [.gpr d, .offset imm, .gpr a])
    | 37 => ("stwu", [.gpr d, .offset imm, .gpr a])
    | 48 => ("lfs", [.other ("f" ++ toString d), .offset imm, .gpr a])
    | _ => ("blr", [])

/-- An object that holds one function `f` and nothing else. -/
def functionObject (sectionName : String) (code : Bytes) : Object where
  arch := archPpc dFormDecoder
  symbols := [{ name := "f", size := code.length, kind := .function, sectionIndex := some 0 }]
  sections := [{ name := sectionName, size := code.length, kind := .code, data := code }]

def Object.renamed (obj : Object) (name : String) : Object :=
  { obj with symbols := obj.symbols.map fun symbol => { symbol with name } }

/-- `li r3, 1; blr`. -/
def returnOne : Bytes := [0x38, 0x60, 0x00, 0x01, 0x4e, 0x80, 0x00, 0x20]

/-- `blr`. -/
def returnOnly : Bytes := [0x4e, 0x80, 0x00, 0x20]

/-- `li r3, 2; blr`. -/
def returnTwo : Bytes := [0x38, 0x60, 0x00, 0x02, 0x4e, 0x80, 0x00, 0x20]

/-- `stw r3, 8(r1); blr`: a function without a frame that stores into its caller's. -/
def storeToCaller : Bytes := [0x90, 0x61, 0x00, 0x08, 0x4e, 0x80, 0x00, 0x20]

/-- `stwu r1, -16(r1); stw r3, 24(r1); blr`: the same store from a frame of 16 bytes. -/
def storeFromFrame : Bytes :=
  [0x94, 0x21, 0xff, 0xf0, 0x90, 0x61, 0x00, 0x18, 0x4e, 0x80, 0x00, 0x20]

/-- `lis r31, pool@ha; addi r31, r31, pool@l; lfs f0, offset(r31)`, where `pool`
starts `addend` bytes into the section and the load reaches `@12`. -/
def pooledLoad (addend : Int) (offset : UInt8) : Object where
  arch := archPpc dFormDecoder
  symbols := [
    { name := "f", size := 12, kind := .function, sectionIndex := some 0 },
    { name := "...rodata.0", sectionIndex := some 1 },
    { name := "@12", address := 16, size := 4, kind := .object, sectionIndex := some 1 }]
  sections := [
    { name := ".text", size := 12, kind := .code
      data := [0x3f, 0xe0, 0x00, 0x00, 0x3b, 0xff, 0x00, 0x00, 0xc0, 0x1f, 0x00, offset]
      relocations := [⟨.elf rPpcAddr16Ha, 2, 1, addend⟩, ⟨.elf rPpcAddr16Lo, 6, 1, addend⟩,
        ⟨.elf rPpcNone, 8, 2, 0⟩]
      sorted := by simp },
    { name := ".rodata", size := 20, kind := .data, data := List.replicate 20 0 }]

end MeleeHarness.Objdiff
