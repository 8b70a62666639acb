import MeleeHarness.Lib.Bytes
import MeleeHarness.Lib.Text

/-!
# Object files as objdiff holds them

The data model of `objdiff-core/src/obj/mod.rs` and the two entry points of
`objdiff-core/src/arch/mod.rs` that read instructions out of a section.
Disassembly itself is the architecture's (`Arch`), which for PowerPC is a
third-party crate; everything here holds for any of them.
-/

namespace MeleeHarness.Objdiff

open Lib

inductive SectionKind where
  | unknown | code | data | bss | common
  deriving DecidableEq, Repr

inductive SymbolKind where
  | unknown | function | object | sectionSymbol
  deriving DecidableEq, Repr

/-- The symbol flags that diffing reads. -/
structure SymbolFlagSet where
  common : Bool := false
  ignored : Bool := false
  compilerGenerated : Bool := false
  deriving DecidableEq, Repr

structure Symbol where
  name : String
  demangledName : Option String := none
  normalizedName : Option String := none
  address : Nat := 0
  size : Nat := 0
  kind : SymbolKind := .unknown
  sectionIndex : Option Nat := none
  flags : SymbolFlagSet := {}
  deriving DecidableEq, Repr

inductive RelocationFlags where
  | elf (type : Nat)
  | coff (type : Nat)
  deriving DecidableEq, Repr

structure Relocation where
  flags : RelocationFlags
  address : Nat
  targetSymbol : Nat
  addend : Int
  deriving DecidableEq, Repr

/-- The reader sorts each section's relocations by address, which is what the
binary search of `relocation_at` relies on. -/
structure Section where
  name : String
  address : Nat := 0
  size : Nat := 0
  kind : SectionKind
  data : Bytes := []
  relocations : List Relocation := []
  lineInfo : List (Nat × Nat) := []
  sorted : relocations.Pairwise (fun a b => a.address ≤ b.address) := by decide

inductive InstructionArgValue where
  | signed (v : Int64)
  | unsigned (v : UInt64)
  | opaqueText (s : String)
  deriving DecidableEq

/-- `loose_eq`: a signed and an unsigned number are equal as 64-bit words. -/
def InstructionArgValue.looseEq : InstructionArgValue → InstructionArgValue → Bool
  | .signed a, .signed b => a == b
  | .unsigned a, .unsigned b => a == b
  | .signed a, .unsigned b => a.toUInt64 == b
  | .unsigned b, .signed a => a.toUInt64 == b
  | .opaqueText a, .opaqueText b => a == b
  | _, _ => false

/-- `{:#x}` of `ReallySigned` for a signed argument, `{:#x}` for an unsigned one. -/
def InstructionArgValue.toText : InstructionArgValue → Text
  | .signed v =>
    if v.toInt < 0 then '-' :: '0' :: 'x' :: hex v.toInt.natAbs else '0' :: 'x' :: hex v.toInt.natAbs
  | .unsigned v => '0' :: 'x' :: hex v.toNat
  | .opaqueText s => s.toList

inductive InstructionArg where
  | value (v : InstructionArgValue)
  | reloc
  | branchDest (dest : Nat)
  deriving DecidableEq

structure InstructionRef where
  address : Nat
  size : Nat
  opcode : Nat
  branchDest : Option Nat := none
  deriving DecidableEq, Repr

structure ParsedInstruction where
  insRef : InstructionRef
  mnemonic : String
  args : List InstructionArg

structure ResolvedRelocation where
  relocation : Relocation
  symbol : Symbol

structure ResolvedInstructionRef where
  insRef : InstructionRef
  symbolIndex : Nat
  symbol : Symbol
  sectionIndex : Nat
  «section» : Section
  code : Bytes
  relocation : Option ResolvedRelocation

inductive InstructionPart where
  | basic (s : Text)
  | opcode (mnemonic : String) (op : Nat)
  | arg (a : InstructionArg)
  | separator

/-- A data literal: its text, and the optional label and copy text. -/
abbrev Literal := String × Option String × Option String

/-- What objdiff asks of an architecture. `dataLiterals` is `guess_data_type`
followed by `display_literals`, empty where no type is guessed. -/
structure Arch where
  scanInstructionsInternal : Nat → Bytes → Nat → List Relocation →
    Except String (List InstructionRef)
  displayInstruction : ResolvedInstructionRef → Except String (List InstructionPart)
  dataLiterals : ResolvedInstructionRef → Bytes → List Literal
  dataRelocSize : RelocationFlags → Nat

/-- What data-flow analysis shows for an argument of the instruction at an address. -/
abbrev FlowAnalysisResult := Nat → Nat → Option String

structure Object where
  arch : Arch
  symbols : List Symbol
  sections : List Section
  flowAnalysisResult : Symbol → Option FlowAnalysisResult := fun _ => none

/-- `data.get(start..start + len)`. -/
def slice (data : Bytes) (start len : Nat) : Option Bytes :=
  if start + len ≤ data.length then some ((data.drop start).take len) else none

def Section.dataRange (s : Section) (address size : Nat) : Option Bytes :=
  if s.address ≤ address then slice s.data (address - s.address) size else none

/-- The first relocation at `address`, else the next one if it starts inside
the `size` bytes. On a sorted list both are the first one not before `address`. -/
def Section.relocationAt (s : Section) (address size : Nat) : Option Relocation :=
  (s.relocations.find? fun r => decide (address ≤ r.address)).filter fun r =>
    r.address == address || decide (r.address < address + size)

def Section.resolveRelocationAt (s : Section) (obj : Object) (address size : Nat) :
    Option ResolvedRelocation := do
  let relocation ← s.relocationAt address size
  let symbol ← obj.symbols[relocation.targetSymbol]?
  return { relocation, symbol }

def Object.resolveInstructionRef (obj : Object) (symbolIndex : Nat) (insRef : InstructionRef) :
    Option ResolvedInstructionRef := do
  let symbol ← obj.symbols[symbolIndex]?
  let sectionIndex ← symbol.sectionIndex
  let «section» ← obj.sections[sectionIndex]?
  let code ← «section».dataRange insRef.address insRef.size
  let relocation := «section».resolveRelocationAt obj insRef.address insRef.size
  return { insRef, symbolIndex, symbol, sectionIndex, «section», code, relocation }

def Object.symbolData (obj : Object) (symbolIndex : Nat) : Option Bytes := do
  let symbol ← obj.symbols[symbolIndex]?
  let sectionIndex ← symbol.sectionIndex
  let «section» ← obj.sections[sectionIndex]?
  «section».dataRange symbol.address symbol.size

/-- The first symbol of that name that lies in a section. -/
def Object.symbolByName (obj : Object) (name : String) : Option Nat :=
  obj.symbols.findIdx? fun symbol => symbol.sectionIndex.isSome && symbol.name == name

/-- Drop a branch destination that lies outside the function. -/
def clearOutside (start stop : Nat) (ins : InstructionRef) : InstructionRef :=
  { ins with branchDest := ins.branchDest.filter fun d => decide (start ≤ d) && decide (d < stop) }

/-- The destination an in-function relocation target gives an instruction. -/
def relocDest (symbols : List Symbol) (sectionIndex start stop : Nat) (r : Relocation) :
    Option Nat := do
  let target ← symbols[r.targetSymbol]?
  guard (target.sectionIndex = some sectionIndex)
  guard (0 ≤ (target.address : Int) + r.addend)
  let address := ((target.address : Int) + r.addend).toNat
  guard (start ≤ address ∧ address < stop)
  return address

/-- Walk instructions and relocations in address order; an instruction that
holds a relocation loses its own destination and takes the relocation's. -/
def resolveRelocDests (symbols : List Symbol) (sectionIndex start stop : Nat) :
    List InstructionRef → List Relocation → List InstructionRef
  | [], _ => []
  | ins :: rest, relocs =>
    match relocs.dropWhile fun r => decide (r.address < ins.address) with
    | [] => ins :: rest
    | r :: relocs =>
      if r.address < ins.address + ins.size then
        { ins with branchDest := relocDest symbols sectionIndex start stop r } ::
          resolveRelocDests symbols sectionIndex start stop rest relocs
      else ins :: resolveRelocDests symbols sectionIndex start stop rest (r :: relocs)

/-- `scan_instructions` for a symbol whose code has been found. -/
def Object.scanInstructions (obj : Object) (symbol : Symbol) (sectionIndex : Nat)
    («section» : Section) (data : Bytes) : Except String (List InstructionRef) := do
  let ops ← obj.arch.scanInstructionsInternal symbol.address data sectionIndex «section».relocations
  let start := symbol.address
  let stop := start + symbol.size
  let relocs := («section».relocations.dropWhile fun r => decide (r.address < start)).takeWhile
    fun r => decide (r.address < stop)
  return resolveRelocDests obj.symbols sectionIndex start stop (ops.map (clearOutside start stop))
    relocs

def opcodeText : InstructionPart → Option String
  | .opcode mnemonic _ => some mnemonic
  | _ => none

def mnemonicOf (parts : List InstructionPart) : String :=
  ((parts.filterMap opcodeText).getLast?).getD ""

/-- A relocation argument that was resolved to a branch destination is that
destination. -/
def argOf (branchDest : Option Nat) : InstructionPart → Option InstructionArg
  | .arg .reloc => some ((branchDest.map InstructionArg.branchDest).getD .reloc)
  | .arg a => some a
  | _ => none

/-- `process_instruction`: the mnemonic and arguments the architecture displays,
with a relocation it did not display added as a last argument. -/
def Object.processInstruction (obj : Object) (resolved : ResolvedInstructionRef) :
    Except String ParsedInstruction := do
  let parts ← obj.arch.displayInstruction resolved
  let args := parts.filterMap (argOf resolved.insRef.branchDest)
  let emitted := parts.any fun p => p matches .arg .reloc
  return {
    insRef := resolved.insRef
    mnemonic := mnemonicOf parts
    args := if resolved.relocation.isSome && !emitted then args ++ [.reloc] else args }

/-- `display_ins_data_literals`: the literals at a relocation's target. -/
def Object.insDataLiterals (obj : Object) (resolved : ResolvedInstructionRef) : List Literal :=
  match resolved.relocation with
  | none => []
  | some reloc =>
    if reloc.relocation.addend < 0 ∨ (reloc.symbol.size : Int) ≤ reloc.relocation.addend then []
    else
      match obj.symbolData reloc.relocation.targetSymbol with
      | none => []
      | some data => obj.arch.dataLiterals resolved (data.drop reloc.relocation.addend.toNat)

end MeleeHarness.Objdiff
