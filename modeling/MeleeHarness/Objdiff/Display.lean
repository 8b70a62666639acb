import MeleeHarness.Objdiff.CodeDiff

/-!
# The text of a row

`display_row` (`objdiff-core/src/diff/display.rs`) turns an instruction into
segments, and `format_instruction_row_inner` (`objdiff-cli/src/cmd/diff.rs`)
writes them out. Colors are left out. An error stands for a panic of the tool.
-/

namespace MeleeHarness.Objdiff

open Lib

inductive DiffText where
  | basic (text : Text)
  | line (num : Nat)
  | address (addr : Nat)
  | opcode (mnemonic : String)
  | argument (arg : InstructionArgValue)
  | branchDest (addr : Nat)
  | branchArrow
  | symbol (sym : Symbol)
  | addend (addend : Int)
  | spacing (n : Nat)
  | eol

structure DiffTextSegment where
  text : DiffText
  padTo : Nat := 0

/-- The line of the last entry at or before an address. -/
def Section.lineAt (s : Section) (address : Nat) : Option Nat :=
  ((s.lineInfo.filter fun e => decide (e.1 ≤ address)).getLast?).map (·.2)

def relocSegments (reloc : ResolvedRelocation) : List DiffTextSegment :=
  if reloc.relocation.addend ≠ 0 then
    [{ text := .symbol reloc.symbol }, { text := .addend reloc.relocation.addend }]
  else [{ text := .symbol reloc.symbol }]

def branchDestSegment (symbol : Symbol) (dest : Nat) : DiffTextSegment :=
  if symbol.address ≤ dest then { text := .branchDest (dest - symbol.address) }
  else { text := .argument (.opaqueText "<invalid>") }

/-- An argument, with the value data-flow analysis has for it taking precedence. -/
def argSegments (resolved : ResolvedInstructionRef) (dataFlowValue : Option String) :
    InstructionArg → Except String (List DiffTextSegment)
  | .branchDest dest => .ok [branchDestSegment resolved.symbol dest]
  | .value value =>
    match dataFlowValue with
    | some text => .ok [{ text := .argument (.opaqueText text) }]
    | none => .ok [{ text := .argument value }]
  | .reloc =>
    match dataFlowValue, resolved.insRef.branchDest, resolved.relocation with
    | some text, _, _ => .ok [{ text := .argument (.opaqueText text) }]
    | none, some dest, _ => .ok [branchDestSegment resolved.symbol dest]
    | none, none, some reloc => .ok (relocSegments reloc)
    | none, none, none => .error "called `Option::unwrap()` on a `None` value"

/-- The parts an architecture displays, with `argIdx` arguments before them. -/
def partSegments (config : DiffObjConfig) (resolved : ResolvedInstructionRef)
    (flow : Nat → Option String) : Nat → List InstructionPart →
    Except String (List DiffTextSegment)
  | _, [] => .ok []
  | argIdx, .basic text :: rest => do
    let segment : DiffTextSegment :=
      if text.all (· == ' ') then { text := .spacing (text.length % 256) }
      else { text := .basic text }
    return segment :: (← partSegments config resolved flow argIdx rest)
  | argIdx, .opcode mnemonic _ :: rest => do
    return { text := .opcode mnemonic, padTo := 10 } ::
      (← partSegments config resolved flow argIdx rest)
  | argIdx, .separator :: rest => do
    let text := if config.spaceBetweenArgs then ", ".toList else ",".toList
    return { text := .basic text } :: (← partSegments config resolved flow argIdx rest)
  | argIdx, .arg arg :: rest => do
    let segments ← argSegments resolved (flow argIdx) arg
    return segments ++ (← partSegments config resolved flow (argIdx + 1) rest)

def displayRow (obj : Object) (symbolIndex : Nat) (row : InstructionDiffRow)
    (config : DiffObjConfig) : Except String (List DiffTextSegment) :=
  match row.insRef with
  | none => .ok [{ text := .eol }]
  | some insRef =>
    match obj.resolveInstructionRef symbolIndex insRef with
    | none => .ok [{ text := .basic "<invalid>".toList }, { text := .eol }]
    | some resolved => do
      let line : List DiffTextSegment := match resolved.section.lineAt insRef.address with
        | some num => [{ text := .line num, padTo := 5 }]
        | none => []
      let address : DiffTextSegment :=
        { text := .address (insRef.address - resolved.symbol.address), padTo := 5 }
      let arrow : DiffTextSegment :=
        if row.branchFrom.isSome then { text := .branchArrow } else { text := .spacing 4 }
      let analysis := if config.showDataFlow then obj.flowAnalysisResult resolved.symbol else none
      let flow (argIdx : Nat) : Option String :=
        analysis.bind fun result => result insRef.address (argIdx % 256)
      let parts ← obj.arch.displayInstruction resolved
      let segments ← partSegments config resolved flow 0 parts
      let displayed := parts.any fun p => p matches .arg .reloc
      let fallback : List DiffTextSegment := match resolved.relocation with
        | some reloc =>
          if displayed then []
          else { text := .basic " <".toList } :: relocSegments reloc ++
            [{ text := .basic ">".toList }]
        | none => []
      let dest : List DiffTextSegment :=
        if row.branchTo.isSome then [{ text := .branchArrow }] else []
      return line ++ address :: arrow :: segments ++ fallback ++ dest ++ [{ text := .eol }]

/-! ## Writing segments -/

structure RowText where
  result : Text := []
  afterSubst : Bool := false

/-- Length in bytes of the last line. -/
def lastLineLen (t : Text) : Nat := utf8Len (t.reverse.takeWhile (· != '\n'))

def padSegment (padTo : Nat) (t : Text) : Text :=
  t ++ List.replicate (padTo - lastLineLen t) ' '

def addendText (addend : Int) : Text :=
  if 0 < addend then "+0x".toList ++ hex addend.natAbs
  else if addend < 0 then "-0x".toList ++ hex addend.natAbs
  else []

/-- The text of a segment; with `relocLiteral`, a symbol is shown as that literal
and what qualifies the symbol is dropped. -/
def writeSegment (relocLiteral : Option String) (s : RowText) (segment : DiffTextSegment) :
    RowText :=
  let push (t : Text) : RowText := { result := padSegment segment.padTo (s.result ++ t) }
  match segment.text with
  | .basic text =>
    if s.afterSubst && text.head? == some '@' then { s with afterSubst := false } else push text
  | .line num => push (Nat.toDigits 10 num ++ [' '])
  | .address addr => push (hex addr ++ [':'])
  | .opcode mnemonic => push (mnemonic.toList ++ [' '])
  | .argument arg => push arg.toText
  | .branchDest addr => push (hex addr)
  | .branchArrow => push " -> ".toList
  | .symbol sym =>
    match relocLiteral with
    | some literal => { push ('<' :: literal.toList ++ ['>']) with afterSubst := true }
    | none => push (sym.demangledName.getD sym.name).toList
  | .addend addend => if s.afterSubst then s else push (addendText addend)
  | .spacing n => { push (List.replicate n ' ') with afterSubst := s.afterSubst }
  | .eol => { push [] with afterSubst := s.afterSubst }

def formatInstructionRowInner (obj : Object) (symbolIndex : Nat) (row : InstructionDiffRow)
    (config : DiffObjConfig) (relocLiteral : Option String) : Except String Text := do
  let segments ← displayRow obj symbolIndex row config
  return (segments.foldl (writeSegment relocLiteral) {}).result

end MeleeHarness.Objdiff
