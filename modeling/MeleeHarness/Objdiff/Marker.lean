import MeleeHarness.Objdiff.Frame

/-!
# The marker of a row

`compute_marker` of `objdiff-cli/src/cmd/diff.rs`: the letters in front of a row
of the two-column display. With the default flags a repeated register pair and
the frame cascade are marked once.
-/

namespace MeleeHarness.Objdiff

open Lib

structure MarkerKinds where
  r : Bool := false
  c : Bool := false
  s : Bool := false
  a : Bool := false
  d : Bool := false
  i : Bool := false

namespace MarkerKinds

variable (k : MarkerKinds)

def any : Bool := k.r || k.c || k.s || k.a || k.d || k.i

def letter (b : Bool) (ch : Char) : Text := if b then [ch] else []

def toMarker : Text :=
  letter k.r 'r' ++ letter k.c 'c' ++ letter k.s 's' ++ letter k.a 'a' ++ letter k.d 'd' ++
    letter k.i 'i'

end MarkerKinds

def argKind (arg : InstructionArg) (referencesR1 : Bool) (into : MarkerKinds) : MarkerKinds :=
  match arg with
  | .value (.signed _) => if referencesR1 then { into with s := true } else { into with c := true }
  | .value (.unsigned _) =>
    if referencesR1 then { into with s := true } else { into with c := true }
  | .value (.opaqueText _) => { into with r := true }
  | .branchDest _ => { into with a := true }
  | .reloc => into

def argKind? (arg : Option InstructionArg) (referencesR1 : Bool) (into : MarkerKinds) :
    MarkerKinds :=
  match arg with
  | some a => argKind a referencesR1 into
  | none => into

def dataLiteralStrings (obj : Object) (resolved : ResolvedInstructionRef) : List String :=
  (obj.insDataLiterals resolved).map (·.1)

/-- `!all_regswaps` and `!all_frame_shifts`. -/
structure MarkerFlags where
  dedupRegswaps : Bool := true
  collapseFrameShifts : Bool := true

/-- The accumulators of the argument loop. -/
structure ArgMarks where
  kinds : MarkerKinds
  relocDiff : Bool := false
  hadArgDiff : Bool := false
  seen : Seen

def ArgMarks.addSwap (flags : MarkerFlags) (s : ArgMarks) (pair : String × String) : ArgMarks :=
  if flags.dedupRegswaps then
    let (new, seen) := s.seen.insertSwap pair
    { s with kinds := if new then { s.kinds with r := true } else s.kinds, seen }
  else { s with kinds := { s.kinds with r := true } }

def bothReloc : Option InstructionArg × Option InstructionArg → Bool
  | (some .reloc, some .reloc) => true
  | _ => false

def markArg (flags : MarkerFlags) (p : ParsedPair) (s : ArgMarks) (i : Nat) : ArgMarks :=
  if !p.argDiffers i then s
  else
    let s := { s with hadArgDiff := true }
    if bothReloc (p.args i) then { s with relocDiff := true }
    else if p.isSilentConstant i then s
    else
      match swapOf (p.args i) with
      | some pair => s.addSwap flags pair
      | none => { s with
          kinds := argKind? (p.args i).2 p.referencesR1
            (argKind? (p.args i).1 p.referencesR1 s.kinds) }

/-- The data a relocation reaches differs, where both sides have some. -/
def literalsDiffer (c : Columns) (p : ParsedPair) : Bool :=
  let t := dataLiteralStrings c.targetObj p.targetResolved
  let b := dataLiteralStrings c.baseObj p.baseResolved
  !t.isEmpty && !b.isEmpty && t != b

def relocKinds (c : Columns) (p : ParsedPair) (m : ArgMarks) : MarkerKinds :=
  if m.relocDiff then
    if literalsDiffer c p then { m.kinds with d := true } else { m.kinds with a := true }
  else m.kinds

/-- The kinds once the loop has ended. -/
def finishKinds (c : Columns) (p : ParsedPair) (kind : InstructionDiffKind) (m : ArgMarks) :
    MarkerKinds :=
  let kinds := relocKinds c p m
  let kinds :=
    if (kind = .opMismatch ∨ kind = .replace) ∧ kinds.any = false ∧ m.hadArgDiff = false then
      { kinds with i := true }
    else kinds
  if kinds.any = false ∧ m.hadArgDiff = false then { kinds with a := true } else kinds

def ParsedPair.startMarks (p : ParsedPair) (seen : Seen) : ArgMarks :=
  { kinds := { i := p.targetIns.mnemonic != p.baseIns.mnemonic }, seen }

def markArgs (flags : MarkerFlags) (c : Columns) (p : ParsedPair) (kind : InstructionDiffKind)
    (seen : Seen) : Text × Seen :=
  let m := (List.range p.argDiffCount).foldl (markArg flags p) (p.startMarks seen)
  ((finishKinds c p kind m).toMarker, m.seen)

/-- A row that moves with the frame, where both frames are known. -/
def ParsedPair.isKnownCascade (p : ParsedPair) (frameDiff : Option Int64) : Bool :=
  frameDiff.any p.isFrameCascade

def markParsed (flags : MarkerFlags) (c : Columns) (frameDiff : Option Int64)
    (kind : InstructionDiffKind) (p : ParsedPair) (seen : Seen) : Text × Seen :=
  if p.isKnownCascade frameDiff then
    if seen.frame && flags.collapseFrameShifts then ([' '], seen)
    else (['f'], { seen with frame := true })
  else markArgs flags c p kind seen

/-- The mark of a row that could not be parsed. -/
def unparsedMarker (kind : InstructionDiffKind) : Text :=
  if kind = .opMismatch ∨ kind = .replace then ['i'] else ['?']

def computeMarker (flags : MarkerFlags) (c : Columns) (frameDiff : Option Int64) (seen : Seen)
    (row : RowPair) : Text × Seen :=
  match rowKind row with
  | none => ([' '], seen)
  | some .none => ([' '], seen)
  | some .insert => (['+'], seen)
  | some .delete => (['-'], seen)
  | some kind =>
    match parsePair c row with
    | none => (unparsedMarker kind, seen)
    | some p => markParsed flags c frameDiff kind p seen

/-- A marker that leaves no letter in front of its row. -/
def Blank (marker : Text) : Prop := ∀ ch ∈ marker, ch = ' '

instance (marker : Text) : Decidable (Blank marker) :=
  inferInstanceAs (Decidable (∀ ch ∈ marker, ch = ' '))

end MeleeHarness.Objdiff
