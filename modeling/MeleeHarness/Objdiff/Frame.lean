import MeleeHarness.Lib.FirstSeen
import MeleeHarness.Objdiff.CodeDiff

/-!
# Stack frames and repeated causes

What the two-column display (`objdiff-cli/src/cmd/diff.rs`) and the score server
(`objdiff-cli/src/cmd/score.rs`) have in common: both files hold the same
`frame_size`, `is_r1`, `is_stwu_r1` and `is_stack_shift`, parse the two
instructions of a row in the same way, and remember register swaps and the
frame cascade so as to report each only once.
-/

namespace MeleeHarness.Objdiff

open Lib

def isR1 : InstructionArg → Bool
  | .value (.opaqueText s) => s == "r1"
  | _ => false

def isStwuR1 (parsed : ParsedInstruction) : Bool :=
  parsed.mnemonic == "stwu" && parsed.args.any isR1

/-- `(-v) as u64` of a negative number. -/
def negatedArg : InstructionArg → Option UInt64
  | .value (.signed v) => if v < 0 then some (-v).toUInt64 else none
  | _ => none

def rowFrameSize (obj : Object) (symbolIdx : Nat) (row : InstructionDiffRow) : Option UInt64 := do
  let insRef ← row.insRef
  let resolved ← obj.resolveInstructionRef symbolIdx insRef
  let parsed ← (obj.processInstruction resolved).toOption
  guard (isStwuR1 parsed = true)
  parsed.args.findSome? negatedArg

/-- The frame size the first `stwu r1, -n(r1)` of a function allocates. -/
def frameSize (obj : Object) (symbolIdx : Nat) (diff : SymbolDiff) : Option UInt64 :=
  diff.instructionRows.findSome? (rowFrameSize obj symbolIdx)

/-! ## One row of two columns -/

abbrev RowPair := Option InstructionDiffRow × Option InstructionDiffRow

/-- Row `i` of both columns, for every `i` that one of them has. -/
def rowPairs (target base : List InstructionDiffRow) : List RowPair :=
  (List.range (max target.length base.length)).map fun i => (target[i]?, base[i]?)

/-- The kind of a row; `none` where neither column has it. -/
def rowKind : RowPair → Option InstructionDiffKind
  | (some tr, some br) => some (if tr.kind ≠ .none then tr.kind else br.kind)
  | (some tr, none) => some tr.kind
  | (none, some br) => some br.kind
  | (none, none) => none

theorem mem_rowPairs {target base : List InstructionDiffRow} {row : RowPair} :
    row ∈ rowPairs target base ↔
      ∃ i, i < max target.length base.length ∧ row = (target[i]?, base[i]?) := by
  simp [rowPairs, eq_comm]

theorem rowPairs_kind_ne {target base : List InstructionDiffRow} {row : RowPair}
    (h : row ∈ rowPairs target base) : rowKind row ≠ none := by
  obtain ⟨i, hi, rfl⟩ := mem_rowPairs.mp h
  cases ht : target[i]? with
  | some tr => cases base[i]? <;> simp [rowKind]
  | none =>
    cases hb : base[i]? with
    | some br => simp [rowKind]
    | none =>
      have := List.getElem?_eq_none_iff.mp ht
      have := List.getElem?_eq_none_iff.mp hb
      omega

/-- Row pairs are of kind `None` exactly if both columns are. -/
theorem rowPairs_none_iff (target base : List InstructionDiffRow) :
    (∀ row ∈ rowPairs target base, rowKind row = some .none) ↔
      (∀ row ∈ target, row.kind = .none) ∧ ∀ row ∈ base, row.kind = .none := by
  constructor
  · intro hall
    refine ⟨?_, ?_⟩
    · intro tr hrow
      obtain ⟨i, hi, rfl⟩ := List.getElem_of_mem hrow
      have hpair := hall (target[i]?, base[i]?) (mem_rowPairs.mpr ⟨i, by omega, rfl⟩)
      rw [List.getElem?_eq_getElem hi] at hpair
      cases hb : base[i]? with
      | none => simpa [hb, rowKind] using hpair
      | some br =>
        by_contra hne
        simp [hb, rowKind, hne] at hpair
    · intro br hrow
      obtain ⟨i, hi, rfl⟩ := List.getElem_of_mem hrow
      have hpair := hall (target[i]?, base[i]?) (mem_rowPairs.mpr ⟨i, by omega, rfl⟩)
      rw [List.getElem?_eq_getElem hi] at hpair
      cases ht : target[i]? with
      | none => simpa [ht, rowKind] using hpair
      | some tr =>
        by_cases hne : tr.kind = .none
        · simpa [ht, rowKind, hne] using hpair
        · simp [ht, rowKind, hne] at hpair
  · rintro ⟨ht, hb⟩ row hrow
    have hkind := rowPairs_kind_ne hrow
    obtain ⟨i, -, rfl⟩ := mem_rowPairs.mp hrow
    cases hti : target[i]? with
    | none =>
      cases hbi : base[i]? with
      | none => simp [hti, hbi, rowKind] at hkind
      | some br => simp [rowKind, hb br (List.mem_of_getElem? hbi)]
    | some tr =>
      have htr := ht tr (List.mem_of_getElem? hti)
      cases hbi : base[i]? with
      | none => simp [rowKind, htr]
      | some br => simp [rowKind, htr, hb br (List.mem_of_getElem? hbi)]

/-- The two functions whose rows stand side by side. -/
structure Columns where
  targetObj : Object
  baseObj : Object
  targetSymbolIdx : Option Nat
  baseSymbolIdx : Option Nat

/-- A row whose two instructions could be resolved and parsed. -/
structure ParsedPair where
  targetRow : InstructionDiffRow
  baseRow : InstructionDiffRow
  targetResolved : ResolvedInstructionRef
  baseResolved : ResolvedInstructionRef
  targetIns : ParsedInstruction
  baseIns : ParsedInstruction

def parsePair (c : Columns) (row : RowPair) : Option ParsedPair := do
  let targetRow ← row.1
  let baseRow ← row.2
  let targetSymbolIdx ← c.targetSymbolIdx
  let baseSymbolIdx ← c.baseSymbolIdx
  let targetRef ← targetRow.insRef
  let baseRef ← baseRow.insRef
  let targetResolved ← c.targetObj.resolveInstructionRef targetSymbolIdx targetRef
  let baseResolved ← c.baseObj.resolveInstructionRef baseSymbolIdx baseRef
  let targetIns ← (c.targetObj.processInstruction targetResolved).toOption
  let baseIns ← (c.baseObj.processInstruction baseResolved).toOption
  return { targetRow, baseRow, targetResolved, baseResolved, targetIns, baseIns }

namespace ParsedPair

variable (p : ParsedPair)

/-- One of the two columns has a difference recorded for argument `i`. -/
def argDiffers (i : Nat) : Bool :=
  p.targetRow.argDiff[i]?.join.isSome || p.baseRow.argDiff[i]?.join.isSome

def argDiffCount : Nat := min p.targetRow.argDiff.length p.baseRow.argDiff.length

/-- The arguments of the first `count` that differ. -/
def differing (count : Nat) : List Nat := (List.range count).filter p.argDiffers

theorem differing_eq_nil (count : Nat) :
    p.differing count = [] ↔ ¬∃ i ∈ List.range count, p.argDiffers i = true := by
  simp [differing, List.filter_eq_nil_iff]

theorem exists_differing (count : Nat) (P : Nat → Prop) :
    (∃ i ∈ p.differing count, P i) ↔ ∃ i ∈ List.range count, p.argDiffers i = true ∧ P i := by
  simp only [differing, List.mem_filter, and_assoc]

def args (i : Nat) : Option InstructionArg × Option InstructionArg :=
  (p.targetIns.args[i]?, p.baseIns.args[i]?)

def referencesR1 : Bool := p.targetIns.args.any isR1 || p.baseIns.args.any isR1

/-- Both sides have a relocation, to the same symbol and addend. -/
def sameResolvedAddr : Bool :=
  match p.targetResolved.relocation, p.baseResolved.relocation with
  | some t, some b => t.symbol.name == b.symbol.name && t.relocation.addend == b.relocation.addend
  | _, _ => false

/-- How far apart two numbers of one signedness are, in wrapping `i64`. -/
def argShift : Option InstructionArg × Option InstructionArg → Option Int64
  | (some (.value (.signed t)), some (.value (.signed b))) => some (b - t)
  | (some (.value (.unsigned t)), some (.value (.unsigned b))) => some (b.toInt64 - t.toInt64)
  | _ => none

/-- The row refers to `r1`, and every argument that differs moves by `shift`. -/
def isStackShift (shift : Int64) : Bool :=
  let count := min (min p.argDiffCount p.targetIns.args.length) p.baseIns.args.length
  p.targetIns.mnemonic == p.baseIns.mnemonic && p.targetIns.args.any isR1 &&
    !(p.differing count).isEmpty && (p.differing count).all fun i => argShift (p.args i) == some shift

/-- A row that moves with the frame; the prologue `stwu` moves the other way. -/
def isFrameCascade (frameDiff : Int64) : Bool :=
  frameDiff != 0 &&
    p.isStackShift (if isStwuR1 p.targetIns || isStwuR1 p.baseIns then -frameDiff else frameDiff)

end ParsedPair

/-- `base as i64 - target as i64`. -/
def frameDelta (target base : UInt64) : Int64 := base.toInt64 - target.toInt64

def numericArg : Option InstructionArg → Bool
  | some a => a.isNumeric
  | none => false

/-! ## Causes that are reported once -/

/-- Register pairs in either direction, and the frame. -/
structure Seen where
  frame : Bool := false
  swaps : List (String × String) := []

/-- The pair sorted, as both files store it. -/
def sortedPair (a b : String) : String × String := if b < a then (b, a) else (a, b)

/-- `HashSet::insert`: whether the pair is new, and the set with it. -/
def Seen.insertSwap (s : Seen) (pair : String × String) : Bool × Seen :=
  if s.swaps.contains pair then (false, s) else (true, { s with swaps := pair :: s.swaps })

inductive Cause where
  | frame
  | swap (pair : String × String)
  deriving DecidableEq

def Seen.Has (s : Seen) : Cause → Prop
  | .frame => s.frame = true
  | .swap pair => pair ∈ s.swaps

theorem Seen.empty_fresh (k : Cause) : ¬({} : Seen).Has k := by
  cases k <;> simp [Seen.Has]

theorem Seen.insertSwap_new (s : Seen) (pair : String × String) :
    (s.insertSwap pair).1 = true ↔ ¬s.Has (.swap pair) := by
  unfold Seen.insertSwap
  split <;> simp_all [Seen.Has]

theorem Seen.insertSwap_has (s : Seen) (pair : String × String) (k : Cause) :
    (s.insertSwap pair).2.Has k ↔ s.Has k ∨ k = .swap pair := by
  unfold Seen.insertSwap
  split
  · rename_i h
    have hp : s.Has (.swap pair) := by simpa [Seen.Has] using h
    constructor
    · exact .inl
    · rintro (h | rfl)
      · exact h
      · exact hp
  · cases k with
    | frame => simp [Seen.Has]
    | swap q => simp [Seen.Has, or_comm]

/-- The register pair an argument position exchanges. -/
def swapOf : Option InstructionArg × Option InstructionArg → Option (String × String)
  | (some (.value (.opaqueText t)), some (.value (.opaqueText b))) => some (sortedPair t b)
  | _ => none

/-- The causes of a parsed row: the frame if it moves with it, else the register
pairs it exchanges. -/
def ParsedPair.causes (p : ParsedPair) (cascade : Bool) (k : Cause) : Prop :=
  if cascade then k = .frame
  else ∃ i ∈ p.differing p.argDiffCount, ∃ pair, swapOf (p.args i) = some pair ∧ k = .swap pair

/-- A constant that differs under relocations to the same address, which both
files pass over. -/
def ParsedPair.isSilentConstant (p : ParsedPair) (i : Nat) : Bool :=
  p.sameResolvedAddr && numericArg (p.args i).1 && numericArg (p.args i).2

theorem swapOf_numericArg {args : Option InstructionArg × Option InstructionArg}
    {pair : String × String} (h : swapOf args = some pair) : numericArg args.1 = false := by
  unfold swapOf at h
  split at h
  · rfl
  · cases h

theorem isSilentConstant_swapOf {p : ParsedPair} {i : Nat} (h : p.isSilentConstant i = true) :
    swapOf (p.args i) = none := by
  cases hs : swapOf (p.args i) with
  | none => rfl
  | some pair => simp [ParsedPair.isSilentConstant, swapOf_numericArg hs] at h

end MeleeHarness.Objdiff
