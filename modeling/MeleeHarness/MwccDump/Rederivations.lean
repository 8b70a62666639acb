import MeleeHarness.Lib.Json
import MeleeHarness.MwccDump.Stack
import Mathlib.Data.Finset.Basic

/-!
# Values that are derived again

`find_rederivations` counts the loads of `user_data` from the gobj that the function got
in `r3`. The registers that hold the gobj are collected in one pass over the whole
listing, and the set at its end is used at every load.

* `mem_arg0Aliases`: the registers that are taken for the gobj;
* `gobjLoads_iff`: when the counted loads are loads from the gobj, and when they are all
  of these.
-/

namespace MeleeHarness.MwccDump

open Lib PowerPC

/-! ## Registers that hold the gobj -/

def gobjUserDataOff : Int := 0x2C

def argReg : Text := "r3".toList

/-- `r\d+`. -/
def isReg : Text → Bool
  | 'r' :: rest => digits? rest
  | _ => false

/-- `_def_reg` -/
def defReg (inst : Insn) : Option Text :=
  match inst.operands with
  | [] => none
  | target :: _ =>
    if startsWith ["st"] inst.op ||
        anyOf ["b", "bt", "bf", "bl", "blr", "cmp", "cmpi", "cmpwi", "cmpli", "cmplwi"] inst.op then
      none
    else if isReg target then some target
    else none

/-- `mr rD,rS` and `addi rD,rS,0`. -/
def copyOf (inst : Insn) : Option (Text × Text) :=
  match inst.operands with
  | [target, source] => if anyOf ["mr"] inst.op then some (target, source) else none
  | [target, source, imm] =>
    if anyOf ["addi"] inst.op ∧ imm = "0".toList then some (target, source) else none
  | _ => none

/-- A plain definition of `r3` leaves it in the set. -/
def aliasStep (aliases : Finset Text) (inst : Insn) : Finset Text :=
  match copyOf inst with
  | some (target, source) =>
    if source ∈ aliases then insert target aliases else aliases.erase target
  | none =>
    match defReg inst with
    | some target => if target ≠ argReg then aliases.erase target else aliases
    | none => aliases

/-- `_arg0_aliases` -/
def arg0Aliases (insts : List Insn) : Finset Text := insts.foldl aliasStep {argReg}

/-! ## The loads -/

/-- The offset and the base of `lwz rD, offset(base)`; a load into its own base is none. -/
def fieldLoad (inst : Insn) : Option (Int × Text) :=
  match inst.operands with
  | target :: mem :: _ =>
    if anyOf ["lwz"] inst.op then
      match regFromOffsetOperand mem with
      | some (offset, base) => if target = base then none else some (offset, base)
      | none => none
    else none
  | _ => none

/-- The base of a load of `user_data`. -/
def userDataBase (inst : Insn) : Option Text :=
  match fieldLoad inst with
  | some (offset, base) => if offset = gobjUserDataOff then some base else none
  | none => none

/-- The loads of `user_data` whose base passes a test, with their positions. -/
def userDataLoads (insts : List Insn) (test : Nat → Text → Bool) : List (Nat × Text) :=
  insts.zipIdx.filterMap fun (inst, pos) =>
    (userDataBase inst).bind fun base => if test pos base then some (pos, base) else none

def gobjLoads (insts : List Insn) : List (Nat × Text) :=
  userDataLoads insts fun _ base => base ∈ arg0Aliases insts

def baseUnchanged (insts : List Insn) (base : Text) (p₁ p₂ : Nat) : Bool :=
  !((insts.take p₂).drop (p₁ + 1)).any fun inst => defReg inst = some base

/-- The other fields that are loaded, by offset and base. -/
def genericLoad (insts : List Insn) (inst : Insn) : Option (Int × Text) :=
  match fieldLoad inst with
  | some (offset, base) =>
    if offset = gobjUserDataOff ∧ base ∈ arg0Aliases insts then none else some (offset, base)
  | none => none

def positions (insts : List Insn) (field : Int × Text) : List Nat :=
  insts.zipIdx.filterMap fun (inst, pos) => if genericLoad insts inst = some field then some pos else none

/-- Two fields in the order of `sorted(occ.items())`. -/
def fieldLe (f g : Int × Text) : Bool := f.1 < g.1 || (f.1 = g.1 && !decide (g.2 < f.2))

/-- How many loads of a field follow one another with their base unchanged. -/
def stableLoads (insts : List Insn) (base : Text) (places : List Nat) : Nat :=
  1 + ((places.zip places.tail).takeWhile fun (prev, cur) => baseUnchanged insts base prev cur).length

/-! ## The report -/

/-- A number with sign, as `:x` prints it. -/
def signedHex (n : Int) : Text := if n < 0 then '-' :: hex n.natAbs else hex n.natAbs

def gobjHits (insts : List Insn) : List Text :=
  let loads := gobjLoads insts
  if 2 ≤ loads.length then
    let regs := ((loads.map Prod.snd).reverse.dedup.reverse).intersperse ", ".toList
    ["    gobj->user_data fetched ".toList ++ decimal loads.length ++ "x (lwz rD,0x2c via ".toList ++
      regs.flatten ++ ") — top-level GET_x holds it in one local; the ".toList ++
      "extra fetch(es) are an inlined GET_ITEM/GET_FIGHTER/GET_GROUND".toList]
  else []

def genericHit (insts : List Insn) (field : Int × Text) : Option Text :=
  let (offset, base) := field
  let places := positions insts field
  let stable := stableLoads insts base places
  if places.length < 3 ∨ stable < 3 then none
  else
    match places.head?, places[stable - 1]? with
    | some lo, some hi =>
      let between := (insts.take hi).drop (lo + 1)
      if between.any fun inst => anyOf ["bl"] inst.op || startsWith ["st"] inst.op then none
      else if base ∈ arg0Aliases insts ∨ anyOf ["r28", "r29", "r30", "r31"] base then
        some ("    ".toList ++ base ++ ": 0x".toList ++ signedHex offset ++ "(".toList ++ base ++
          ") reloaded ".toList ++ decimal stable ++ "x with no ".toList ++
          "call/store between and base unchanged — value re-derived ".toList ++
          "in straight-line code".toList)
      else none
    | _, _ => none

def genericHits (insts : List Insn) : List Text :=
  ((insts.filterMap (genericLoad insts)).dedup.mergeSort fieldLe).filterMap (genericHit insts)

/-- The instructions of a listing. -/
def parsedInsts (lines : List Text) : List Insn :=
  (lines.filterMap parseInst).map fun (op, operands, _) => ⟨op, operands⟩

def findRederivations (lines : List Text) : List Text :=
  let insts := parsedInsts lines
  if gobjHits insts = [] ∧ genericHits insts = [] then []
  else
    ["  re-derivation (possible inlined-helper boundary — a lead, not a directive):".toList] ++
      (gobjHits insts).take 3 ++ (genericHits insts).take 3 ++
      ["    consider whether the re-deriving region was a separate ".toList ++
        "static-inline helper (won't fire for param-passing helpers)".toList]

/-! ## What the registers hold -/

/-- What a register held when the function was entered, or what an instruction put in one. -/
inductive Origin where
  | entry (reg : Text)
  | made (pos : Nat)
  deriving DecidableEq, Repr

/-- A copy, a definition or a call puts something else in the register. -/
def overwrites (inst : Insn) (reg : Text) : Bool :=
  match copyOf inst with
  | some (target, _) => reg = target
  | none => defReg inst = some reg || (anyOf ["bl"] inst.op && reg = argReg)

/-- What a register holds before the instruction at a position. -/
def contents (insts : List Insn) : Nat → Text → Origin
  | 0, reg => .entry reg
  | pos + 1, reg =>
    match insts[pos]? with
    | none => contents insts pos reg
    | some inst =>
      match copyOf inst with
      | some (target, source) => contents insts pos (if reg = target then source else reg)
      | none => if overwrites inst reg then .made pos else contents insts pos reg

/-- The loads of `user_data` from a register that holds the argument where the load stands. -/
def heldLoads (insts : List Insn) : List (Nat × Text) :=
  userDataLoads insts fun pos base => contents insts pos base = .entry argReg

/-! ## Chains of copies -/

/-- No instruction from one position up to another meets the test. -/
def Untouched (test : Insn → Text → Bool) (insts : List Insn) (start stop : Nat) (reg : Text) : Prop :=
  ∀ pos inst, start ≤ pos → pos < stop → insts[pos]? = some inst → test inst reg = false

/-- At a position, the register is `r3`, which nothing has replaced since the entry, or the target
of a copy, which nothing has replaced since, from a register of which this was true there. -/
inductive Derived (replaces : Insn → Text → Bool) (insts : List Insn) : Nat → Text → Prop
  | entry {pos : Nat} : Untouched replaces insts 0 pos argReg → Derived replaces insts pos argReg
  | copy {pos stop : Nat} {inst : Insn} {target source : Text} : insts[pos]? = some inst →
      copyOf inst = some (target, source) → Derived replaces insts pos source → pos < stop →
      Untouched replaces insts (pos + 1) stop target → Derived replaces insts stop target

/-- A definition or a call leaves `r3` what it was. -/
def overwritesCopy (inst : Insn) (reg : Text) : Bool :=
  match copyOf inst with
  | some (target, _) => reg = target
  | none => defReg inst = some reg && reg ≠ argReg

section
variable {replaces : Insn → Text → Bool} {insts : List Insn} {pos : Nat} {reg : Text}

theorem untouched_succ {start : Nat} (hle : start ≤ pos) :
    Untouched replaces insts start (pos + 1) reg ↔ Untouched replaces insts start pos reg ∧
      ∀ inst, insts[pos]? = some inst → replaces inst reg = false := by
  constructor
  · intro h
    refine ⟨fun q inst hq hlt => h q inst hq (Nat.lt_succ_of_lt hlt), fun inst => ?_⟩
    exact h pos inst hle (Nat.lt_succ_self pos)
  · rintro ⟨hbefore, hhere⟩ q inst hq hlt hinst
    rcases Nat.lt_succ_iff_lt_or_eq.mp hlt with hlt | rfl
    · exact hbefore q inst hq hlt hinst
    · exact hhere inst hinst

theorem derived_zero : Derived replaces insts 0 reg ↔ reg = argReg := by
  constructor
  · intro h
    cases h with
    | entry => rfl
    | copy _ _ _ hlt => exact absurd hlt (Nat.not_lt_zero _)
  · rintro rfl
    exact .entry fun _ _ _ hlt => absurd hlt (Nat.not_lt_zero _)

/-- A step that does not replace the register keeps what it is. -/
theorem derived_kept (h : ∀ inst, insts[pos]? = some inst → replaces inst reg = false)
    (hcopy : ∀ inst source, insts[pos]? = some inst → copyOf inst ≠ some (reg, source)) :
    Derived replaces insts (pos + 1) reg ↔ Derived replaces insts pos reg := by
  constructor
  · intro hderived
    cases hderived with
    | entry hkept => exact .entry ((untouched_succ (Nat.zero_le pos)).mp hkept).1
    | @copy q _ inst _ source hinst hmove hsource hlt hkept =>
      rcases Nat.lt_succ_iff_lt_or_eq.mp hlt with hbefore | rfl
      · exact .copy hinst hmove hsource hbefore ((untouched_succ hbefore).mp hkept).1
      · exact absurd hmove (hcopy inst source hinst)
  · intro hderived
    cases hderived with
    | entry hkept => exact .entry ((untouched_succ (Nat.zero_le pos)).mpr ⟨hkept, h⟩)
    | copy hinst hmove hsource hlt hkept =>
      exact .copy hinst hmove hsource (Nat.lt_succ_of_lt hlt) ((untouched_succ hlt).mpr ⟨hkept, h⟩)

/-- A step that replaces the register leaves only a copy. -/
theorem derived_replaced {inst : Insn} (hinst : insts[pos]? = some inst)
    (h : replaces inst reg = true) : Derived replaces insts (pos + 1) reg ↔
      ∃ source, copyOf inst = some (reg, source) ∧ Derived replaces insts pos source := by
  constructor
  · intro hderived
    cases hderived with
    | entry hkept =>
      have hnot := ((untouched_succ (Nat.zero_le pos)).mp hkept).2 inst hinst
      rw [h] at hnot
      cases hnot
    | @copy q _ inst' _ source hinst' hmove hsource hlt hkept =>
      rcases Nat.lt_succ_iff_lt_or_eq.mp hlt with hbefore | rfl
      · have hnot := ((untouched_succ hbefore).mp hkept).2 inst hinst
        rw [h] at hnot
        cases hnot
      · obtain rfl : inst = inst' := Option.some.inj (hinst.symm.trans hinst')
        exact ⟨source, hmove, hsource⟩
  · rintro ⟨source, hmove, hsource⟩
    apply Derived.copy hinst hmove hsource (Nat.lt_succ_self pos)
    exact fun _ _ hle hlt => absurd hlt (Nat.not_lt.mpr hle)

/-- What a copy does, where it replaces its target and nothing else. -/
theorem derived_copy {inst : Insn} {target source : Text} (hinst : insts[pos]? = some inst)
    (hmove : copyOf inst = some (target, source))
    (h : ∀ reg, replaces inst reg = decide (reg = target)) :
    Derived replaces insts (pos + 1) reg ↔
      Derived replaces insts pos (if reg = target then source else reg) := by
  by_cases hreg : reg = target
  · subst hreg
    rw [derived_replaced hinst (by simp [h]), if_pos rfl, hmove]
    simp
  · rw [if_neg hreg]
    apply derived_kept
    · intro inst' hinst'
      obtain rfl : inst = inst' := Option.some.inj (hinst.symm.trans hinst')
      simp [h, hreg]
    · intro inst' source' hinst' hmove'
      obtain rfl : inst = inst' := Option.some.inj (hinst.symm.trans hinst')
      rw [hmove] at hmove'
      exact hreg (Prod.mk.inj (Option.some.inj hmove')).1.symm

/-- What any other instruction does. -/
theorem derived_other {inst : Insn} (hinst : insts[pos]? = some inst) (hmove : copyOf inst = none) :
    Derived replaces insts (pos + 1) reg ↔
      replaces inst reg = false ∧ Derived replaces insts pos reg := by
  cases hreg : replaces inst reg with
  | true =>
    rw [derived_replaced hinst hreg, hmove]
    simp
  | false =>
    rw [derived_kept]
    · simp
    · intro inst' hinst'
      obtain rfl : inst = inst' := Option.some.inj (hinst.symm.trans hinst')
      exact hreg
    · intro inst' source hinst'
      obtain rfl : inst = inst' := Option.some.inj (hinst.symm.trans hinst')
      simp [hmove]

end

/-- A register holds the argument exactly if it was copied from `r3`, and neither was replaced. -/
theorem contents_arg_iff (insts : List Insn) (pos : Nat) (reg : Text) :
    contents insts pos reg = .entry argReg ↔ Derived overwrites insts pos reg := by
  induction pos generalizing reg with
  | zero => simp [contents, derived_zero]
  | succ pos ih =>
    rw [contents]
    cases hinst : insts[pos]? with
    | none =>
      rw [derived_kept (by simp [hinst]) (by simp [hinst])]
      exact ih reg
    | some inst =>
      dsimp only
      cases hmove : copyOf inst with
      | some copy =>
        rw [derived_copy hinst hmove (fun reg => by simp [overwrites, hmove])]
        exact ih _
      | none =>
        rw [derived_other hinst hmove]
        cases hreg : overwrites inst reg with
        | true => simp
        | false => simp [ih]

/-- A register is taken for the gobj exactly if it was copied from `r3`, whatever else was put
in `r3`. -/
theorem mem_arg0Aliases (insts : List Insn) (reg : Text) :
    reg ∈ arg0Aliases insts ↔ Derived overwritesCopy insts insts.length reg := by
  suffices h : ∀ pos ≤ insts.length, ∀ reg, reg ∈ arg0Aliases (insts.take pos) ↔
      Derived overwritesCopy insts pos reg by
    have hall := h insts.length le_rfl reg
    rwa [List.take_length] at hall
  intro pos
  induction pos with
  | zero => simp [arg0Aliases, derived_zero]
  | succ pos ih =>
    intro hpos reg
    have hinst : insts[pos]? = some (insts.get ⟨pos, hpos⟩) := List.getElem?_eq_getElem hpos
    generalize insts.get ⟨pos, hpos⟩ = inst at hinst
    have ih := ih (Nat.le_of_succ_le hpos)
    rw [List.take_add_one, hinst, Option.toList_some, arg0Aliases, List.foldl_append,
      List.foldl_cons, List.foldl_nil, ← arg0Aliases, aliasStep]
    cases hmove : copyOf inst with
    | some copy =>
      obtain ⟨target, source⟩ := copy
      rw [derived_copy hinst hmove (fun reg => by simp [overwritesCopy, hmove]), ← ih]
      by_cases hreg : reg = target
      · by_cases hsource : source ∈ arg0Aliases (insts.take pos) <;> simp [hreg, hsource]
      · by_cases hsource : source ∈ arg0Aliases (insts.take pos) <;> simp [hreg, hsource]
    | none =>
      rw [derived_other hinst hmove, ← ih, overwritesCopy, hmove]
      cases hdef : defReg inst with
      | none => simp
      | some target =>
        by_cases htarget : target = argReg
        · subst htarget
          by_cases hreg : reg = argReg <;> simp [hreg, eq_comm]
        · by_cases hreg : reg = target
          · simp [hreg, htarget]
          · simp [htarget, hreg, Ne.symm hreg]

/-! ## The counted loads -/

theorem mem_userDataLoads {insts : List Insn} {test : Nat → Text → Bool} {pos : Nat} {base : Text} :
    (pos, base) ∈ userDataLoads insts test ↔
      ∃ inst, insts[pos]? = some inst ∧ userDataBase inst = some base ∧ test pos base = true := by
  simp only [userDataLoads, List.mem_filterMap, Prod.exists, List.mem_zipIdx_iff_getElem?,
    Option.bind_eq_some_iff]
  constructor
  · rintro ⟨inst, pos', hinst, base', hbase, htest⟩
    split at htest
    · cases htest
      exact ⟨inst, hinst, hbase, ‹_›⟩
    · cases htest
  · rintro ⟨inst, hinst, hbase, htest⟩
    exact ⟨inst, pos, hinst, base, hbase, by rw [if_pos htest]⟩

/-- Two tests select the same loads exactly if they agree at every load. -/
theorem userDataLoads_eq_iff {insts : List Insn} {test test' : Nat → Text → Bool} :
    userDataLoads insts test = userDataLoads insts test' ↔
      ∀ pos inst base, insts[pos]? = some inst → userDataBase inst = some base →
        test pos base = test' pos base := by
  constructor
  · intro h pos inst base hinst hbase
    have hmem : (pos, base) ∈ userDataLoads insts test ↔ (pos, base) ∈ userDataLoads insts test' := by
      rw [h]
    rw [mem_userDataLoads, mem_userDataLoads] at hmem
    apply Bool.eq_iff_iff.mpr
    constructor
    · intro ht
      obtain ⟨_, _, _, ht'⟩ := hmem.mp ⟨inst, hinst, hbase, ht⟩
      exact ht'
    · intro ht
      obtain ⟨_, _, _, ht'⟩ := hmem.mpr ⟨inst, hinst, hbase, ht⟩
      exact ht'
  · intro h
    apply List.filterMap_congr
    rintro ⟨inst, pos⟩ hmem
    have hinst := List.mem_zipIdx_iff_getElem?.mp hmem
    show (userDataBase inst).bind _ = (userDataBase inst).bind _
    cases hbase : userDataBase inst with
    | none => rfl
    | some base => rw [Option.bind_some, Option.bind_some, h pos inst base hinst hbase]

/-! ## Trails -/

/-- A call, or a definition that is no copy, puts something else in `r3`. -/
def replacesArg (inst : Insn) : Bool :=
  (copyOf inst).isNone && (defReg inst = some argReg || anyOf ["bl"] inst.op)

/-- At a position, the register goes back by copies to the `r3` of the entry. The spans are those
in which `r3` carries the value: from the entry or a copy into `r3` up to the copy that takes it out
or the end of the trail. What calls and definitions put in `r3` meanwhile does not count. -/
inductive Trail (insts : List Insn) : Nat → Text → List (Nat × Nat) → Prop
  | entry {pos : Nat} : Untouched overwritesCopy insts 0 pos argReg → Trail insts pos argReg [(0, pos)]
  | copy {pos stop : Nat} {inst : Insn} {target source : Text} {spans : List (Nat × Nat)} :
      insts[pos]? = some inst → copyOf inst = some (target, source) → Trail insts pos source spans →
      pos < stop → Untouched overwritesCopy insts (pos + 1) stop target →
      Trail insts stop target (if target = argReg then (pos + 1, stop) :: spans else spans)

/-- In no span a call or a definition puts something else in `r3`. -/
def Clean (insts : List Insn) (spans : List (Nat × Nat)) : Prop :=
  ∀ span ∈ spans, Untouched (fun inst _ => replacesArg inst) insts span.1 span.2 argReg

section
variable {insts : List Insn} {start stop pos : Nat} {reg : Text}

theorem overwrites_eq (inst : Insn) (reg : Text) :
    overwrites inst reg = (overwritesCopy inst reg || (reg = argReg && replacesArg inst)) := by
  unfold overwrites overwritesCopy replacesArg
  cases copyOf inst with
  | some copy => simp
  | none => by_cases hreg : reg = argReg <;> simp [hreg]

theorem untouched_overwrites : Untouched overwrites insts start stop reg ↔
    Untouched overwritesCopy insts start stop reg ∧
      (reg = argReg → Untouched (fun inst _ => replacesArg inst) insts start stop argReg) := by
  simp only [Untouched, overwrites_eq, Bool.or_eq_false_iff]
  constructor
  · intro h
    refine ⟨fun p inst hle hlt hinst => (h p inst hle hlt hinst).1, ?_⟩
    rintro rfl p inst hle hlt hinst
    simpa using (h p inst hle hlt hinst).2
  · rintro ⟨hcopy, hreplaced⟩ p inst hle hlt hinst
    refine ⟨hcopy p inst hle hlt hinst, ?_⟩
    by_cases hreg : reg = argReg
    · simpa [hreg] using hreplaced hreg p inst hle hlt hinst
    · simp [hreg]

theorem derived_overwritesCopy : Derived overwritesCopy insts pos reg ↔ ∃ spans, Trail insts pos reg spans := by
  constructor
  · intro h
    induction h with
    | entry hkept => exact ⟨_, .entry hkept⟩
    | copy hinst hmove _ hlt hkept ih =>
      obtain ⟨spans, hspans⟩ := ih
      exact ⟨_, .copy hinst hmove hspans hlt hkept⟩
  · rintro ⟨spans, h⟩
    induction h with
    | entry hkept => exact .entry hkept
    | copy hinst hmove _ hlt hkept ih => exact .copy hinst hmove ih hlt hkept

theorem derived_overwrites :
    Derived overwrites insts pos reg ↔ ∃ spans, Trail insts pos reg spans ∧ Clean insts spans := by
  constructor
  · intro h
    induction h with
    | entry hkept =>
      obtain ⟨hcopy, hreplaced⟩ := untouched_overwrites.mp hkept
      exact ⟨_, .entry hcopy, by simpa [Clean] using hreplaced rfl⟩
    | @copy pos stop inst target source hinst hmove _ hlt hkept ih =>
      obtain ⟨spans, hspans, hclean⟩ := ih
      obtain ⟨hcopy, hreplaced⟩ := untouched_overwrites.mp hkept
      refine ⟨_, .copy hinst hmove hspans hlt hcopy, ?_⟩
      split_ifs with htarget
      · exact List.forall_mem_cons.mpr ⟨hreplaced htarget, hclean⟩
      · exact hclean
  · rintro ⟨spans, h, hclean⟩
    induction h with
    | entry hkept =>
      apply Derived.entry
      exact untouched_overwrites.mpr ⟨hkept, fun _ => hclean _ List.mem_cons_self⟩
    | @copy pos stop inst target source spans hinst hmove _ hlt hkept ih =>
      split_ifs at hclean with htarget
      · obtain ⟨hspan, hclean⟩ := List.forall_mem_cons.mp hclean
        exact .copy hinst hmove (ih hclean) hlt (untouched_overwrites.mpr ⟨hkept, fun _ => hspan⟩)
      · exact .copy hinst hmove (ih hclean) hlt
          (untouched_overwrites.mpr ⟨hkept, fun h => absurd h htarget⟩)

end

/-- The counted loads are loads from the gobj exactly if every load of `user_data`, whose base goes
back to `r3` at the end of the listing, has a base that goes back to `r3` where it stands, with no
call and no other definition of `r3` on the way. They are all of these loads exactly if the
converse holds too. -/
theorem gobjLoads_iff (lines : List Text) :
    ((∀ load ∈ gobjLoads (parsedInsts lines), load ∈ heldLoads (parsedInsts lines)) ↔
      ∀ pos inst base, (parsedInsts lines)[pos]? = some inst → userDataBase inst = some base →
        (∃ spans, Trail (parsedInsts lines) (parsedInsts lines).length base spans) →
          ∃ spans, Trail (parsedInsts lines) pos base spans ∧ Clean (parsedInsts lines) spans) ∧
    (gobjLoads (parsedInsts lines) = heldLoads (parsedInsts lines) ↔
      ∀ pos inst base, (parsedInsts lines)[pos]? = some inst → userDataBase inst = some base →
        ((∃ spans, Trail (parsedInsts lines) (parsedInsts lines).length base spans) ↔
          ∃ spans, Trail (parsedInsts lines) pos base spans ∧ Clean (parsedInsts lines) spans)) := by
  simp only [← derived_overwritesCopy, ← derived_overwrites]
  constructor
  · constructor
    · intro h pos inst base hinst hbase hend
      have hload : (pos, base) ∈ gobjLoads (parsedInsts lines) := by
        apply mem_userDataLoads.mpr
        exact ⟨inst, hinst, hbase, decide_eq_true ((mem_arg0Aliases _ _).mpr hend)⟩
      obtain ⟨_, _, _, hheld⟩ := mem_userDataLoads.mp (h _ hload)
      exact (contents_arg_iff _ _ _).mp (of_decide_eq_true hheld)
    · rintro h ⟨pos, base⟩ hload
      obtain ⟨inst, hinst, hbase, hend⟩ := mem_userDataLoads.mp hload
      apply mem_userDataLoads.mpr
      refine ⟨inst, hinst, hbase, decide_eq_true ?_⟩
      apply (contents_arg_iff _ _ _).mpr
      exact h pos inst base hinst hbase ((mem_arg0Aliases _ _).mp (of_decide_eq_true hend))
  · rw [gobjLoads, heldLoads, userDataLoads_eq_iff]
    simp only [decide_eq_decide, mem_arg0Aliases, contents_arg_iff]

/-- The second load is from what the call returned. -/
def loadsAroundCall : List Text :=
  ["    lwz     r31,44(r3)".toList, "    bl      HSD_GObjGet".toList, "    lwz     r30,44(r3)".toList]

theorem load_after_call_counted :
    gobjLoads (parsedInsts loadsAroundCall) = [(0, argReg), (2, argReg)] ∧
      heldLoads (parsedInsts loadsAroundCall) = [(0, argReg)] ∧
      findRederivations loadsAroundCall ≠ [] := by
  decide +kernel

end MeleeHarness.MwccDump
