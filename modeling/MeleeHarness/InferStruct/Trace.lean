import MeleeHarness.InferStruct.Render
import MeleeHarness.Lib.PowerPC

/-!
# Tracing a pointer through a listing

`trace` follows a register through the lines of a function, and with it the registers
that hold the pointer plus a constant. What it records is compared with a run of the
instructions.

* `traceStep_tracks`: one instruction keeps entries and accesses true;
* `trace_tracks`: entries and accesses are true along a run in which no register with an
  entry is overwritten behind the tracer's back, and every pair that is recorded is one of floats.
-/

namespace MeleeHarness.InferStruct

open Lib PowerPC

/-! ## Lines -/

/-- `INSN_RE`: an address comment, the mnemonic, and the operands. -/
def parseInsn (raw : Text) : Option (Text × Text) :=
  match raw with
  | '/' :: '*' :: comment =>
    match comment.dropWhile (· ≠ '*') with
    | '*' :: '/' :: body =>
      let op := (lstrip body).takeWhile fun c => !isSpace c
      if body.head?.any isSpace ∧ op ≠ [] then
        some (op, strip ((lstrip body).dropWhile fun c => !isSpace c))
      else none
    | _ => none
  | _ => none

def splitOperands (rest : Text) : List Text :=
  if rest = [] then [] else (rest.splitOn ',').map strip

def insn? (raw : Text) : Option Insn :=
  (parseInsn raw).map fun m => ⟨m.1, splitOperands m.2⟩

def hexDigits (t : Text) : Bool := t ≠ [] && t.all fun c => (hexDigit c).isSome

/-- `-?(?:0x)?[0-9A-Fa-f]+`. -/
def immShape (t : Text) : Bool :=
  let u := if t.head? = some '-' then t.tail else t
  hexDigits u || ("0x".toList.isPrefixOf u && hexDigits (u.drop 2))

/-- `MEMOP_RE`. -/
def memOperand (t : Text) : Option (Text × Nat) := (based t).filter fun m => immShape m.1

/-! ## Tables -/

structure MemOp where
  size : Nat
  kind : AccessKind
  isLoad : Bool
  updates : Bool

def memOps : List (String × MemOp) :=
  [("lwz", ⟨4, .u32, true, false⟩), ("lwzu", ⟨4, .u32, true, true⟩),
    ("lhz", ⟨2, .u16, true, false⟩), ("lhzu", ⟨2, .u16, true, true⟩),
    ("lha", ⟨2, .s16, true, false⟩), ("lhau", ⟨2, .s16, true, true⟩),
    ("lbz", ⟨1, .u8, true, false⟩), ("lbzu", ⟨1, .u8, true, true⟩),
    ("lfs", ⟨4, .f32, true, false⟩), ("lfsu", ⟨4, .f32, true, true⟩),
    ("lfd", ⟨8, .f64, true, false⟩), ("lfdu", ⟨8, .f64, true, true⟩),
    ("stw", ⟨4, .u32, false, false⟩), ("stwu", ⟨4, .u32, false, true⟩),
    ("sth", ⟨2, .u16, false, false⟩), ("sthu", ⟨2, .u16, false, true⟩),
    ("stb", ⟨1, .u8, false, false⟩), ("stbu", ⟨1, .u8, false, true⟩),
    ("stfs", ⟨4, .f32, false, false⟩), ("stfsu", ⟨4, .f32, false, true⟩),
    ("stfd", ⟨8, .f64, false, false⟩), ("stfdu", ⟨8, .f64, false, true⟩),
    ("psq_l", ⟨8, .f32x2, true, false⟩), ("psq_lu", ⟨8, .f32x2, true, true⟩),
    ("psq_st", ⟨8, .f32x2, false, false⟩), ("psq_stu", ⟨8, .f32x2, false, true⟩)]

def memOp (op : Text) : Option MemOp :=
  (memOps.find? fun entry => entry.1.toList = op).map Prod.snd

def AccessKind.floating : AccessKind → Bool
  | .f64 | .f32x2 | .f32 => true
  | _ => false

def indexedOps : List String :=
  ["lwz", "lhz", "lha", "lbz", "lfs", "lfd", "stw", "sth", "stb", "stfs", "stfd"]

def indexedOp (op : Text) : Bool := op.getLast? = some 'x' && anyOf indexedOps op.dropLast

def addOps : List String := ["addi", "addic", "addic.", "subi"]

def skippedOps : List String :=
  ["cmp", "fcmp", "b", "twi", "tw", "mtspr", "mtcrf", "mfcr", "isync", "sync"]

def destOps : List String :=
  ["li", "lis", "neg", "not", "extsb", "extsh", "extsw", "add", "addc", "adde", "addis", "addme",
    "addze", "sub", "subf", "subfc", "subfe", "subfic", "and", "andc", "andi.", "andis.", "or",
    "orc", "ori", "oris", "xor", "xori", "xoris", "nand", "nor", "eqv", "mullw", "mulhw", "mulhwu",
    "mulli", "divw", "divwu", "slw", "srw", "sraw", "srawi", "rlwimi", "rlwinm", "rlwnm", "cntlzw",
    "mfspr", "mflr", "mfctr"]

def destOp (op : Text) : Bool := !startsWith skippedOps op && anyOf destOps op

/-! ## The trace -/

structure Trace where
  accesses : List Access
  strides : List (Int × Text)
  aliases : Nat → Option Int
  seedReg : Nat

def Trace.start (seedReg : Nat) : Trace where
  accesses := []
  strides := []
  aliases := Function.update (fun _ => none) seedReg (some 0)
  seedReg := seedReg

def Trace.alias (t : Trace) (reg : Nat) (offset : Int) : Trace :=
  { t with aliases := Function.update t.aliases reg (some offset) }

/-- The seed is not forgotten when it is sticky. -/
def Trace.kill (sticky : Bool) (t : Trace) (reg : Nat) : Trace :=
  if sticky && reg = t.seedReg then t.alias reg 0
  else { t with aliases := Function.update t.aliases reg none }

def Trace.killFirst (sticky : Bool) (t : Trace) (i : Insn) : Trace :=
  (i.first.map (t.kill sticky)).getD t

/-- Every register that has an entry and may change in a call. -/
def Trace.call (sticky : Bool) (t : Trace) : Trace :=
  (volatile.filter fun r => (t.aliases r).isSome).foldl (Trace.kill sticky) t

def Trace.access (t : Trace) (m : MemOp) (base : Nat) (imm : Int) (addr : Text) : Trace :=
  match t.aliases base with
  | none => t
  | some offset =>
    let t := { t with accesses := t.accesses ++ [⟨offset + imm, m.size, m.kind, m.isLoad, addr⟩] }
    if m.updates then t.alias base (offset + imm) else t

/-- No result when the displacement is no number. -/
def traceMemory (sticky : Bool) (t : Trace) (addr : Text) (m : MemOp) (i : Insn) : Option Trace :=
  match i.operands[1]?.bind memOperand with
  | none => some t
  | some (expr, base) => do
    let imm ← parseImm expr
    let t := t.access m base imm addr
    return if m.isLoad && !m.kind.floating then t.killFirst sticky i else t

def traceMove (sticky : Bool) (t : Trace) (i : Insn) : Trace :=
  match i.first, i.second with
  | some d, some a =>
    match t.aliases a with
    | some offset => t.alias d offset
    | none => t.kill sticky d
  | _, _ => t

/-- A register that is added to starts over at 0. -/
def Trace.add (t : Trace) (d a : Nat) (offset imm : Int) (addr : Text) : Trace :=
  if d = a ∧ imm ≠ 0 then { t with strides := t.strides ++ [(imm, addr)] }.alias d 0
  else t.alias d (offset + imm)

def traceAdd (sticky : Bool) (t : Trace) (addr : Text) (i : Insn) : Trace :=
  match i.first, i.second with
  | some d, some a =>
    match i.operands[2]?.bind parseImm, t.aliases a with
    | some imm, some offset => t.add d a offset (if anyOf ["subi"] i.op then -imm else imm) addr
    | _, _ => t.kill sticky d
  | _, _ => t

def traceStep (sticky : Bool) (t : Trace) (addr : Text) (i : Insn) : Option Trace :=
  match memOp i.op with
  | some m => traceMemory sticky t addr m i
  | none =>
    if indexedOp i.op then
      some (if i.op.head? = some 'l' then t.killFirst sticky i else t)
    else if anyOf ["mr"] i.op ∧ i.operands.length = 2 then some (traceMove sticky t i)
    else if anyOf addOps i.op ∧ i.operands.length = 3 then some (traceAdd sticky t addr i)
    else if anyOf ["bl"] i.op then some (t.call sticky)
    else some (if destOp i.op then t.killFirst sticky i else t)

def traceLine (sticky : Bool) (t : Trace) (line : Text × Text) : Option Trace :=
  match insn? line.2 with
  | none => some t
  | some i => traceStep sticky t line.1 i

/-- The lines are addresses and texts. -/
def trace (body : List (Text × Text)) (seedReg : Nat) (sticky : Bool) : Option Trace :=
  body.foldlM (traceLine sticky) (Trace.start seedReg)

/-! ## What a line can change -/

/-- The registers whose entries are set or dropped. -/
def cleared (i : Insn) : List Nat :=
  match memOp i.op with
  | some m =>
    match i.operands[1]?.bind memOperand with
    | none => []
    | some (_, base) =>
      (if m.updates then [base] else []) ++
      (if m.isLoad && !m.kind.floating then i.first.toList else [])
  | none =>
    if indexedOp i.op then (if i.op.head? = some 'l' then i.first.toList else [])
    else if anyOf ["mr"] i.op ∧ i.operands.length = 2 then
      (if i.second.isSome then i.first.toList else [])
    else if anyOf addOps i.op ∧ i.operands.length = 3 then
      (if i.second.isSome then i.first.toList else [])
    else if anyOf ["bl"] i.op then volatile
    else if destOp i.op then i.first.toList
    else []

@[simp]
theorem alias_aliases (t : Trace) (r q : Nat) (o : Int) :
    (t.alias r o).aliases q = if q = r then some o else t.aliases q := by
  simp [Trace.alias, Function.update_apply]

@[simp]
theorem alias_accesses (t : Trace) (r : Nat) (o : Int) : (t.alias r o).accesses = t.accesses := rfl

@[simp]
theorem kill_aliases (t : Trace) (r q : Nat) :
    (t.kill false r).aliases q = if q = r then none else t.aliases q := by
  simp [Trace.kill, Function.update_apply]

@[simp]
theorem kill_accesses (t : Trace) (r : Nat) : (t.kill false r).accesses = t.accesses := by
  simp [Trace.kill]

@[simp]
theorem killFirst_aliases (t : Trace) (i : Insn) (q : Nat) :
    (t.killFirst false i).aliases q = if q ∈ i.first then none else t.aliases q := by
  cases h : i.first with
  | none => simp [Trace.killFirst, h]
  | some d => simp [Trace.killFirst, h, eq_comm]

@[simp]
theorem killFirst_accesses (t : Trace) (i : Insn) :
    (t.killFirst false i).accesses = t.accesses := by
  cases h : i.first <;> simp [Trace.killFirst, h]

theorem kills_aliases (regs : List Nat) (t : Trace) (q : Nat) :
    (regs.foldl (Trace.kill false) t).aliases q = if q ∈ regs then none else t.aliases q := by
  induction regs generalizing t with
  | nil => simp
  | cons r regs ih =>
    rw [List.foldl_cons, ih, kill_aliases]
    by_cases h : q ∈ regs <;> simp [h]

theorem kills_accesses (regs : List Nat) (t : Trace) :
    (regs.foldl (Trace.kill false) t).accesses = t.accesses := by
  induction regs generalizing t with
  | nil => rfl
  | cons r regs ih => rw [List.foldl_cons, ih, kill_accesses]

@[simp]
theorem call_aliases (t : Trace) (q : Nat) :
    (t.call false).aliases q = if q ∈ volatile then none else t.aliases q := by
  rw [Trace.call, kills_aliases]
  by_cases hq : q ∈ volatile
  · cases ha : t.aliases q <;> simp [hq, ha]
  · simp [hq]

@[simp]
theorem call_accesses (t : Trace) : (t.call false).accesses = t.accesses :=
  kills_accesses _ t

theorem memOp_table : ∀ entry ∈ memOps,
    (if quantised entry.1.toList then some 8 else fixedWidth entry.1.toList) = some entry.2.size ∧
      updatesBase entry.1.toList = entry.2.updates ∧
      keepsFirst entry.1.toList = !(entry.2.isLoad && !entry.2.kind.floating) := by
  decide

theorem memOp_spec {op : Text} {m : MemOp} (h : memOp op = some m) :
    (if quantised op then some 8 else fixedWidth op) = some m.size ∧ updatesBase op = m.updates ∧
      keepsFirst op = !(m.isLoad && !m.kind.floating) := by
  simp only [memOp, Option.map_eq_some_iff] at h
  obtain ⟨entry, hfind, rfl⟩ := h
  have hop : entry.1.toList = op := by simpa using List.find?_some hfind
  rw [← hop]
  exact memOp_table entry (List.mem_of_find?_eq_some hfind)

theorem memOperand_memory {i : Insn} {expr : Text} {base : Nat}
    (h : i.operands[1]?.bind memOperand = some (expr, base)) : i.memory = some (expr, base) := by
  simp only [memOperand, Option.bind_eq_some_iff, Option.filter_eq_some_iff] at h
  obtain ⟨operand, hoperand, hbased, -⟩ := h
  simp [Insn.memory, hoperand, hbased]

theorem access_aliases {t : Trace} {m : MemOp} {base : Nat} {imm : Int} {addr : Text} (q : Nat) :
    (t.access m base imm addr).aliases q =
      if m.updates ∧ q = base then (t.aliases base).map (· + imm) else t.aliases q := by
  cases hbase : t.aliases base with
  | none =>
    simp only [Trace.access, hbase, Option.map_none]
    split_ifs with h
    · rw [h.2, hbase]
    · rfl
  | some offset =>
    by_cases hu : m.updates = true
    · simp [Trace.access, hbase, hu]
    · simp [Trace.access, hbase, hu]

theorem access_accesses {t : Trace} {m : MemOp} {base : Nat} {imm : Int} {addr : Text} {a : Access}
    (h : a ∈ (t.access m base imm addr).accesses) :
    a ∈ t.accesses ∨ ∃ offset, t.aliases base = some offset ∧
      a = ⟨offset + imm, m.size, m.kind, m.isLoad, addr⟩ := by
  cases hbase : t.aliases base with
  | none =>
    simp only [Trace.access, hbase] at h
    exact .inl h
  | some offset =>
    have hmem : a ∈ t.accesses ++ [⟨offset + imm, m.size, m.kind, m.isLoad, addr⟩] := by
      simp only [Trace.access, hbase] at h
      split_ifs at h <;> exact h
    rcases List.mem_append.1 hmem with hold | hnew
    · exact .inl hold
    · exact .inr ⟨offset, rfl, List.mem_singleton.1 hnew⟩

/-- A memory line has set the entries it can change, and recorded at most its own access. -/
theorem traceMemory_spec {t t' : Trace} {addr : Text} {m : MemOp} {i : Insn}
    (h : traceMemory false t addr m i = some t') :
    (i.operands[1]?.bind memOperand = none ∧ t' = t) ∨
    ∃ expr base imm, i.operands[1]?.bind memOperand = some (expr, base) ∧
      parseImm expr = some imm ∧
      t'.accesses = (t.access m base imm addr).accesses ∧
      ∀ q, t'.aliases q =
        if (m.isLoad && !m.kind.floating) ∧ q ∈ i.first then none
        else (t.access m base imm addr).aliases q := by
  cases hmem : i.operands[1]?.bind memOperand with
  | none =>
    simp only [traceMemory, hmem, Option.some.injEq] at h
    exact .inl ⟨rfl, h.symm⟩
  | some mem =>
    obtain ⟨expr, base⟩ := mem
    simp only [traceMemory, hmem, Option.bind_eq_bind, Option.bind_eq_some_iff, Option.pure_def,
      Option.some.injEq] at h
    obtain ⟨imm, himm, rfl⟩ := h
    refine .inr ⟨expr, base, imm, rfl, himm, ?_⟩
    by_cases hload : (m.isLoad && !m.kind.floating) = true
    · simp [hload]
    · simp [hload]

/-! ## Runs -/

/-- The entries and the accesses are true of a state when the pointer is `p`. -/
structure Tracks (p : BitVec 32) (t : Trace) (s : State) : Prop where
  aliases : ∀ r o, t.aliases r = some o → s.regs r = p + BitVec.ofInt 32 o
  accesses : ∀ a ∈ t.accesses, (p + BitVec.ofInt 32 a.offset, a.size) ∈ s.touched

/-- Register 0 is named where zero is meant. -/
def zeroBase (i : Insn) : Bool :=
  ((memOp i.op).isSome && (i.memory.map Prod.snd) = some 0) ||
    (anyOf ["addi", "subi"] i.op && i.second = some 0)

/-- No register with an entry is written without its entry changing, zero is not taken for the
pointer, and of a pair that is recorded both lanes are floats in the state. -/
structure Unharmed (t : Trace) (s : State) (i : Insn) : Prop where
  kept : ∀ r ∈ writes i, r ∉ cleared i → t.aliases r = none
  zero : zeroBase i = true → t.aliases 0 = none
  floats : quantised i.op = true → ∀ expr base, i.operands[1]?.bind memOperand = some (expr, base) →
    (t.aliases base).isSome = true → quantisedWidth s i = some 8

theorem unharmed_of_cleared {t : Trace} {s : State} {i : Insn}
    (hwrites : ∀ r ∈ writes i, r ∈ cleared i) (hzero : zeroBase i = false)
    (hfixed : quantised i.op = false) : Unharmed t s i where
  kept r hr hkept := absurd (hwrites r hr) hkept
  zero h := absurd h (by simp [hzero])
  floats h := absurd h (by simp [hfixed])

/-- A constant is added to a register in place. -/
def selfUpdating (i : Insn) : Bool :=
  anyOf addOps i.op && i.operands.length = 3 && i.first.isSome && i.first = i.second &&
    (i.operands[2]?.bind parseImm).any (· ≠ 0)

section Step

variable {p : BitVec 32} {t t' : Trace} {i : Insn} {s s' : State}

theorem Tracks.keeps (ht : Tracks p t s) (hi : Exec i s s') (hu : Unharmed t s i) {r : Nat} {o : Int}
    (hr : r ∉ cleared i) (ho : t.aliases r = some o) : s'.regs r = p + BitVec.ofInt 32 o := by
  have hwrites : r ∉ writes i := by
    intro hmem
    simp [hu.kept r hmem hr] at ho
  rw [hi.frame r hwrites]
  exact ht.aliases r o ho

/-- A line that records no access has to be right about the entries it changes. -/
theorem Tracks.quiet (ht : Tracks p t s) (hi : Exec i s s') (hu : Unharmed t s i)
    (haccesses : t'.accesses = t.accesses)
    (hkept : ∀ r, r ∉ cleared i → t'.aliases r = t.aliases r)
    (hset : ∀ r ∈ cleared i, ∀ o, t'.aliases r = some o → s'.regs r = p + BitVec.ofInt 32 o) :
    Tracks p t' s' := by
  refine ⟨fun r o ho => ?_, fun a ha => hi.past _ (ht.accesses a (haccesses ▸ ha))⟩
  by_cases hr : r ∈ cleared i
  · exact hset r hr o ho
  · exact ht.keeps hi hu hr (hkept r hr ▸ ho)

theorem Unharmed.width {m : MemOp} (hu : Unharmed t s i) (hm : memOp i.op = some m) {expr : Text}
    {base : Nat} {o : Int} (hmem : i.operands[1]?.bind memOperand = some (expr, base))
    (ho : t.aliases base = some o) : width s i = some m.size := by
  have hsize := (memOp_spec hm).1
  rw [PowerPC.width]
  cases hquantised : quantised i.op with
  | false =>
    rw [hquantised] at hsize
    exact hsize
  | true =>
    rw [hquantised] at hsize
    rw [if_pos rfl, ← hsize]
    exact hu.floats hquantised expr base hmem (by rw [ho]; rfl)

theorem Tracks.address (ht : Tracks p t s) {a : Nat} {o : Int} (ha : a ≠ 0)
    (ho : t.aliases a = some o) (n : Int) : s.address a n = p + BitVec.ofInt 32 (o + n) := by
  simp only [State.address, State.base, ha, ↓reduceIte, ht.aliases a o ho, BitVec.ofInt_add]
  rw [BitVec.add_assoc]

theorem traceMemory_tracks {m : MemOp} {addr : Text} (hm : memOp i.op = some m)
    (h : traceMemory false t addr m i = some t') (ht : Tracks p t s) (hi : Exec i s s')
    (hu : Unharmed t s i) : Tracks p t' s' := by
  obtain ⟨-, hupdates, hkeeps⟩ := memOp_spec hm
  rcases traceMemory_spec h with ⟨hnone, rfl⟩ | ⟨expr, base, imm, hsome, himm, haccesses, haliases⟩
  · have hcleared : cleared i = [] := by simp [cleared, hm, hnone]
    apply ht.quiet hi hu rfl (fun _ _ => rfl)
    simp [hcleared]
  · have hmemory := memOperand_memory hsome
    have hbase : ∀ o, t.aliases base = some o → base ≠ 0 := by
      rintro o ho rfl
      simp [hu.zero (by simp [zeroBase, hm, hmemory])] at ho
    have hcleared : ∀ r, r ∈ cleared i ↔
        (m.updates ∧ r = base) ∨ ((m.isLoad && !m.kind.floating) ∧ r ∈ i.first) := by
      intro r
      simp only [cleared, hm, hsome, List.mem_append]
      by_cases h₁ : m.updates = true <;>
        by_cases h₂ : (m.isLoad && !m.kind.floating) = true <;> simp [h₁, h₂]
    refine ⟨fun r o ho => ?_, fun a ha => ?_⟩
    · rw [haliases r] at ho
      split_ifs at ho with hload
      rw [access_aliases] at ho
      split_ifs at ho with hupdated
      · -- the base of an update form holds the address of the access
        obtain ⟨hup, rfl⟩ := hupdated
        obtain ⟨offset, hoffset, rfl⟩ := Option.map_eq_some_iff.1 ho
        rw [hi.update expr r imm (hupdates.trans hup) hmemory himm, ht.address (hbase _ hoffset) hoffset]
        intro hresult hfirst
        apply hload
        refine ⟨?_, hfirst⟩
        simpa [hkeeps] using hresult
      · apply ht.keeps hi hu _ ho
        rw [hcleared]
        exact not_or.2 ⟨hupdated, hload⟩
    · rw [haccesses] at ha
      rcases access_accesses ha with hold | ⟨offset, hoffset, rfl⟩
      · exact hi.past _ (ht.accesses a hold)
      · rw [← ht.address (hbase _ hoffset) hoffset]
        exact hi.access m.size expr base imm (hu.width hm hsome hoffset) hmemory himm

theorem traceMove_tracks (hop : i.op = "mr".toList) (hlength : i.operands.length = 2)
    (hcleared : cleared i = if i.second.isSome then i.first.toList else [])
    (ht : Tracks p t s) (hi : Exec i s s') (hu : Unharmed t s i) :
    Tracks p (traceMove false t i) s' := by
  obtain ⟨x, y, hxy⟩ := List.length_eq_two.1 hlength
  have hfirst : i.first = gpr x := by simp [Insn.first, hxy]
  have hsecond : i.second = gpr y := by simp [Insn.second, hxy]
  cases hx : gpr x with
  | none => apply ht.quiet hi hu <;> simp [traceMove, hcleared, hfirst, hx]
  | some d =>
    cases hy : gpr y with
    | none => apply ht.quiet hi hu <;> simp [traceMove, hcleared, hfirst, hsecond, hx, hy]
    | some a =>
      have hmove := hi.move d a hop (by simp [hxy, hx, hy])
      cases ha : t.aliases a with
      | none =>
        apply ht.quiet hi hu <;> simp +contextual [traceMove, hcleared, hfirst, hsecond, hx, hy, ha]
      | some offset =>
        apply ht.quiet hi hu
        · simp [traceMove, hfirst, hsecond, hx, hy, ha]
        · simp +contextual [traceMove, hcleared, hfirst, hsecond, hx, hy, ha]
        · intro r hr o ho
          simp only [hcleared, hfirst, hsecond, hx, hy, Option.isSome_some, ↓reduceIte,
            Option.toList_some, List.mem_singleton] at hr
          subst hr
          simp only [traceMove, hfirst, hsecond, hx, hy, ha, alias_aliases, ↓reduceIte,
            Option.some.injEq] at ho
          rw [hmove, ht.aliases a offset ha, ho]

/-- What the four forms put in their result, when the source is no zero. -/
theorem addend_eq {op : Text} (hop : anyOf addOps op = true) {a : Nat} {offset : Int}
    (hzero : anyOf ["addi", "subi"] op = true → a ≠ 0) (ht : Tracks p t s)
    (ha : t.aliases a = some offset) (n : Int) :
    addend s op a n = some (p + BitVec.ofInt 32 (offset + if anyOf ["subi"] op then -n else n)) := by
  have hregs (n : Int) :
      s.regs a + BitVec.ofInt 32 n = p + BitVec.ofInt 32 (offset + n) := by
    rw [ht.aliases a offset ha, BitVec.ofInt_add, BitVec.add_assoc]
  simp only [anyOf, addOps, List.any_cons, List.any_nil, Bool.or_false, Bool.or_eq_true,
    decide_eq_true_eq] at hop hzero
  rcases hop with rfl | rfl | rfl | rfl
  · rw [← ht.address (hzero (.inl rfl)) ha]
    rfl
  · exact congrArg some (hregs n)
  · exact congrArg some (hregs n)
  · exact congrArg some (ht.address (hzero (.inr rfl)) ha (-n))

theorem traceAdd_tracks {addr : Text} (hop : anyOf addOps i.op = true)
    (hlength : i.operands.length = 3) (hself : selfUpdating i = false)
    (hcleared : cleared i = if i.second.isSome then i.first.toList else [])
    (ht : Tracks p t s) (hi : Exec i s s') (hu : Unharmed t s i) :
    Tracks p (traceAdd false t addr i) s' := by
  obtain ⟨x, y, z, hxyz⟩ := List.length_eq_three.1 hlength
  have hfirst : i.first = gpr x := by simp [Insn.first, hxyz]
  have hsecond : i.second = gpr y := by simp [Insn.second, hxyz]
  have hthird : i.operands[2]?.bind parseImm = parseImm z := by simp [hxyz]
  cases hx : gpr x with
  | none => apply ht.quiet hi hu <;> simp [traceAdd, hcleared, hfirst, hx]
  | some d =>
    cases hy : gpr y with
    | none => apply ht.quiet hi hu <;> simp [traceAdd, hcleared, hfirst, hsecond, hx, hy]
    | some a =>
      cases hz : parseImm z with
      | none =>
        apply ht.quiet hi hu <;>
          simp +contextual [traceAdd, hcleared, hfirst, hsecond, hthird, hx, hy, hz]
      | some n =>
        cases ha : t.aliases a with
        | none =>
          apply ht.quiet hi hu <;>
            simp +contextual [traceAdd, hcleared, hfirst, hsecond, hthird, hx, hy, hz, ha]
        | some offset =>
          have hapart : ¬(d = a ∧ (if anyOf ["subi"] i.op then -n else n) ≠ 0) := by
            rintro ⟨rfl, hn⟩
            have : n ≠ 0 := by
              rintro rfl
              simp at hn
            simp [selfUpdating, hop, hxyz, hfirst, hsecond, hx, hy, hz, this] at hself
          have hzero : anyOf ["addi", "subi"] i.op = true → a ≠ 0 := by
            rintro hadd rfl
            simp [hu.zero (by simp [zeroBase, hadd, hsecond, hy])] at ha
          have hsum := hi.sum d a x y z n _ hxyz hx hy hz (addend_eq hop hzero ht ha n)
          have hresult : traceAdd false t addr i =
              t.alias d (offset + if anyOf ["subi"] i.op then -n else n) := by
            simp only [traceAdd, hfirst, hsecond, hthird, hx, hy, hz, ha, Trace.add, if_neg hapart]
          rw [hresult]
          apply ht.quiet hi hu (alias_accesses t d _)
          · simp +contextual [hcleared, hfirst, hsecond, hx, hy]
          · intro r hr o ho
            simp only [hcleared, hfirst, hsecond, hx, hy, Option.isSome_some, ↓reduceIte,
              Option.toList_some, List.mem_singleton] at hr
            subst hr
            simp only [alias_aliases, ↓reduceIte, Option.some.injEq] at ho
            rw [hsum, ho]

/-- A line that only drops entries. -/
theorem Tracks.drops (ht : Tracks p t s) (hi : Exec i s s') (hu : Unharmed t s i)
    (haccesses : t'.accesses = t.accesses)
    (haliases : ∀ r, t'.aliases r = if r ∈ cleared i then none else t.aliases r) :
    Tracks p t' s' := by
  apply ht.quiet hi hu haccesses
  · intro r hr
    rw [haliases r, if_neg hr]
  · intro r hr o ho
    simp [haliases r, hr] at ho

theorem traceStep_tracks {addr : Text} (h : traceStep false t addr i = some t')
    (hself : selfUpdating i = false) (ht : Tracks p t s) (hi : Exec i s s') (hu : Unharmed t s i) :
    Tracks p t' s' := by
  cases hm : memOp i.op with
  | some m =>
    simp only [traceStep, hm] at h
    exact traceMemory_tracks hm h ht hi hu
  | none =>
    by_cases hindexed : indexedOp i.op = true
    · simp only [traceStep, hm, hindexed, ↓reduceIte, Option.some.injEq] at h
      subst h
      by_cases hload : i.op.head? = some 'l'
      · apply ht.drops hi hu <;> simp [cleared, hm, hindexed, hload]
      · apply ht.drops hi hu <;> simp [cleared, hm, hindexed, hload]
    by_cases hmove : anyOf ["mr"] i.op = true ∧ i.operands.length = 2
    · simp only [traceStep, hm, hindexed, hmove, and_self, Bool.false_eq_true, ↓reduceIte,
        Option.some.injEq] at h
      subst h
      apply traceMove_tracks _ hmove.2 _ ht hi hu
      · simpa [anyOf, eq_comm] using hmove.1
      · simp [cleared, hm, hindexed, hmove]
    by_cases hadd : anyOf addOps i.op = true ∧ i.operands.length = 3
    · simp only [traceStep, hm, hindexed, if_neg hmove, if_pos hadd, Bool.false_eq_true, ↓reduceIte,
        Option.some.injEq] at h
      subst h
      apply traceAdd_tracks hadd.1 hadd.2 hself _ ht hi hu
      simp [cleared, hm, hindexed, hadd]
    by_cases hcall : anyOf ["bl"] i.op = true
    · simp only [traceStep, hm, hindexed, hmove, hadd, hcall, Bool.false_eq_true, ↓reduceIte,
        Option.some.injEq] at h
      subst h
      apply ht.drops hi hu <;> simp [cleared, hm, hindexed, hmove, hadd, hcall]
    · simp only [traceStep, hm, hindexed, hmove, hadd, hcall, Bool.false_eq_true, ↓reduceIte,
        Option.some.injEq] at h
      subst h
      by_cases hdest : destOp i.op = true
      · apply ht.drops hi hu <;> simp [cleared, hm, hindexed, hmove, hadd, hcall, hdest]
      · apply ht.drops hi hu <;> simp [cleared, hm, hindexed, hmove, hadd, hcall, hdest]

end Step

def insns (body : List (Text × Text)) : List Insn := body.filterMap fun line => insn? line.2

/-- A run of the lines beside the tracer, in which no instruction does harm where it is reached. -/
inductive WatchedRun : Trace → List (Text × Text) → State → State → Prop
  | nil {t : Trace} {s : State} : WatchedRun t [] s s
  | skip {t : Trace} {line : Text × Text} {rest : List (Text × Text)} {s s' : State} :
      insn? line.2 = none → WatchedRun t rest s s' → WatchedRun t (line :: rest) s s'
  | step {t t' : Trace} {line : Text × Text} {rest : List (Text × Text)} {s s' s'' : State} {i : Insn} :
      insn? line.2 = some i → Unharmed t s i → Exec i s s' → traceLine false t line = some t' →
      WatchedRun t' rest s' s'' → WatchedRun t (line :: rest) s s''

theorem lines_track {p : BitVec 32} {body : List (Text × Text)} {t t' : Trace} {s s' : State}
    (hself : ∀ i ∈ insns body, selfUpdating i = false) (hrun : WatchedRun t body s s')
    (htrace : body.foldlM (traceLine false) t = some t') (ht : Tracks p t s) : Tracks p t' s' := by
  induction hrun with
  | nil =>
    simp only [List.foldlM_nil, Option.pure_def, Option.some.injEq] at htrace
    exact htrace ▸ ht
  | skip hinsn _ ih =>
    simp only [insns, List.filterMap_cons, hinsn] at hself
    simp only [List.foldlM_cons, traceLine, hinsn, Option.bind_eq_bind, Option.bind_some] at htrace
    exact ih hself htrace ht
  | @step t t₁ line rest s s₁ s' i hinsn hharm hexec hline _ ih =>
    simp only [insns, List.filterMap_cons, hinsn] at hself
    simp only [List.foldlM_cons, hline, Option.bind_eq_bind, Option.bind_some] at htrace
    apply ih (fun j hj => hself j (List.mem_cons_of_mem i hj)) htrace
    exact traceStep_tracks (by simpa [traceLine, hinsn] using hline) (hself i List.mem_cons_self) ht
      hexec hharm

theorem start_tracks {p : BitVec 32} {seed : Nat} {s : State} (hseed : s.regs seed = p) :
    Tracks p (Trace.start seed) s := by
  refine ⟨fun r o ho => ?_, by simp [Trace.start]⟩
  simp only [Trace.start, Function.update_apply] at ho
  split_ifs at ho with hr
  obtain rfl := Option.some.inj ho
  simp [hr, hseed]

/-- In a run of instructions that do no harm, every entry and every access is true at its end, and
so after each of them. -/
theorem trace_tracks (body : List (Text × Text)) (seed : Nat)
    (hself : ∀ i ∈ insns body, selfUpdating i = false) (s s' : State)
    (hrun : WatchedRun (Trace.start seed) body s s') (t : Trace)
    (htrace : trace body seed false = some t) : Tracks (s.regs seed) t s' :=
  lines_track hself hrun htrace (start_tracks rfl)

def moveLine : Text × Text := ("80005940".toList, "/* 80005940 */ mr r31, r3".toList)

def loadLine : Text × Text := ("80005944".toList, "/* 80005944 */ lwz r4, 0x8(r31)".toList)

def pairLine : Text × Text := ("80005948".toList, "/* 80005948 */ psq_l f1, 0x10(r31), 0, qr0".toList)

/-- Registers that all hold the pointer, and quantisation registers for floats. -/
def pointing (touched : List (BitVec 32 × Nat)) : State where
  regs _ := 0x80000000#32
  touched := touched
  gqr _ := 0#32

/-- The pointer is copied, and a word and a pair of floats are loaded through the copy. -/
theorem move_and_loads_tracked :
    ∃ t, trace [moveLine, loadLine, pairLine] 3 false = some t ∧ t.aliases 31 = some 0 ∧
      t.accesses = [⟨8, 4, .u32, true, loadLine.1⟩, ⟨16, 8, .f32x2, true, pairLine.1⟩] ∧
      Tracks 0x80000000#32 t (pointing [(0x80000008#32, 4), (0x80000010#32, 8)]) := by
  let move : Insn := ⟨"mr".toList, ["r31".toList, "r3".toList]⟩
  let load : Insn := ⟨"lwz".toList, ["r4".toList, "0x8(r31)".toList]⟩
  let pair : Insn := ⟨"psq_l".toList, ["f1".toList, "0x10(r31)".toList, "0".toList, "qr0".toList]⟩
  have hmove : Exec move (pointing []) (pointing []) :=
    { frame := fun _ _ => rfl
      past := fun _ h => h
      move := fun _ _ _ _ => rfl
      sum := fun _ _ _ _ _ _ _ h => by simp [move] at h
      access := by
        intro w _ _ _ h
        exact absurd ((show width (pointing []) move = none by decide).symm.trans h) (by simp)
      update := fun _ _ _ h => absurd h (by decide) }
  have hload : Exec load (pointing []) (pointing [(0x80000008#32, 4)]) :=
    { frame := fun _ _ => rfl
      past := by simp [pointing]
      move := fun _ _ h => absurd h (by decide)
      sum := fun _ _ _ _ _ _ _ h => by simp [load] at h
      access := by
        intro w expr a n hw hm hn
        obtain rfl : 4 = w := Option.some.inj
          ((show width (pointing []) load = some 4 by decide).symm.trans hw)
        obtain ⟨rfl, rfl⟩ := Prod.mk.inj (Option.some.inj
          ((show load.memory = some ("0x8".toList, 31) by decide).symm.trans hm))
        obtain rfl : 8 = n :=
          Option.some.inj ((show parseImm "0x8".toList = some 8 by decide).symm.trans hn)
        decide
      update := fun _ _ _ h => absurd h (by decide) }
  have hpair : Exec pair (pointing [(0x80000008#32, 4)])
      (pointing [(0x80000008#32, 4), (0x80000010#32, 8)]) :=
    { frame := fun _ _ => rfl
      past := by simp [pointing]
      move := fun _ _ h => absurd h (by decide)
      sum := fun _ _ _ _ _ _ _ h => by simp [pair] at h
      access := by
        intro w expr a n hw hm hn
        obtain rfl : 8 = w := Option.some.inj
          ((show width (pointing [(0x80000008#32, 4)]) pair = some 8 by decide).symm.trans hw)
        obtain ⟨rfl, rfl⟩ := Prod.mk.inj (Option.some.inj
          ((show pair.memory = some ("0x10".toList, 31) by decide).symm.trans hm))
        obtain rfl : 16 = n :=
          Option.some.inj ((show parseImm "0x10".toList = some 16 by decide).symm.trans hn)
        decide
      update := fun _ _ _ h => absurd h (by decide) }
  refine ⟨_, rfl, rfl, rfl, ?_⟩
  refine trace_tracks [moveLine, loadLine, pairLine] 3 (by decide) (pointing []) _ ?_ _ rfl
  refine .step (show insn? moveLine.2 = some move by decide)
    (unharmed_of_cleared (by decide) (by decide) (by decide)) hmove rfl ?_
  refine .step (show insn? loadLine.2 = some load by decide)
    (unharmed_of_cleared (by decide) (by decide) (by decide)) hload rfl ?_
  refine .step (show insn? pairLine.2 = some pair by decide) ?_ hpair rfl .nil
  refine ⟨fun r hr hkept => ?_, fun h => absurd h (by decide), fun _ _ _ _ _ => by decide⟩
  exact absurd ((show ∀ r ∈ writes pair, r ∈ cleared pair by decide) r hr) hkept

/-- A load of a symbol puts something else in the register. -/
theorem symbol_load_untracked :
    ¬∀ (body : List (Text × Text)) (seed : Nat), (∀ i ∈ insns body, selfUpdating i = false) →
      ∀ before after, before ++ after = body → ∀ s s', Runs (insns before) s s' →
      ∀ t, trace before seed false = some t → Tracks (s.regs seed) t s' := by
  intro h
  let line : Text × Text :=
    ("80005940".toList, "/* 80005940 */ lwz r3, lbl_804D3890@sda21(r0)".toList)
  let load : Insn := ⟨"lwz".toList, ["r3".toList, "lbl_804D3890@sda21(r0)".toList]⟩
  let s₀ : State := ⟨fun _ => 0#32, [], fun _ => 0#32⟩
  let s₁ : State := ⟨fun r => if r = 3 then 1#32 else 0#32, [(0x804D3890#32, 4)], fun _ => 0#32⟩
  have hinsns : insns [line] = [load] := by decide
  have hload : Exec load s₀ s₁ :=
    { frame := by
        intro r hr
        have : r ≠ 3 := by
          rintro rfl
          exact hr (by decide)
        simp [s₀, s₁, this]
      past := by simp [s₀]
      move := fun _ _ h => absurd h (by decide)
      sum := fun _ _ _ _ _ _ _ h => by simp [load] at h
      access := by
        intro w expr a n hw hm hn
        have hmemory : load.memory = some ("lbl_804D3890@sda21".toList, 0) := by decide
        obtain ⟨rfl, rfl⟩ := Prod.mk.inj (Option.some.inj (hmemory.symm.trans hm))
        exact absurd ((show parseImm "lbl_804D3890@sda21".toList = none by decide).symm.trans hn)
          (by simp)
      update := fun _ _ _ h => absurd h (by decide) }
  have hself : ∀ i ∈ insns [line], selfUpdating i = false := by
    rw [hinsns]
    decide
  have htracks := h [line] 3 hself [line] [] (List.append_nil _) s₀ s₁
    (by rw [hinsns]; exact .cons hload .nil) (Trace.start 3) rfl
  have hregs := htracks.aliases 3 0 rfl
  exact absurd hregs (by decide)

end MeleeHarness.InferStruct
