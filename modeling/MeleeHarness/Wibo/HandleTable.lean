import Mathlib.Data.List.Nodup
import Mathlib.Data.Finset.Card
import Mathlib.Data.Finset.Dedup
import Mathlib.Order.Interval.Finset.Nat

/-!
# The handle table

A handle names a slot of the table. A slot that is given back waits in quarantine if its
handle is one of the small ones, and is taken again only when the small handles have all
been used once.

* `Table.Kept`: every slot is open or free, and free only once;
* `Kept.alloc`, `Kept.close`: what taking and giving back a slot does;
* `get_update`: a slot that changes is a handle that changes.
-/

namespace MeleeHarness.Wibo

inductive ObjectType where
  | file
  | directory
  | mapping
  | process
  | token
  | mutex
  | event
  | semaphore
  | thread
  | heap
  | registryKey
  | namedPipe
  | namedPipeState
  deriving DecidableEq, Repr

def kCompatMaxIndex : Nat := 0x7FFF / 4 - 1

def kQuarantineLen : Nat := 64

def handleFlagInherit : UInt32 := 0x1

def handleFlagProtectFromClose : UInt32 := 0x2

/-- The index of a handle, which is an `int` and here its 32 bits. -/
def indexOf (h : Nat) : Nat := if h = 0 ∨ h % 4 ≠ 0 then 2 ^ 32 - 1 else h / 4 - 1

def makeHandle (index : Nat) : Nat := (index + 1) * 4 % 2 ^ 32

def isPseudo (h : Nat) : Bool := 2 ^ 31 ≤ h

structure HandleMeta where
  grantedAccess : UInt32
  flags : UInt32
  typeCache : ObjectType
  generation : Nat
  deriving DecidableEq, Repr

def protectedFrom (info : HandleMeta) : Bool := info.flags &&& handleFlagProtectFromClose ≠ 0

section
variable {Obj : Type}

structure Entry (Obj : Type) where
  obj : Option Obj
  info : HandleMeta

def Entry.empty : Entry Obj := ⟨none, ⟨0, 0, .file, 0⟩⟩

def Entry.fill (e : Entry Obj) (obj : Obj) (type : ObjectType) (grantedAccess flags : UInt32) :
    Entry Obj :=
  ⟨some obj, ⟨grantedAccess, flags, type, if e.info.generation = 0 then 1 else e.info.generation⟩⟩

/-- The generation has 16 bits. -/
def Entry.clear (e : Entry Obj) : Entry Obj := ⟨none, ⟨0, 0, .file, (e.info.generation + 1) % 2 ^ 16⟩⟩

/-- The free lists have their back first, the quarantine has its front first. -/
structure Table (Obj : Type) where
  slots : List (Entry Obj)
  freeBelow : List Nat
  freeAbove : List Nat
  quarantine : List Nat
  nextIndex : Nat

namespace Table
variable (t : Table Obj)

def empty : Table Obj := ⟨[], [], [], [], 0⟩

/-- The index that `alloc` uses. -/
def takeIndex : Nat × Table Obj :=
  if t.nextIndex ≤ kCompatMaxIndex then
    (t.nextIndex, { t with
      nextIndex := t.nextIndex + 1
      slots := if t.slots.length ≤ t.nextIndex then t.slots ++ [.empty] else t.slots })
  else
    match t.freeBelow with
    | idx :: rest => (idx, { t with freeBelow := rest })
    | [] =>
      match t.freeAbove with
      | idx :: rest => (idx, { t with freeAbove := rest })
      | [] => (t.slots.length, { t with slots := t.slots ++ [.empty] })

def alloc (obj : Obj) (type : ObjectType) (grantedAccess flags : UInt32) : Nat × Table Obj :=
  (makeHandle t.takeIndex.1, { t.takeIndex.2 with
    slots := t.takeIndex.2.slots.modify t.takeIndex.1 (·.fill obj type grantedAccess flags) })

/-- The open slot at an index. -/
def opened (idx : Nat) : Option (Obj × HandleMeta) :=
  t.slots[idx]?.bind fun e => e.obj.map fun obj => (obj, e.info)

def get (h : Nat) : Option (Obj × HandleMeta) :=
  if h = 0 ∨ isPseudo h = true then none else t.opened (indexOf h)

/-- Where `release` leaves an index. -/
def putIndex (idx : Nat) : Table Obj :=
  if idx ≤ kCompatMaxIndex then
    match t.quarantine ++ [idx] with
    | front :: rest =>
      if kQuarantineLen < (front :: rest).length then
        { t with freeBelow := front :: t.freeBelow, quarantine := rest }
      else { t with quarantine := front :: rest }
    | [] => t
  else { t with freeAbove := idx :: t.freeAbove }

def clearSlot (idx : Nat) : Table Obj := { t with slots := t.slots.modify idx Entry.clear }

/-- What `release` does under the lock: nothing and succeed, refuse, or take the object of the
handle out of the table. -/
inductive Release (Obj : Type) where
  | pseudo
  | refused
  | released (obj : Obj) (t : Table Obj)

def release (h : Nat) : Release Obj :=
  if isPseudo h then .pseudo
  else
    match t.opened (indexOf h) with
    | none => .refused
    | some (obj, info) =>
      if protectedFrom info then .refused
      else .released obj ((t.clearSlot (indexOf h)).putIndex (indexOf h))

def withFlags (e : Entry Obj) (mask value : UInt32) : Entry Obj :=
  let mask := mask &&& (handleFlagInherit ||| handleFlagProtectFromClose)
  { e with info := { e.info with flags := (e.info.flags &&& ~~~mask) ||| (value &&& mask) } }

/-- The table is only there if the handle is an open one. -/
def setInformation (h : Nat) (mask value : UInt32) : Bool × Table Obj :=
  if isPseudo h then (true, t)
  else
    match t.opened (indexOf h) with
    | none => (false, t)
    | some _ => (true, { t with slots := t.slots.modify (indexOf h) (withFlags · mask value) })

def getInformation (h : Nat) : Option UInt32 :=
  if isPseudo h then some 0 else (t.opened (indexOf h)).map fun found => found.2.flags

/-! ## The slots -/

/-- Free slots. -/
def free : List Nat := t.quarantine ++ t.freeBelow ++ t.freeAbove

/-- Every slot is open or free, and only the small ones are in quarantine. -/
structure Kept : Prop where
  next : t.nextIndex = min t.slots.length (kCompatMaxIndex + 1)
  nodup : t.free.Nodup
  mem_free : ∀ idx, idx ∈ t.free ↔ idx < t.slots.length ∧ t.opened idx = none
  below : ∀ idx ∈ t.quarantine ++ t.freeBelow, idx ≤ kCompatMaxIndex
  above : ∀ idx ∈ t.freeAbove, kCompatMaxIndex < idx
  waiting : t.quarantine.length ≤ kQuarantineLen

variable {t} {obj : Obj} {type : ObjectType} {grantedAccess flags : UInt32} {idx : Nat}

theorem opened_append (j : Nat) :
    ({ t with slots := t.slots ++ [.empty] } : Table Obj).opened j = t.opened j := by
  rw [opened, opened, List.getElem?_append]
  split_ifs with hlt
  · rfl
  · rw [List.getElem?_eq_none (Nat.le_of_not_lt hlt)]
    cases j - t.slots.length with
    | zero => rfl
    | succ k => rfl

theorem opened_modify (f : Entry Obj → Entry Obj) (j : Nat) :
    ({ t with slots := t.slots.modify idx f } : Table Obj).opened j =
      if idx = j then (t.slots[j]?.map f).bind fun e => e.obj.map (·, e.info) else t.opened j := by
  rw [opened, opened, List.getElem?_modify]
  split_ifs with heq
  · rfl
  · cases t.slots[j]? with
    | none => rfl
    | some e => rfl

theorem modify_opened {e : Entry Obj} (he : t.slots[idx]? = some e) (f : Entry Obj → Entry Obj) (j : Nat) :
    ({ t with slots := t.slots.modify idx f } : Table Obj).opened j =
      if j = idx then (f e).obj.map (·, (f e).info) else t.opened j := by
  rw [opened_modify]
  by_cases hj : j = idx
  · subst hj
    rw [if_pos rfl, if_pos rfl, he]
    rfl
  · rw [if_neg (Ne.symm hj), if_neg hj]

theorem opened_lt {found : Obj × HandleMeta} (h : t.opened idx = some found) :
    idx < t.slots.length := by
  obtain ⟨e, he, -⟩ := Option.bind_eq_some_iff.mp h
  exact (List.getElem?_eq_some_iff.mp he).1

theorem free_of_perm {t t' : Table Obj} (h : t.free.Nodup) (hperm : t.free.Perm (idx :: t'.free)) :
    t'.free.Nodup ∧ ∀ j, j ∈ t'.free ↔ j ∈ t.free ∧ j ≠ idx := by
  obtain ⟨hnot, hnodup⟩ := List.nodup_cons.mp (hperm.nodup_iff.mp h)
  refine ⟨hnodup, fun j => ?_⟩
  rw [hperm.mem_iff, List.mem_cons]
  constructor
  · exact fun hj => ⟨.inr hj, ne_of_mem_of_not_mem hj hnot⟩
  · rintro ⟨rfl | hj, hne⟩
    · exact absurd rfl hne
    · exact hj

/-- `takeIndex` takes a new slot, or one of the free ones. -/
theorem Kept.takeIndex_cases (h : t.Kept) :
    (t.takeIndex = (t.slots.length, { t with
        slots := t.slots ++ [.empty], nextIndex := min (t.slots.length + 1) (kCompatMaxIndex + 1) }) ∧
      (kCompatMaxIndex < t.slots.length → t.freeBelow = [])) ∨
    (∃ idx rest, t.freeBelow = idx :: rest ∧ t.takeIndex = (idx, { t with freeBelow := rest })) ∨
    kCompatMaxIndex < t.slots.length ∧ t.freeBelow = [] ∧
      ∃ idx rest, t.freeAbove = idx :: rest ∧ t.takeIndex = (idx, { t with freeAbove := rest }) := by
  have hnext := h.next
  unfold takeIndex
  by_cases hle : t.nextIndex ≤ kCompatMaxIndex
  · have hlen : t.nextIndex = t.slots.length := by omega
    left
    refine ⟨?_, fun hlt => ?_⟩
    · rw [if_pos hle, if_pos hlen.ge, hlen]
      congr
      omega
    · omega
  · have hlt : kCompatMaxIndex < t.slots.length := by omega
    rw [if_neg hle]
    cases hbelow : t.freeBelow with
    | cons idx rest => exact .inr (.inl ⟨idx, rest, rfl, rfl⟩)
    | nil =>
      cases habove : t.freeAbove with
      | cons idx rest => exact .inr (.inr ⟨hlt, rfl, idx, rest, rfl, rfl⟩)
      | nil =>
        have hsame : t.nextIndex = min (t.slots.length + 1) (kCompatMaxIndex + 1) := by omega
        exact .inl ⟨by simp [← hsame], fun _ => rfl⟩

/-- What `takeIndex` leaves. -/
structure Taken (t t' : Table Obj) (idx : Nat) : Prop where
  next : t'.nextIndex = min t'.slots.length (kCompatMaxIndex + 1)
  nodup : t'.free.Nodup
  mem_free : ∀ j, j ∈ t'.free ↔ j ∈ t.free ∧ j ≠ idx
  quarantine : t'.quarantine = t.quarantine
  below : t'.freeBelow ⊆ t.freeBelow
  above : t'.freeAbove ⊆ t.freeAbove
  opened : ∀ j, t'.opened j = t.opened j
  grown : t'.slots.length = t.slots.length ∨
    t'.slots.length = t.slots.length + 1 ∧ idx = t.slots.length
  inside : idx < t'.slots.length
  closed : t.opened idx = none
  last : kCompatMaxIndex < idx → kCompatMaxIndex < t.slots.length ∧ t.freeBelow = []

theorem Kept.closed_of_le (h : t.Kept) {j : Nat} (hj : t.slots.length ≤ j) :
    t.opened j = none ∧ j ∉ t.free := by
  constructor
  · rw [Table.opened, List.getElem?_eq_none hj]
    rfl
  · rw [h.mem_free]
    omega

theorem Kept.takeIndex (h : t.Kept) : Taken t t.takeIndex.2 t.takeIndex.1 := by
  rcases h.takeIndex_cases with ⟨heq, hbelow⟩ | ⟨idx, rest, hbelow, heq⟩ |
    ⟨hlt, hnil, idx, rest, habove, heq⟩
  · obtain ⟨hclosed, hfree⟩ := h.closed_of_le (Nat.le_refl t.slots.length)
    rw [heq]
    exact {
      next := by simp
      nodup := h.nodup
      mem_free := fun j => ⟨fun hj => ⟨hj, ne_of_mem_of_not_mem hj hfree⟩, And.left⟩
      quarantine := rfl
      below := List.Subset.refl _
      above := List.Subset.refl _
      opened := opened_append
      grown := .inr ⟨List.length_append, rfl⟩
      inside := by simp
      closed := hclosed
      last := fun hlt => ⟨hlt, hbelow hlt⟩ }
  · have hperm : t.free.Perm (idx :: ({ t with freeBelow := rest } : Table Obj).free) := by
      rw [free, free, hbelow, List.append_assoc, List.append_assoc]
      exact List.perm_middle
    obtain ⟨hnodup, hmem⟩ := free_of_perm h.nodup hperm
    obtain ⟨hinside, hclosed⟩ := (h.mem_free idx).mp (by simp [free, hbelow])
    have hsmall := h.below idx (by simp [hbelow])
    rw [heq]
    exact {
      next := h.next
      nodup := hnodup
      mem_free := hmem
      quarantine := rfl
      below := hbelow ▸ List.subset_cons_self idx rest
      above := List.Subset.refl _
      opened := fun _ => rfl
      grown := .inl rfl
      inside := hinside
      closed := hclosed
      last := fun hlt => absurd hsmall (Nat.not_le.mpr hlt) }
  · have hperm : t.free.Perm (idx :: ({ t with freeAbove := rest } : Table Obj).free) := by
      rw [free, free, habove]
      exact List.perm_middle
    obtain ⟨hnodup, hmem⟩ := free_of_perm h.nodup hperm
    obtain ⟨hinside, hclosed⟩ := (h.mem_free idx).mp (by simp [free, habove])
    rw [heq]
    exact {
      next := h.next
      nodup := hnodup
      mem_free := hmem
      quarantine := rfl
      below := List.Subset.refl _
      above := habove ▸ List.subset_cons_self idx rest
      opened := fun _ => rfl
      grown := .inl rfl
      inside := hinside
      closed := hclosed
      last := fun _ => ⟨hlt, hnil⟩ }

/-- The slot of a handle that `alloc` gives is a closed one, and now holds the object. -/
structure Allocated (t t' : Table Obj) (idx : Nat) (obj : Obj) (type : ObjectType)
    (grantedAccess flags : UInt32) : Prop where
  kept : t'.Kept
  closed : t.opened idx = none
  opened : ∃ generation, ∀ j, t'.opened j =
    if j = idx then some (obj, ⟨grantedAccess, flags, type, generation⟩) else t.opened j
  grown : t.slots.length ≤ t'.slots.length ∧ t'.slots.length ≤ t.slots.length + 1
  inside : idx < t'.slots.length
  quarantine : t'.quarantine = t.quarantine
  waiting : idx ∉ t.quarantine
  last : kCompatMaxIndex < idx → kCompatMaxIndex < t.slots.length ∧ t.freeBelow = []

theorem Kept.alloc (h : t.Kept) (obj : Obj) (type : ObjectType) (grantedAccess flags : UInt32) :
    ∃ idx, (t.alloc obj type grantedAccess flags).1 = makeHandle idx ∧
      Allocated t (t.alloc obj type grantedAccess flags).2 idx obj type grantedAccess flags := by
  refine ⟨t.takeIndex.1, rfl, ?_⟩
  have htaken := h.takeIndex
  rw [Table.alloc]
  generalize t.takeIndex.1 = idx at htaken ⊢
  generalize t.takeIndex.2 = t' at htaken ⊢
  obtain ⟨e, hslot⟩ : ∃ e, t'.slots[idx]? = some e := ⟨_, List.getElem?_eq_getElem htaken.inside⟩
  have hopened : ∀ j, ({ t' with
      slots := t'.slots.modify idx (·.fill obj type grantedAccess flags) } : Table Obj).opened j =
      if j = idx then some (obj, (e.fill obj type grantedAccess flags).info) else t.opened j := by
    intro j
    rw [modify_opened hslot, htaken.opened]
    rfl
  have hgrown := htaken.grown
  have hmem : ∀ j, j ∈ t'.free ↔ j < t'.slots.length ∧ j ≠ idx ∧ t.opened j = none := by
    intro j
    rw [htaken.mem_free, h.mem_free]
    constructor
    · rintro ⟨⟨hlt, hclosed⟩, hne⟩
      exact ⟨by omega, hne, hclosed⟩
    · rintro ⟨hlt, hne, hclosed⟩
      exact ⟨⟨by omega, hclosed⟩, hne⟩
  exact {
    kept := {
      next := by simpa using htaken.next
      nodup := htaken.nodup
      mem_free := by
        intro j
        change j ∈ t'.free ↔ _
        rw [hopened, List.length_modify, hmem]
        by_cases hj : j = idx
        · simp [hj]
        · simp [hj]
      below := by
        intro j hj
        change j ∈ t'.quarantine ++ t'.freeBelow at hj
        rw [htaken.quarantine] at hj
        exact h.below j (List.append_subset.mpr ⟨List.subset_append_left _ _,
          fun i hi => List.mem_append_right _ (htaken.below hi)⟩ hj)
      above := fun j hj => h.above j (htaken.above hj)
      waiting := htaken.quarantine ▸ h.waiting }
    closed := htaken.closed
    opened := ⟨_, hopened⟩
    grown := by
      rw [List.length_modify]
      omega
    inside := by simpa using htaken.inside
    quarantine := htaken.quarantine
    waiting := by
      intro hwaiting
      rw [← htaken.quarantine] at hwaiting
      have hfree : idx ∈ t'.free := List.mem_append_left _ (List.mem_append_left _ hwaiting)
      exact ((hmem idx).mp hfree).2.1 rfl
    last := htaken.last }

/-- A small index goes to the end of the quarantine, whose front leaves it when it is full. -/
theorem putIndex_cases (h : t.quarantine.length ≤ kQuarantineLen) (idx : Nat) :
    (idx ≤ kCompatMaxIndex ∧ t.quarantine.length < kQuarantineLen ∧
      t.putIndex idx = { t with quarantine := t.quarantine ++ [idx] }) ∨
    (idx ≤ kCompatMaxIndex ∧ t.quarantine.length = kQuarantineLen ∧
      ∃ front rest, t.quarantine ++ [idx] = front :: rest ∧
        t.putIndex idx = { t with freeBelow := front :: t.freeBelow, quarantine := rest }) ∨
    kCompatMaxIndex < idx ∧ t.putIndex idx = { t with freeAbove := idx :: t.freeAbove } := by
  unfold putIndex
  by_cases hle : idx ≤ kCompatMaxIndex
  · rw [if_pos hle]
    have hlength : (t.quarantine ++ [idx]).length = t.quarantine.length + 1 := List.length_append
    generalize t.quarantine ++ [idx] = waiting at hlength
    cases waiting with
    | nil => cases hlength
    | cons front rest =>
      by_cases hfull : kQuarantineLen < (front :: rest).length
      · exact .inr (.inl ⟨hle, by omega, front, rest, rfl, if_pos hfull⟩)
      · exact .inl ⟨hle, by omega, if_neg hfull⟩
  · exact .inr (.inr ⟨by omega, if_neg hle⟩)

/-- The slot of a handle that was given back is closed, and waits if the handle is small. -/
structure Closed (t t' : Table Obj) (idx : Nat) : Prop where
  kept : t'.Kept
  opened : ∀ j, t'.opened j = if j = idx then none else t.opened j
  grown : t'.slots.length = t.slots.length
  waits : idx ≤ kCompatMaxIndex → t'.quarantine = t.quarantine ++ [idx] ∨
    t.quarantine.length = kQuarantineLen ∧ ∃ front, t.quarantine ++ [idx] = front :: t'.quarantine
  above : kCompatMaxIndex < idx → t'.quarantine = t.quarantine

/-- `release` refuses, or closes the slot of the handle. -/
theorem release_cases (t : Table Obj) (h : Nat) :
    (isPseudo h = true ∧ t.release h = .pseudo) ∨
    isPseudo h = false ∧
      (((∀ obj info, t.opened (indexOf h) = some (obj, info) → protectedFrom info = true) ∧
        t.release h = .refused) ∨
      ∃ obj info, t.opened (indexOf h) = some (obj, info) ∧ protectedFrom info = false ∧
        t.release h = .released obj ((t.clearSlot (indexOf h)).putIndex (indexOf h))) := by
  rw [release]
  cases hpseudo : isPseudo h with
  | true => exact .inl ⟨rfl, rfl⟩
  | false =>
    right
    refine ⟨rfl, ?_⟩
    rw [if_neg Bool.false_ne_true]
    cases hfound : t.opened (indexOf h) with
    | none =>
      left
      refine ⟨?_, rfl⟩
      intro obj info hnone
      cases hnone
    | some found =>
      obtain ⟨obj, info⟩ := found
      cases hprotected : protectedFrom info with
      | true =>
        left
        refine ⟨?_, by simp [hprotected]⟩
        rintro obj' info' hsome
        cases hsome
        exact hprotected
      | false => exact .inr ⟨obj, info, rfl, hprotected, by simp [hprotected]⟩

theorem clearSlot_opened (idx j : Nat) :
    (t.clearSlot idx).opened j = if j = idx then none else t.opened j := by
  rw [clearSlot, opened_modify]
  by_cases hj : j = idx
  · subst hj
    rw [if_pos rfl, if_pos rfl]
    cases t.slots[j]? with
    | none => rfl
    | some e => rfl
  · rw [if_neg (Ne.symm hj), if_neg hj]

/-- A table with a slot closed, wherever its index has gone. -/
theorem Kept.closeSlot (h : t.Kept) {found : Obj × HandleMeta} (hfound : t.opened idx = some found)
    {t' : Table Obj} (hfree : t'.free.Perm (idx :: t.free))
    (hslots : t'.slots = (t.clearSlot idx).slots) (hnext : t'.nextIndex = t.nextIndex)
    (hbelow : ∀ j ∈ t'.quarantine ++ t'.freeBelow, j ≤ kCompatMaxIndex)
    (habove : ∀ j ∈ t'.freeAbove, kCompatMaxIndex < j)
    (hwaiting : t'.quarantine.length ≤ kQuarantineLen) :
    t'.Kept ∧ (∀ j, t'.opened j = if j = idx then none else t.opened j) ∧
      t'.slots.length = t.slots.length := by
  have hlt := opened_lt hfound
  have hnot : idx ∉ t.free := by
    intro hmem
    have hclosed := ((h.mem_free idx).mp hmem).2
    rw [hfound] at hclosed
    cases hclosed
  have hlength : t'.slots.length = t.slots.length := by
    rw [hslots, clearSlot, List.length_modify]
  have hopened : ∀ j, t'.opened j = if j = idx then none else t.opened j := by
    intro j
    rw [← clearSlot_opened, opened, opened, hslots]
  refine ⟨⟨?_, ?_, ?_, hbelow, habove, hwaiting⟩, hopened, hlength⟩
  · rw [hnext, hlength, h.next]
  · exact hfree.nodup_iff.mpr (List.nodup_cons.mpr ⟨hnot, h.nodup⟩)
  · intro j
    rw [hfree.mem_iff, List.mem_cons, h.mem_free, hopened, hlength]
    by_cases hj : j = idx
    · simp [hj, hlt]
    · simp [hj]

theorem Kept.close (h : t.Kept) {found : Obj × HandleMeta} (hfound : t.opened idx = some found) :
    Closed t ((t.clearSlot idx).putIndex idx) idx := by
  have hbelow : ∀ j ∈ t.quarantine ++ t.freeBelow, j ≤ kCompatMaxIndex := h.below
  have hwaiting : t.quarantine.length ≤ kQuarantineLen := h.waiting
  rcases putIndex_cases (t := t.clearSlot idx) h.waiting idx with ⟨hle, hshort, heq⟩ |
    ⟨hle, hfull, front, rest, hfront, heq⟩ | ⟨hlt, heq⟩
  · rw [heq]
    have hfree : (({ t.clearSlot idx with
        quarantine := t.quarantine ++ [idx] } : Table Obj).free).Perm (idx :: t.free) := by
      simp only [free, List.append_assoc, List.singleton_append]
      exact List.perm_middle
    obtain ⟨hkept, hopened, hlength⟩ := h.closeSlot hfound hfree rfl rfl
      (by
        intro j hj
        change j ∈ t.quarantine ++ [idx] ++ t.freeBelow at hj
        have hcons : j ∈ idx :: (t.quarantine ++ t.freeBelow) := by
          simpa [or_left_comm, or_assoc] using hj
        rcases List.mem_cons.mp hcons with rfl | hj
        · exact hle
        · exact hbelow j hj)
      h.above (by
        change (t.quarantine ++ [idx]).length ≤ kQuarantineLen
        rw [List.length_append]
        exact hshort)
    exact ⟨hkept, hopened, hlength, fun _ => .inl rfl, fun hlt => absurd hle (Nat.not_le.mpr hlt)⟩
  · rw [heq]
    have hmove : (rest ++ front :: t.freeBelow).Perm (idx :: (t.quarantine ++ t.freeBelow)) := by
      have hcons : (front :: rest ++ t.freeBelow).Perm (idx :: (t.quarantine ++ t.freeBelow)) := by
        rw [← hfront, List.append_assoc]
        exact List.perm_middle
      exact List.perm_middle.trans hcons
    have hfree : (({ t.clearSlot idx with
        freeBelow := front :: t.freeBelow, quarantine := rest } : Table Obj).free).Perm
          (idx :: t.free) := by
      simp only [free]
      exact hmove.append_right _
    obtain ⟨hkept, hopened, hlength⟩ := h.closeSlot hfound hfree rfl rfl
      (by
        intro j hj
        rcases List.mem_cons.mp (hmove.mem_iff.mp hj) with rfl | hj
        · exact hle
        · exact hbelow j hj)
      h.above (by
        have hlength := congrArg List.length hfront
        simp only [List.length_append, List.length_cons, List.length_nil] at hlength
        change rest.length ≤ kQuarantineLen
        change t.quarantine.length + 1 = _ at hlength
        omega)
    exact ⟨hkept, hopened, hlength, fun _ => .inr ⟨hfull, front, hfront⟩,
      fun hlt => absurd hle (Nat.not_le.mpr hlt)⟩
  · rw [heq]
    have hfree : (({ t.clearSlot idx with
        freeAbove := idx :: t.freeAbove } : Table Obj).free).Perm (idx :: t.free) := by
      simp only [free]
      exact List.perm_middle
    obtain ⟨hkept, hopened, hlength⟩ := h.closeSlot hfound hfree rfl rfl hbelow
      (by
        intro j hj
        rcases List.mem_cons.mp hj with rfl | hj
        · exact hlt
        · exact h.above j hj)
      h.waiting
    exact ⟨hkept, hopened, hlength, fun hle => absurd hle (Nat.not_le.mpr hlt), fun _ => rfl⟩

/-- `setInformation` changes nothing, or the flags of an open slot. -/
theorem setInformation_cases (t : Table Obj) (h : Nat) (mask value : UInt32) :
    (isPseudo h = true ∧ t.setInformation h mask value = (true, t)) ∨
    isPseudo h = false ∧
      ((t.opened (indexOf h) = none ∧ t.setInformation h mask value = (false, t)) ∨
      ∃ obj info, t.opened (indexOf h) = some (obj, info) ∧ t.setInformation h mask value =
        (true, { t with slots := t.slots.modify (indexOf h) (withFlags · mask value) })) := by
  rw [setInformation]
  cases hpseudo : isPseudo h with
  | true => exact .inl ⟨rfl, rfl⟩
  | false =>
    right
    refine ⟨rfl, ?_⟩
    rw [if_neg Bool.false_ne_true]
    cases hfound : t.opened (indexOf h) with
    | none => exact .inl ⟨rfl, rfl⟩
    | some found => exact .inr ⟨found.1, found.2, rfl, rfl⟩

theorem withFlags_opened {h : Nat} {obj : Obj} {info : HandleMeta}
    (hfound : t.opened h = some (obj, info)) (mask value : UInt32) (j : Nat) :
    ({ t with slots := t.slots.modify h (withFlags · mask value) } : Table Obj).opened j =
      if j = h then some (obj, (withFlags ⟨some obj, info⟩ mask value).info) else t.opened j := by
  obtain ⟨⟨held, info'⟩, he, hheld⟩ := Option.bind_eq_some_iff.mp hfound
  obtain ⟨_, rfl, hpair⟩ := Option.map_eq_some_iff.mp hheld
  cases hpair
  rw [modify_opened he]
  rfl

theorem Kept.setInformation (h : t.Kept) (k : Nat) (mask value : UInt32) :
    (t.setInformation k mask value).2.Kept ∧
      (t.setInformation k mask value).2.slots.length = t.slots.length ∧
      ∀ j, ((t.setInformation k mask value).2.opened j).map Prod.fst = (t.opened j).map Prod.fst := by
  rcases t.setInformation_cases k mask value with ⟨-, heq⟩ | ⟨-, ⟨-, heq⟩ | ⟨obj, info, hfound, heq⟩⟩
  · rw [heq]
    exact ⟨h, rfl, fun _ => rfl⟩
  · rw [heq]
    exact ⟨h, rfl, fun _ => rfl⟩
  · have hopened := withFlags_opened hfound mask value
    have hsame : ∀ j, ((t.setInformation k mask value).2.opened j).map Prod.fst =
        (t.opened j).map Prod.fst := by
      intro j
      rw [heq, hopened]
      by_cases hj : j = indexOf k
      · rw [if_pos hj, hj, hfound]
        rfl
      · rw [if_neg hj]
    have hlength : (t.setInformation k mask value).2.slots.length = t.slots.length := by
      rw [heq, List.length_modify]
    refine ⟨?_, hlength, hsame⟩
    have hmem : ∀ j, (t.setInformation k mask value).2.opened j = none ↔ t.opened j = none := by
      intro j
      rw [← Option.map_eq_none_iff, hsame, Option.map_eq_none_iff]
    rw [heq] at hlength hmem ⊢
    refine ⟨?_, h.nodup, ?_, h.below, h.above, h.waiting⟩
    · rw [hlength]
      exact h.next
    · intro j
      rw [hlength, hmem]
      exact h.mem_free j

theorem empty_kept : (empty : Table Obj).Kept where
  next := rfl
  nodup := List.nodup_nil
  mem_free _ := by simp [free, empty]
  below _ h := by cases h
  above _ h := by cases h
  waiting := Nat.zero_le _

/-! ## Handles -/

theorem indexOf_makeHandle (h : idx + 1 < 2 ^ 29) :
    indexOf (makeHandle idx) = idx ∧ makeHandle idx ≠ 0 ∧ isPseudo (makeHandle idx) = false := by
  have hmod : makeHandle idx = (idx + 1) * 4 := by
    rw [makeHandle]
    omega
  rw [hmod, indexOf, isPseudo]
  refine ⟨?_, by omega, by simpa using by omega⟩
  rw [if_neg (by omega)]
  omega

/-- The handle of a slot is the only one for it. -/
theorem opened_indexOf {h : Nat} {found : Obj × HandleMeta} (hsmall : t.slots.length < 2 ^ 29)
    (hpseudo : isPseudo h = false) (hfound : t.opened (indexOf h) = some found) :
    h ≠ 0 ∧ h = makeHandle (indexOf h) := by
  have hlt := opened_lt hfound
  have hlow : h < 2 ^ 31 := by simpa [isPseudo] using hpseudo
  rw [indexOf] at hlt ⊢
  split_ifs at hlt ⊢ with hbad
  · omega
  · refine ⟨by omega, ?_⟩
    rw [makeHandle]
    omega

theorem get_real (hsmall : t.slots.length < 2 ^ 29) {h : Nat} (hreal : isPseudo h = false) :
    t.get h = t.opened (indexOf h) := by
  rw [get, hreal]
  by_cases hzero : h = 0
  · rw [if_pos (.inl hzero), opened, indexOf, if_pos (.inl hzero), List.getElem?_eq_none (by omega)]
    rfl
  · rw [if_neg (by simpa using hzero)]

theorem get_makeHandle (h : idx + 1 < 2 ^ 29) : t.get (makeHandle idx) = t.opened idx := by
  obtain ⟨hindex, hzero, hpseudo⟩ := indexOf_makeHandle h
  rw [get, hindex, hpseudo, if_neg (by simpa using hzero)]

theorem get_eq_some (hsmall : t.slots.length < 2 ^ 29) {h : Nat} {found : Obj × HandleMeta} :
    t.get h = some found ↔ ∃ idx, h = makeHandle idx ∧ t.opened idx = some found := by
  constructor
  · intro hget
    rw [get] at hget
    split_ifs at hget with hbad
    push Not at hbad
    exact ⟨indexOf h, (opened_indexOf hsmall (by simpa using hbad.2) hget).2, hget⟩
  · rintro ⟨idx, rfl, hfound⟩
    have hlt := opened_lt hfound
    rw [get_makeHandle (by omega), hfound]

/-- A slot that changes is a handle that changes. -/
theorem get_update {t' : Table Obj} (hsmall : t'.slots.length < 2 ^ 29)
    (hgrown : t.slots.length ≤ t'.slots.length) (hidx : idx < t'.slots.length)
    {found : Option (Obj × HandleMeta)}
    (h : ∀ j, t'.opened j = if j = idx then found else t.opened j) :
    t'.get = Function.update t.get (makeHandle idx) found := by
  funext k
  by_cases hk : k = makeHandle idx
  · subst hk
    rw [get_makeHandle (by omega), h, if_pos rfl, Function.update_self]
  · rw [Function.update_of_ne hk]
    apply Option.ext
    intro x
    rw [get_eq_some hsmall, get_eq_some (by omega)]
    have hne : ∀ j, k = makeHandle j → j ≠ idx := by
      rintro j hj rfl
      exact hk hj
    constructor
    · rintro ⟨j, hj, hx⟩
      rw [h, if_neg (hne j hj)] at hx
      exact ⟨j, hj, hx⟩
    · rintro ⟨j, hj, hx⟩
      refine ⟨j, hj, ?_⟩
      rwa [h, if_neg (hne j hj)]

end Table

end

end MeleeHarness.Wibo
