import MeleeHarness.Lib.Interleave
import MeleeHarness.Wibo.HandleTable

/-!
# Objects that threads share

The threads of a guest make objects, name them, open and close handles to them and copy
handles. An object is counted: by the handles to it and by the pins that threads hold on it. Each
section under a lock is one atomic step, and so is each change of a count.

* `threadStep_change`: what a step can do;
* `Sound.move`: the counts of an object are exact, and a name leads to an object that is there;
* `objects_safe`: no thread touches an object that was deleted, in any interleaving.
-/

namespace MeleeHarness.Wibo

open Lib

structure ObjectBase where
  type : ObjectType
  pointerCount : Nat
  handleCount : Nat
  deriving DecidableEq, Repr

/-- The namespace does not count the objects it names. -/
structure NameEntry where
  obj : Nat
  permanent : Bool
  deriving DecidableEq, Repr

section
variable {N : Type}

/-- An address is used once, and empty when its object is deleted. -/
structure Shared (N : Type) where
  heap : Nat → Option ObjectBase
  fresh : Nat
  table : Table Nat
  names : List (N × NameEntry)

def Shared.initial : Shared N := ⟨fun _ => none, 0, Table.empty, []⟩

inductive Event where
  | touchedDeleted (obj : Nat)
  | deleted (obj : Nat)
  deriving DecidableEq, Repr

namespace Shared
variable (s : Shared N) (obj : Nat)

/-- Reading a field of an object. -/
def touch : List Event := if (s.heap obj).isSome then [] else [.touchedDeleted obj]

def ref : Shared N × List Event :=
  match s.heap obj with
  | none => (s, [.touchedDeleted obj])
  | some o => ({ s with
      heap := Function.update s.heap obj (some { o with pointerCount := o.pointerCount + 1 }) }, [])

def deref : Shared N × List Event :=
  match s.heap obj with
  | none => (s, [.touchedDeleted obj])
  | some o =>
    if o.pointerCount = 1 then ({ s with heap := Function.update s.heap obj none }, [.deleted obj])
    else ({ s with
      heap := Function.update s.heap obj (some { o with pointerCount := o.pointerCount - 1 }) }, [])

/-- A new object, with a pin on it. -/
def new (type : ObjectType) : Shared N :=
  { s with heap := Function.update s.heap s.fresh (some ⟨type, 1, 0⟩), fresh := s.fresh + 1 }

/-- The pin that is given becomes the handle's. -/
def alloc (grantedAccess flags : UInt32) : Shared N × List Event :=
  match s.heap obj with
  | none => (s, [.touchedDeleted obj])
  | some o => ({ s with
      heap := Function.update s.heap obj (some { o with handleCount := o.handleCount + 1 })
      table := (s.table.alloc obj o.type grantedAccess flags).2 }, [])

/-- The object that a handle is taken from, and whether it was its last one. -/
def close (table : Table Nat) : Shared N × Bool × List Event :=
  match s.heap obj with
  | none => (s, false, [.touchedDeleted obj])
  | some o => ({ s with
      heap := Function.update s.heap obj (some { o with handleCount := o.handleCount - 1 })
      table := table }, o.handleCount - 1 = 0, [])

/-- The object of a name. -/
def named [DecidableEq N] (name : N) : Option Nat := (s.names.find? (·.1 = name)).map (·.2.obj)

def insert (name : N) : Shared N := { s with names := s.names ++ [(name, ⟨obj, false⟩)] }

/-- `Namespace::remove`, which erases one name. -/
def remove : Shared N :=
  { s with names := s.names.eraseP fun entry => entry.2.obj = obj ∧ entry.2.permanent = false }

end Shared

/-- What a thread still has to do: of `getOrCreate` and `alloc`, of `duplicateTo`, of a call that
uses an object, or of `release` when the lock is free again. -/
inductive Task (N : Type) where
  | idle
  | make (name : Option N) (type : ObjectType) (grantedAccess flags : UInt32)
  | insert (name : N) (type : ObjectType) (obj : Nat) (grantedAccess flags : UInt32)
  | again (name : N) (type : ObjectType) (obj : Nat) (grantedAccess flags : UInt32)
  | downcast (obj : Nat) (type : ObjectType) (mine : Option Nat) (grantedAccess flags : UInt32)
  | alloc (obj : Nat) (created : Bool) (grantedAccess flags : UInt32) (source : Option Nat)
  | use (obj : Nat)
  | copy (obj : Nat) (source : Nat) (info : HandleMeta) (desiredAccess : UInt32) (inherit : Bool)
      (options : UInt32)
  | closeSource (h : Nat)
  | zero (obj : Nat)
  | drop (obj : Nat) (next : Task N)

/-- The call a thread begins, or how it goes on. -/
inductive Input (N : Type) where
  | create (name : Option N) (type : ObjectType) (grantedAccess flags : UInt32)
  | use (h : Nat)
  | close (h : Nat)
  | duplicate (h : Nat) (desiredAccess : UInt32) (inherit : Bool) (options : UInt32)
  | setInformation (h : Nat) (mask value : UInt32)
  | refuse
  | touch
  | go

def duplicateCloseSource : UInt32 := 0x1

def duplicateSameAccess : UInt32 := 0x2

/-- The end of `getOrCreate` for an object that was there before: if it is of another type there is
no handle, and an object of the thread's own is dropped in any case. -/
def downcastTask (matched : Bool) (obj : Nat) (mine : Option Nat) (grantedAccess flags : UInt32) :
    Task N :=
  match matched, mine with
  | true, none => .alloc obj false grantedAccess flags none
  | true, some own => .drop own (.alloc obj false grantedAccess flags none)
  | false, none => .drop obj .idle
  | false, some own => .drop obj (.drop own .idle)

/-- `duplicateTo` within one table, after it has pinned the object. -/
def copyTask (obj source : Nat) (info : HandleMeta) (desiredAccess : UInt32) (inherit : Bool)
    (options : UInt32) : Task N :=
  let closeSource : Bool := options &&& duplicateCloseSource ≠ 0
  let effAccess := if options &&& duplicateSameAccess ≠ 0 then info.grantedAccess
    else desiredAccess &&& info.grantedAccess
  let flags := if inherit then handleFlagInherit else 0
  if closeSource && protectedFrom info then .drop obj .idle
  else if closeSource && (effAccess = info.grantedAccess && flags = info.flags) then .drop obj .idle
  else .alloc obj false effAccess flags (if closeSource then some source else none)

/-- The locked section of `release`. -/
def closeHandle (s : Shared N) (h : Nat) : Shared N × Task N × List Event :=
  match s.table.release h with
  | .pseudo => (s, .idle, [])
  | .refused => (s, .idle, [])
  | .released obj table =>
    ((s.close obj table).1, if (s.close obj table).2.1 then .zero obj else .drop obj .idle,
      (s.close obj table).2.2)

/-- One atomic step of a thread. -/
def threadStep [DecidableEq N] (s : Shared N) (task : Task N) (x : Input N) :
    Option (Shared N × Task N × List Event) :=
  match task, x with
  | .idle, .create name type grantedAccess flags =>
    match name.bind s.named with
    | none => some (s, .make name type grantedAccess flags, [])
    | some obj => some ((s.ref obj).1, .downcast obj type none grantedAccess flags, (s.ref obj).2)
  | .make _ _ _ _, .refuse => some (s, .idle, [])
  | .make none type grantedAccess flags, .go =>
    some (s.new type, .alloc s.fresh true grantedAccess flags none, [])
  | .make (some name) type grantedAccess flags, .go =>
    some (s.new type, .insert name type s.fresh grantedAccess flags, [])
  | .insert name type obj grantedAccess flags, .go =>
    match s.named name with
    | none => some (s.insert obj name, .alloc obj true grantedAccess flags none, [])
    | some _ => some (s, .again name type obj grantedAccess flags, [])
  | .again name type obj grantedAccess flags, .go =>
    match s.named name with
    | none => some (s, .drop obj .idle, [])
    | some other =>
      some ((s.ref other).1, .downcast other type (some obj) grantedAccess flags, (s.ref other).2)
  | .downcast obj type mine grantedAccess flags, .go =>
    some (s, downcastTask ((s.heap obj).map (·.type) = some type) obj mine grantedAccess flags,
      s.touch obj)
  | .alloc obj _ grantedAccess flags source, .go =>
    some ((s.alloc obj grantedAccess flags).1, source.elim .idle .closeSource,
      (s.alloc obj grantedAccess flags).2)
  | .idle, .use h =>
    match s.table.get h with
    | none => some (s, .idle, [])
    | some (obj, _) => some ((s.ref obj).1, .use obj, (s.ref obj).2)
  | .use obj, .touch => some (s, .use obj, s.touch obj)
  | .use obj, .go => some (s, .drop obj .idle, [])
  | .idle, .duplicate h desiredAccess inherit options =>
    match s.table.get h with
    | none => some (s, .idle, [])
    | some (obj, info) =>
      some ((s.ref obj).1, .copy obj h info desiredAccess inherit options, (s.ref obj).2)
  | .copy obj source info desiredAccess inherit options, .go =>
    some (s, copyTask obj source info desiredAccess inherit options, [])
  | .idle, .close h => some (closeHandle s h)
  | .closeSource h, .go => some (closeHandle s h)
  | .zero obj, .go => some (s.remove obj, .drop obj .idle, [])
  | .drop obj next, .go => some ((s.deref obj).1, next, (s.deref obj).2)
  | .idle, .setInformation h mask value =>
    some ({ s with table := (s.table.setInformation h mask value).2 }, .idle, [])
  | _, _ => none

/-! ## What a step can do -/

/-- The pins of a thread. -/
def Task.held : Task N → List Nat
  | .idle | .make .. | .closeSource _ => []
  | .insert _ _ obj _ _ | .again _ _ obj _ _ | .alloc obj _ _ _ _ | .use obj | .copy obj _ _ _ _ _
  | .zero obj => [obj]
  | .downcast obj _ mine _ _ => obj :: mine.toList
  | .drop obj next => obj :: next.held

/-- The object whose name is good as long as the thread has not gone on. -/
def Task.vouches : Task N → Option Nat
  | .alloc obj true _ _ _ | .zero obj => some obj
  | _ => none

/-- The object that only this thread knows. -/
def Task.inserts : Task N → Option Nat
  | .insert _ _ obj _ _ => some obj
  | .drop _ next => next.inserts
  | _ => none

/-- The slots that hold an object. -/
def Table.holders (t : Table Nat) (obj : Nat) : Finset Nat :=
  (Finset.range t.slots.length).filter fun idx => (t.opened idx).map Prod.fst = some obj

theorem Table.mem_holders {t : Table Nat} {obj idx : Nat} :
    idx ∈ t.holders obj ↔ (t.opened idx).map Prod.fst = some obj := by
  rw [holders, Finset.mem_filter, Finset.mem_range, and_iff_right_iff_imp]
  intro h
  obtain ⟨found, hfound, -⟩ := Option.map_eq_some_iff.mp h
  exact opened_lt hfound

/-- The object is named or in a slot, so that a thread can come to it. -/
def Shared.Known (s : Shared N) (obj : Nat) : Prop :=
  (∃ entry ∈ s.names, entry.2.obj = obj) ∨ (s.table.holders obj).Nonempty

inductive Change [DecidableEq N] (s : Shared N) : Task N → Shared N → Task N → List Event → Prop
  | turn {task next : Task N} (same : next.held = task.held) (silent : task.vouches = none)
      (quiet : next.inserts = none) :
      Change s task s next []
  | touch {task next : Task N} (obj : Nat) (mine : obj ∈ task.held)
      (same : next.held.Perm task.held) (silent : task.vouches = none)
      (quiet : next.inserts = none) :
      Change s task s next (s.touch obj)
  | pin {task next : Task N} (obj : Nat) (known : s.Known obj) (held : next.held = obj :: task.held)
      (silent : task.vouches = none)
      (quiet : next.inserts = none) :
      Change s task (s.ref obj).1 next (s.ref obj).2
  | drop (obj : Nat) (next : Task N) :
      Change s (.drop obj next) (s.deref obj).1 next (s.deref obj).2
  | new {task next : Task N} (type : ObjectType) (held : next.held = [s.fresh])
      (free : task.held = []) (silent : task.vouches = none) :
      Change s task (s.new type) next []
  | insert (name : N) (type : ObjectType) (obj : Nat) (grantedAccess flags : UInt32)
      (unnamed : s.named name = none) :
      Change s (.insert name type obj grantedAccess flags) (s.insert obj name)
        (.alloc obj true grantedAccess flags none) []
  | alloc {next : Task N} (obj : Nat) (created : Bool) (grantedAccess flags : UInt32)
      (source : Option Nat) (free : next.held = [])
      (quiet : next.inserts = none) :
      Change s (.alloc obj created grantedAccess flags source) (s.alloc obj grantedAccess flags).1
        next (s.alloc obj grantedAccess flags).2
  | close {task : Task N} (idx obj : Nat) (info : HandleMeta)
      (found : s.table.opened idx = some (obj, info)) (free : task.held = [])
      (silent : task.vouches = none) :
      Change s task (s.close obj ((s.table.clearSlot idx).putIndex idx)).1
        (if (s.close obj ((s.table.clearSlot idx).putIndex idx)).2.1 then .zero obj
          else .drop obj .idle)
        (s.close obj ((s.table.clearSlot idx).putIndex idx)).2.2
  | zero (obj : Nat) : Change s (.zero obj) (s.remove obj) (.drop obj .idle) []
  | setInformation (h : Nat) (mask value : UInt32) :
      Change s .idle { s with table := (s.table.setInformation h mask value).2 } .idle []

variable {s s' : Shared N} {task next : Task N} {x : Input N} {es : List Event}

theorem known_of_named [DecidableEq N] {name : N} {obj : Nat} (h : s.named name = some obj) : s.Known obj := by
  obtain ⟨entry, hfind, rfl⟩ := Option.map_eq_some_iff.mp h
  exact .inl ⟨entry, List.mem_of_find?_eq_some hfind, rfl⟩

theorem known_of_get {h obj : Nat} {info : HandleMeta} (hget : s.table.get h = some (obj, info)) :
    s.Known obj := by
  rw [Table.get] at hget
  split_ifs at hget
  refine .inr ⟨indexOf h, Table.mem_holders.mpr ?_⟩
  rw [hget]
  rfl

theorem downcastTask_held (matched : Bool) (obj : Nat) (mine : Option Nat) (access flags : UInt32) :
    (downcastTask matched obj mine access flags : Task N).held.Perm (obj :: mine.toList) ∧
      (downcastTask matched obj mine access flags : Task N).inserts = none := by
  cases matched with
  | true =>
    cases mine with
    | none => exact ⟨List.Perm.refl _, rfl⟩
    | some own => exact ⟨List.Perm.swap .., rfl⟩
  | false =>
    cases mine with
    | none => exact ⟨List.Perm.refl _, rfl⟩
    | some own => exact ⟨List.Perm.refl _, rfl⟩

theorem copyTask_held (obj source : Nat) (info : HandleMeta) (access : UInt32) (inherited : Bool)
    (options : UInt32) :
    (copyTask obj source info access inherited options : Task N).held = [obj] ∧
      (copyTask obj source info access inherited options : Task N).inserts = none := by
  unfold copyTask
  dsimp only
  split_ifs <;> exact ⟨rfl, rfl⟩

theorem closeHandle_change [DecidableEq N] (h : Nat) (free : task.held = []) (silent : task.vouches = none) :
    Change s task (closeHandle s h).1 (closeHandle s h).2.1 (closeHandle s h).2.2 := by
  rw [closeHandle]
  rcases s.table.release_cases h with ⟨-, heq⟩ | ⟨-, ⟨-, heq⟩ | ⟨obj, info, hfound, -, heq⟩⟩
  · rw [heq]
    exact .turn free.symm silent rfl
  · rw [heq]
    exact .turn free.symm silent rfl
  · rw [heq]
    exact .close _ obj info hfound free silent

theorem threadStep_change [DecidableEq N] (h : threadStep s task x = some (s', next, es)) :
    Change s task s' next es := by
  -- one case for each arm of `threadStep`, in its order
  unfold threadStep at h
  split at h
  · next name type access flags =>
    split at h
    · cases h
      exact .turn rfl rfl rfl
    · next obj hnamed =>
      cases h
      obtain ⟨_, -, hnamed⟩ := Option.bind_eq_some_iff.mp hnamed
      exact .pin obj (known_of_named hnamed) rfl rfl rfl
  · cases h
    exact .turn rfl rfl rfl
  · cases h
    exact .new _ rfl rfl rfl
  · cases h
    exact .new _ rfl rfl rfl
  · next name type obj access flags =>
    split at h
    · next hnamed =>
      cases h
      exact .insert name type obj access flags hnamed
    · cases h
      exact .turn rfl rfl rfl
  · next name type obj access flags =>
    split at h
    · cases h
      exact .turn rfl rfl rfl
    · next other hnamed =>
      cases h
      exact .pin other (known_of_named hnamed) rfl rfl rfl
  · next obj type mine access flags =>
    cases h
    obtain ⟨hheld, hquiet⟩ := downcastTask_held _ obj mine access flags
    exact .touch obj (List.mem_cons_self ..) hheld rfl hquiet
  · next obj created access flags source =>
    cases h
    refine .alloc obj created access flags source ?_ ?_
    · cases source with
      | none => rfl
      | some h => rfl
    · cases source with
      | none => rfl
      | some h => rfl
  · split at h
    · cases h
      exact .turn rfl rfl rfl
    · next obj info hget =>
      cases h
      exact .pin obj (known_of_get hget) rfl rfl rfl
  · next obj =>
    cases h
    exact .touch obj (List.mem_cons_self ..) (List.Perm.refl _) rfl rfl
  · cases h
    exact .turn rfl rfl rfl
  · split at h
    · cases h
      exact .turn rfl rfl rfl
    · next obj info hget =>
      cases h
      exact .pin obj (known_of_get hget) rfl rfl rfl
  · next obj source info access inherited options =>
    cases h
    obtain ⟨hheld, hquiet⟩ := copyTask_held obj source info access inherited options
    exact .turn hheld rfl hquiet
  · next k =>
    have hchange := @closeHandle_change N s .idle _ k rfl rfl
    rwa [Option.some.inj h] at hchange
  · next k =>
    have hchange := @closeHandle_change N s (.closeSource k) _ k rfl rfl
    rwa [Option.some.inj h] at hchange
  · cases h
    exact .zero _
  · cases h
    exact .drop _ _
  · cases h
    exact .setInformation _ _ _
  · cases h

/-! ## Counts -/

section
variable {t t' : Table Nat} {idx obj : Nat}

theorem Allocated.holders {type : ObjectType} {access flags : UInt32}
    (h : Table.Allocated t t' idx obj type access flags) (i : Nat) :
    (t'.holders i).card = if i = obj then (t.holders i).card + 1 else (t.holders i).card := by
  obtain ⟨generation, hopened⟩ := h.opened
  by_cases hi : i = obj
  · subst hi
    have hset : t'.holders i = insert idx (t.holders i) := by
      ext j
      rw [Finset.mem_insert, Table.mem_holders, Table.mem_holders, hopened]
      by_cases hj : j = idx
      · simp [hj]
      · simp [hj]
    have hnot : idx ∉ t.holders i := by
      rw [Table.mem_holders, h.closed]
      exact fun hnone => nomatch hnone
    rw [if_pos rfl, hset, Finset.card_insert_of_notMem hnot]
  · rw [if_neg hi]
    congr 1
    ext j
    rw [Table.mem_holders, Table.mem_holders, hopened]
    by_cases hj : j = idx
    · subst hj
      rw [if_pos rfl, h.closed]
      simpa using Ne.symm hi
    · rw [if_neg hj]

theorem Closed.holders {info : HandleMeta} (h : Table.Closed t t' idx)
    (hfound : t.opened idx = some (obj, info)) (i : Nat) :
    (t.holders i).card = if i = obj then (t'.holders i).card + 1 else (t'.holders i).card := by
  have hset : t'.holders i = (t.holders i).erase idx := by
    ext j
    rw [Finset.mem_erase, Table.mem_holders, Table.mem_holders, h.opened]
    by_cases hj : j = idx
    · simp [hj]
    · simp [hj]
  by_cases hi : i = obj
  · subst hi
    have hmem : idx ∈ t.holders i := by
      rw [Table.mem_holders, hfound]
      rfl
    rw [if_pos rfl, hset, Finset.card_erase_add_one hmem]
  · have hnot : idx ∉ t.holders i := by
      rw [Table.mem_holders, hfound]
      simpa using Ne.symm hi
    rw [if_neg hi, hset, Finset.erase_eq_of_notMem hnot]

end

/-- An object that is there is counted by its handles and its pins, of which it has some. -/
def Exact (handles pins : Nat) : Option ObjectBase → Prop
  | none => handles = 0 ∧ pins = 0
  | some o => o.handleCount = handles ∧ o.pointerCount = handles + pins ∧ 0 < handles + pins

structure Counted (s : Shared N) (pins : Nat → Nat) : Prop where
  table : s.table.Kept
  exact : ∀ obj, Exact (s.table.holders obj).card (pins obj) (s.heap obj)
  fresh : ∀ obj, s.fresh ≤ obj → s.heap obj = none

section
variable {pins pins' : Nat → Nat} {obj : Nat} {o : ObjectBase}

theorem Counted.alive (h : Counted s pins) :
    (∃ o, s.heap obj = some o) ↔ 0 < (s.table.holders obj).card + pins obj := by
  have hexact := h.exact obj
  cases hobj : s.heap obj with
  | none =>
    rw [hobj] at hexact
    obtain ⟨hhandles, hpins⟩ := hexact
    simp [hhandles, hpins]
  | some o =>
    rw [hobj] at hexact
    simp [hexact.2.2]

theorem Counted.lt_fresh (h : Counted s pins) (hobj : s.heap obj = some o) : obj < s.fresh := by
  by_contra hle
  rw [h.fresh obj (not_lt.mp hle)] at hobj
  cases hobj

/-- A change of one object. -/
theorem Counted.update (h : Counted s pins) {v : Option ObjectBase}
    (hheap : s'.heap = Function.update s.heap obj v) (htable : s'.table.Kept)
    (hexact : Exact (s'.table.holders obj).card (pins' obj) v)
    (hothers : ∀ i, i ≠ obj →
      (s'.table.holders i).card = (s.table.holders i).card ∧ pins' i = pins i)
    (hfresh : s.fresh ≤ s'.fresh) (hobj : obj < s'.fresh) : Counted s' pins' := by
  refine ⟨htable, ?_, ?_⟩
  · intro i
    by_cases hi : i = obj
    · subst hi
      rw [hheap, Function.update_self]
      exact hexact
    · obtain ⟨hhandles, hpins⟩ := hothers i hi
      rw [hheap, Function.update_of_ne hi, hhandles, hpins]
      exact h.exact i
  · intro i hi
    rw [hheap, Function.update_of_ne (by omega)]
    exact h.fresh i (hfresh.trans hi)

theorem Counted.ref (h : Counted s pins) (hobj : s.heap obj = some o)
    (hpins : ∀ i, pins' i = if i = obj then pins i + 1 else pins i) :
    Counted (s.ref obj).1 pins' ∧ (s.ref obj).2 = [] := by
  have hexact := h.exact obj
  rw [hobj] at hexact
  obtain ⟨hhandles, hpointers, -⟩ := hexact
  have hlt := h.lt_fresh hobj
  simp only [Shared.ref, hobj, and_true]
  refine h.update rfl h.table ?_ ?_ le_rfl hlt
  · rw [hpins, if_pos rfl]
    exact ⟨hhandles, by simp only [hpointers]; omega, by omega⟩
  · intro i hi
    rw [hpins, if_neg hi]
    exact ⟨rfl, rfl⟩

theorem Counted.deref (h : Counted s pins) (hobj : s.heap obj = some o)
    (hpins : ∀ i, pins i = if i = obj then pins' i + 1 else pins' i) :
    Counted (s.deref obj).1 pins' ∧ ∀ i, .touchedDeleted i ∉ (s.deref obj).2 := by
  have hexact := h.exact obj
  rw [hobj] at hexact
  obtain ⟨hhandles, hpointers, -⟩ := hexact
  have hlt := h.lt_fresh hobj
  have hself := hpins obj
  rw [if_pos rfl] at hself
  have hothers : ∀ i, i ≠ obj →
      (s.table.holders i).card = (s.table.holders i).card ∧ pins' i = pins i := by
    intro i hi
    rw [hpins, if_neg hi]
    exact ⟨rfl, rfl⟩
  simp only [Shared.deref, hobj]
  by_cases hlast : o.pointerCount = 1
  · rw [if_pos hlast]
    refine ⟨h.update rfl h.table ?_ hothers le_rfl hlt, by simp⟩
    exact ⟨by simp only; omega, by omega⟩
  · rw [if_neg hlast]
    refine ⟨h.update rfl h.table ?_ hothers le_rfl hlt, by simp⟩
    exact ⟨hhandles, by simp only [hpointers]; omega, by simp only; omega⟩

theorem Counted.new (h : Counted s pins) (type : ObjectType)
    (hpins : ∀ i, pins' i = if i = s.fresh then pins i + 1 else pins i) :
    Counted (s.new type) pins' := by
  have hexact := h.exact s.fresh
  rw [h.fresh s.fresh le_rfl] at hexact
  obtain ⟨hhandles, hzero⟩ := hexact
  refine h.update rfl h.table ?_ ?_ (Nat.le_succ _) (Nat.lt_succ_self _)
  · rw [hpins, if_pos rfl, hzero]
    exact ⟨hhandles.symm, by simp only [Shared.new, hhandles], Nat.succ_pos _⟩
  · intro i hi
    rw [hpins, if_neg hi]
    exact ⟨rfl, rfl⟩

theorem Counted.alloc (h : Counted s pins) (hobj : s.heap obj = some o) (access flags : UInt32)
    (hpins : ∀ i, pins i = if i = obj then pins' i + 1 else pins' i) :
    Counted (s.alloc obj access flags).1 pins' ∧ (s.alloc obj access flags).2 = [] := by
  have hexact := h.exact obj
  rw [hobj] at hexact
  obtain ⟨hhandles, hpointers, -⟩ := hexact
  have hlt := h.lt_fresh hobj
  have hself := hpins obj
  rw [if_pos rfl] at hself
  obtain ⟨idx, -, hnew⟩ := h.table.alloc obj o.type access flags
  have hholders := Allocated.holders hnew
  simp only [Shared.alloc, hobj, and_true]
  refine h.update rfl hnew.kept ?_ ?_ le_rfl hlt
  · rw [hholders, if_pos rfl]
    exact ⟨by simp only [hhandles], by simp only [hpointers]; omega, by omega⟩
  · intro i hi
    rw [hholders, if_neg hi, hpins, if_neg hi]
    exact ⟨rfl, rfl⟩

theorem Counted.close (h : Counted s pins) {idx : Nat} {info : HandleMeta}
    (hfound : s.table.opened idx = some (obj, info))
    (hpins : ∀ i, pins' i = if i = obj then pins i + 1 else pins i) :
    Counted (s.close obj ((s.table.clearSlot idx).putIndex idx)).1 pins' ∧
      (s.close obj ((s.table.clearSlot idx).putIndex idx)).2.2 = [] := by
  have hclosed := h.table.close hfound
  have hholders := Closed.holders hclosed hfound
  have hmem : idx ∈ s.table.holders obj := by
    rw [Table.mem_holders, hfound]
    rfl
  have hpos := Finset.card_pos.mpr ⟨idx, hmem⟩
  obtain ⟨o, hobj⟩ := h.alive.mpr (Nat.add_pos_left hpos (pins obj))
  have hexact := h.exact obj
  rw [hobj] at hexact
  obtain ⟨hhandles, hpointers, -⟩ := hexact
  have hlt := h.lt_fresh hobj
  have hself := hholders obj
  rw [if_pos rfl] at hself
  simp only [Shared.close, hobj, and_true]
  refine h.update rfl hclosed.kept ?_ ?_ le_rfl hlt
  · rw [hpins, if_pos rfl]
    exact ⟨by simp only; omega, by simp only [hpointers]; omega, by omega⟩
  · intro i hi
    have hsame := hholders i
    rw [if_neg hi] at hsame
    rw [hpins, if_neg hi]
    exact ⟨hsame.symm, rfl⟩

theorem holders_setInformation (h : s.table.Kept) (k : Nat) (mask value : UInt32) (i : Nat) :
    (s.table.setInformation k mask value).2.holders i = s.table.holders i := by
  obtain ⟨-, -, hsame⟩ := h.setInformation k mask value
  ext j
  rw [Table.mem_holders, Table.mem_holders, hsame]

end

/-! ## Threads -/

section
variable {n : Nat} {c d : System (Shared N) (Task N) Event n} {obj : Nat} {i : Fin n}

/-- The pins that the threads have on an object. -/
def pins (c : System (Shared N) (Task N) Event n) (obj : Nat) : Nat :=
  c.total fun task => task.held.count obj

theorem pins_update (s : Shared N) (next : Task N) (es : List Event) (obj : Nat) :
    pins ⟨s, Function.update c.threads i next, es⟩ obj + (c.threads i).held.count obj =
      pins c obj + next.held.count obj :=
  System.total_move (fun task => task.held.count obj) c i s next es

/-- One pin more. -/
theorem pins_cons {pins pins' : Nat → Nat} {rest : List Nat}
    (h : ∀ k, pins' k + rest.count k = pins k + (obj :: rest).count k) (k : Nat) :
    pins' k = if k = obj then pins k + 1 else pins k := by
  have hk := h k
  rw [List.count_cons] at hk
  by_cases heq : k = obj
  · subst heq
    rw [beq_self_eq_true, if_pos rfl] at hk
    rw [if_pos rfl]
    omega
  · rw [if_neg (by simpa using Ne.symm heq)] at hk
    rw [if_neg heq]
    omega

/-- Two threads that hold an object are two pins on it. -/
theorem count_le_pins (i : Fin n) (obj : Nat) : (c.threads i).held.count obj ≤ pins c obj :=
  Finset.single_le_sum (f := fun i => (c.threads i).held.count obj) (fun _ _ => Nat.zero_le _)
    (Finset.mem_univ i)

theorem count_add_le_pins {j : Fin n} (hij : i ≠ j) (obj : Nat) :
    (c.threads i).held.count obj + (c.threads j).held.count obj ≤ pins c obj := by
  rw [pins, System.total, ← Finset.add_sum_erase _ _ (Finset.mem_univ i)]
  apply Nat.add_le_add_left
  exact Finset.single_le_sum (f := fun i => (c.threads i).held.count obj) (fun _ _ => Nat.zero_le _)
    (Finset.mem_erase.mpr ⟨hij.symm, Finset.mem_univ j⟩)

theorem mem_held_of_inserts {task : Task N} (h : task.inserts = some obj) : obj ∈ task.held := by
  induction task with
  | drop own next ih => exact List.mem_cons_of_mem _ (ih h)
  | insert name type own access flags =>
    cases h
    exact List.mem_cons_self ..
  | _ => cases h

theorem mem_held_of_vouches {task : Task N} (h : task.vouches = some obj) : obj ∈ task.held := by
  cases task with
  | alloc own created access flags source =>
    cases created with
    | true =>
      cases h
      exact List.mem_cons_self ..
    | false => cases h
  | zero own =>
    cases h
    exact List.mem_cons_self ..
  | _ => cases h

theorem ref_frame (s : Shared N) (obj : Nat) :
    (s.ref obj).1.names = s.names ∧ (s.ref obj).1.table = s.table := by
  rw [Shared.ref]
  split <;> exact ⟨rfl, rfl⟩

theorem deref_frame (s : Shared N) (obj : Nat) :
    (s.deref obj).1.names = s.names ∧ (s.deref obj).1.table = s.table := by
  rw [Shared.deref]
  split
  · exact ⟨rfl, rfl⟩
  · split <;> exact ⟨rfl, rfl⟩

theorem ref_known (s : Shared N) (obj i : Nat) : (s.ref obj).1.Known i ↔ s.Known i := by
  rw [Shared.Known, (ref_frame s obj).1, (ref_frame s obj).2]
  rfl

theorem deref_known (s : Shared N) (obj i : Nat) : (s.deref obj).1.Known i ↔ s.Known i := by
  rw [Shared.Known, (deref_frame s obj).1, (deref_frame s obj).2]
  rfl

/-- An object that a thread neither holds nor can come to is none of its business. -/
theorem Change.unrelated [DecidableEq N] (h : Change s task s' next es) (hkept : s.table.Kept)
    (hfresh : obj ≠ s.fresh) (hheld : obj ∉ task.held) (hunknown : ¬s.Known obj) :
    obj ∉ next.held ∧ ¬s'.Known obj := by
  cases h with
  | turn same => exact ⟨same ▸ hheld, hunknown⟩
  | touch own mine same => exact ⟨fun hmem => hheld (same.mem_iff.mp hmem), hunknown⟩
  | pin own known held =>
    rw [ref_known, held, List.mem_cons, not_or]
    refine ⟨⟨?_, hheld⟩, hunknown⟩
    rintro rfl
    exact hunknown known
  | drop own next =>
    rw [deref_known]
    exact ⟨fun hmem => hheld (List.mem_cons_of_mem _ hmem), hunknown⟩
  | new type held =>
    rw [held, List.mem_singleton]
    exact ⟨hfresh, hunknown⟩
  | insert name type own access flags =>
    refine ⟨hheld, ?_⟩
    rintro (⟨entry, hentry, rfl⟩ | hholders)
    · rcases List.mem_append.mp hentry with hold | hnew
      · exact hunknown (.inl ⟨entry, hold, rfl⟩)
      · obtain rfl := List.mem_singleton.mp hnew
        exact hheld (List.mem_cons_self ..)
    · exact hunknown (.inr hholders)
  | alloc own created access flags source free =>
    rw [free]
    refine ⟨List.not_mem_nil, ?_⟩
    rw [Shared.alloc]
    split
    · exact hunknown
    · next o _ =>
      obtain ⟨idx, -, hnew⟩ := hkept.alloc own o.type access flags
      rintro (hnamed | hholders)
      · exact hunknown (.inl hnamed)
      · have hcard := Allocated.holders hnew obj
        have hne : obj ≠ own := fun heq => hheld (heq ▸ List.mem_cons_self ..)
        rw [if_neg hne] at hcard
        exact hunknown (.inr (Finset.card_pos.mp (hcard ▸ hholders.card_pos)))
  | close idx own info found =>
    have hne : obj ≠ own := by
      rintro rfl
      refine hunknown (.inr ⟨idx, Table.mem_holders.mpr ?_⟩)
      rw [found]
      rfl
    refine ⟨?_, ?_⟩
    · split_ifs
      · exact fun hmem => hne (List.mem_singleton.mp hmem)
      · exact fun hmem => hne (List.mem_singleton.mp hmem)
    · rw [Shared.close]
      split
      · exact hunknown
      · rintro (hnamed | hholders)
        · exact hunknown (.inl hnamed)
        · have hcard := Closed.holders (hkept.close found) found obj
          rw [if_neg hne] at hcard
          exact hunknown (.inr (Finset.card_pos.mp (hcard ▸ hholders.card_pos)))
  | zero own =>
    refine ⟨hheld, ?_⟩
    rintro (⟨entry, hentry, hobj⟩ | hholders)
    · exact hunknown (.inl ⟨entry, List.mem_of_mem_eraseP hentry, hobj⟩)
    · exact hunknown (.inr hholders)
  | setInformation k mask value =>
    refine ⟨List.not_mem_nil, ?_⟩
    rintro (hnamed | hholders)
    · exact hunknown (.inl hnamed)
    · rw [holders_setInformation hkept] at hholders
      exact hunknown (.inr hholders)

def Vouched (c : System (Shared N) (Task N) Event n) (obj : Nat) : Prop :=
  ∃ i, (c.threads i).vouches = some obj

/-- A name stands for one object, and for as long as there are handles to it or a thread answers
for it. -/
structure Named (s : Shared N) (vouched : Nat → Prop) : Prop where
  keys : (s.names.map Prod.fst).Nodup
  objs : (s.names.map (·.2.obj)).Nodup
  temporary : ∀ entry ∈ s.names, entry.2.permanent = false
  anchored : ∀ entry ∈ s.names, 0 < (s.table.holders entry.2.obj).card ∨ vouched entry.2.obj

structure Sound (c : System (Shared N) (Task N) Event n) : Prop where
  counted : Counted c.shared (pins c)
  named : Named c.shared (Vouched c)
  alone : ∀ i obj, (c.threads i).inserts = some obj → pins c obj = 1 ∧ ¬c.shared.Known obj
  safe : ∀ obj, .touchedDeleted obj ∉ c.events

/-- Names that stay are anchored as before, or anew. -/
theorem Named.mono {v v' : Nat → Prop} (h : Named s v) (hnames : s'.names.Sublist s.names)
    (hanchored : ∀ entry ∈ s'.names, 0 < (s.table.holders entry.2.obj).card ∨ v entry.2.obj →
      0 < (s'.table.holders entry.2.obj).card ∨ v' entry.2.obj) : Named s' v' where
  keys := h.keys.sublist (hnames.map _)
  objs := h.objs.sublist (hnames.map _)
  temporary entry hentry := h.temporary entry (hnames.subset hentry)
  anchored entry hentry := hanchored entry hentry (h.anchored entry (hnames.subset hentry))

theorem vouched_update {s : Shared N} {next : Task N} {es : List Event}
    (hvouched : Vouched c obj) (hother : (c.threads i).vouches ≠ some obj) :
    Vouched ⟨s, Function.update c.threads i next, es⟩ obj := by
  obtain ⟨j, hj⟩ := hvouched
  have hij : j ≠ i := by
    rintro rfl
    exact hother hj
  refine ⟨j, ?_⟩
  simpa only [Function.update_of_ne hij] using hj

theorem vouched_self {s : Shared N} {next : Task N} {es : List Event}
    (h : next.vouches = some obj) : Vouched ⟨s, Function.update c.threads i next, es⟩ obj := by
  refine ⟨i, ?_⟩
  simpa only [Function.update_self] using h

theorem Sound.exists_of_known (h : Sound c) (hknown : c.shared.Known obj) :
    ∃ o, c.shared.heap obj = some o := by
  rw [h.counted.alive]
  rcases hknown with ⟨entry, hentry, rfl⟩ | hholders
  · rcases h.named.anchored entry hentry with hpos | ⟨i, hvouches⟩
    · exact Nat.add_pos_left hpos _
    · have hmem := List.count_pos_iff.mpr (mem_held_of_vouches hvouches)
      exact Nat.add_pos_right _ (hmem.trans_le (count_le_pins i _))
  · exact Nat.add_pos_left (Finset.card_pos.mpr hholders) _

theorem Sound.exists_of_held (h : Sound c) (hheld : obj ∈ (c.threads i).held) :
    ∃ o, c.shared.heap obj = some o := by
  rw [h.counted.alive]
  exact Nat.add_pos_right _ ((List.count_pos_iff.mpr hheld).trans_le (count_le_pins i obj))

theorem Sound.unknown_fresh (h : Sound c) : ¬c.shared.Known c.shared.fresh := by
  intro hknown
  obtain ⟨o, hobj⟩ := h.exists_of_known hknown
  exact absurd (h.counted.lt_fresh hobj) (lt_irrefl _)

/-- A thread has an object to itself when it has just made it, and keeps it so. -/
theorem Sound.alone_self [DecidableEq N] (h : Sound c)
    (hchange : Change c.shared (c.threads i) s' next es) (hinserts : next.inserts = some obj) :
    pins ⟨s', Function.update c.threads i next, c.events ++ es⟩ obj = 1 ∧ ¬s'.Known obj := by
  have hpins := @pins_update N n c i s' next (c.events ++ es) obj
  have hbefore := h.alone i obj
  have hle := @count_le_pins N n c i obj
  generalize c.threads i = task at hchange hpins hbefore hle
  cases hchange with
  | turn _ _ quiet | touch _ _ _ _ quiet | pin _ _ _ _ quiet | alloc _ _ _ _ _ _ quiet =>
    rw [quiet] at hinserts
    cases hinserts
  | new type held free =>
    have hmem := mem_held_of_inserts hinserts
    rw [held, List.mem_singleton] at hmem
    subst hmem
    have hexact := h.counted.exact c.shared.fresh
    rw [h.counted.fresh _ le_rfl] at hexact
    rw [held, free, List.count_nil, List.count_singleton_self, hexact.2] at hpins
    exact ⟨hpins, h.unknown_fresh⟩
  | drop own next =>
    obtain ⟨hone, hunknown⟩ := hbefore hinserts
    have hmem := List.count_pos_iff.mpr (mem_held_of_inserts hinserts)
    rw [Task.held, List.count_cons] at hle hpins
    rw [deref_known]
    exact ⟨by omega, hunknown⟩
  | insert | zero | setInformation => cases hinserts
  | close idx own info found =>
    split_ifs at hinserts
    · cases hinserts
    · cases hinserts

/-- What the threads have to themselves stays so, whichever thread takes a step. -/
theorem Sound.alone_move [DecidableEq N] (h : Sound c)
    (hchange : Change c.shared (c.threads i) s' next es) {j : Fin n}
    (hinserts : (Function.update c.threads i next j).inserts = some obj) :
    pins ⟨s', Function.update c.threads i next, c.events ++ es⟩ obj = 1 ∧ ¬s'.Known obj := by
  have hpins := @pins_update N n c i s' next (c.events ++ es) obj
  by_cases hj : j = i
  · subst hj
    rw [Function.update_self] at hinserts
    exact h.alone_self hchange hinserts
  · rw [Function.update_of_ne hj] at hinserts
    obtain ⟨hone, hunknown⟩ := h.alone j obj hinserts
    have hmem := List.count_pos_iff.mpr (mem_held_of_inserts hinserts)
    have hboth := count_add_le_pins (c := c) (Ne.symm hj) obj
    have hnot : obj ∉ (c.threads i).held := by
      rw [← List.count_eq_zero]
      omega
    have hfresh : obj ≠ c.shared.fresh := by
      rintro rfl
      obtain ⟨o, hobj⟩ := h.exists_of_held (mem_held_of_inserts hinserts)
      exact absurd (h.counted.lt_fresh hobj) (lt_irrefl _)
    obtain ⟨hnot', hunknown'⟩ := hchange.unrelated h.counted.table hfresh hnot hunknown
    rw [← List.count_eq_zero] at hnot hnot'
    exact ⟨by omega, hunknown'⟩

/-- Whether a handle was the last is what the count of the handles says. -/
theorem close_last (h : Counted s (pins c)) {idx : Nat} {info : HandleMeta}
    (hfound : s.table.opened idx = some (obj, info)) :
    (s.close obj ((s.table.clearSlot idx).putIndex idx)).2.1 =
        decide (((s.close obj ((s.table.clearSlot idx).putIndex idx)).1.table.holders obj).card = 0) ∧
      (∀ k, k ≠ obj →
        ((s.close obj ((s.table.clearSlot idx).putIndex idx)).1.table.holders k).card =
          (s.table.holders k).card) ∧
      (s.close obj ((s.table.clearSlot idx).putIndex idx)).1.names = s.names := by
  have hholders := Closed.holders (h.table.close hfound) hfound
  have hself := hholders obj
  rw [if_pos rfl] at hself
  obtain ⟨o, hobj⟩ := h.alive.mpr (Nat.add_pos_left (hself ▸ Nat.succ_pos _) (pins c obj))
  have hexact := h.exact obj
  rw [hobj] at hexact
  simp only [Shared.close, hobj]
  refine ⟨?_, fun k hk => ?_, trivial⟩
  · rw [hexact.1, hself]
    rfl
  · have hother := hholders k
    rw [if_neg hk] at hother
    exact hother.symm

theorem Counted.congr {pins : Nat → Nat} (h : Counted s pins) (hheap : s'.heap = s.heap)
    (hfresh : s'.fresh = s.fresh) (htable : s'.table.Kept)
    (hholders : ∀ k, s'.table.holders k = s.table.holders k) : Counted s' pins where
  table := htable
  exact k := by
    rw [hheap, hholders]
    exact h.exact k
  fresh k hk := by
    rw [hheap]
    exact h.fresh k (hfresh ▸ hk)

theorem Sound.counted_move [DecidableEq N] (h : Sound c)
    (hchange : Change c.shared (c.threads i) s' next es) :
    Counted s' (pins ⟨s', Function.update c.threads i next, c.events ++ es⟩) ∧
      ∀ obj, .touchedDeleted obj ∉ es := by
  have hpins := @pins_update N n c i s' next (c.events ++ es)
  generalize pins ⟨s', Function.update c.threads i next, c.events ++ es⟩ = pins' at hpins ⊢
  have hthere : ∀ obj ∈ (c.threads i).held, ∃ o, c.shared.heap obj = some o :=
    fun obj hmem => h.exists_of_held hmem
  generalize c.threads i = task at hchange hpins hthere
  have hsame : next.held.Perm task.held → pins c = pins' := by
    intro hperm
    funext obj
    have hobj := hpins obj
    rw [hperm.count_eq] at hobj
    omega
  cases hchange with
  | turn same => exact ⟨hsame (same ▸ List.Perm.refl _) ▸ h.counted, by simp⟩
  | touch obj mine same =>
    obtain ⟨o, hobj⟩ := hthere obj mine
    refine ⟨hsame same ▸ h.counted, ?_⟩
    rw [Shared.touch, hobj]
    simp
  | pin obj known held =>
    obtain ⟨o, hobj⟩ := h.exists_of_known known
    rw [held] at hpins
    obtain ⟨hcounted, hnone⟩ := h.counted.ref hobj (pins_cons hpins)
    rw [hnone]
    exact ⟨hcounted, by simp⟩
  | drop obj next =>
    obtain ⟨o, hobj⟩ := hthere obj (List.mem_cons_self ..)
    exact h.counted.deref hobj (pins_cons fun k => (hpins k).symm)
  | new type held free =>
    rw [held, free] at hpins
    exact ⟨h.counted.new type (pins_cons hpins), by simp⟩
  | insert name type obj access flags =>
    have hcounted := hsame (List.Perm.refl _) ▸ h.counted
    exact ⟨hcounted.congr rfl rfl hcounted.table fun _ => rfl, by simp⟩
  | alloc obj created access flags source free =>
    obtain ⟨o, hobj⟩ := hthere obj (List.mem_cons_self ..)
    rw [free] at hpins
    obtain ⟨hcounted, hnone⟩ := h.counted.alloc hobj access flags
      (pins_cons fun k => (hpins k).symm)
    rw [hnone]
    exact ⟨hcounted, by simp⟩
  | close idx obj info found free =>
    have hheld : (if (c.shared.close obj ((c.shared.table.clearSlot idx).putIndex idx)).2.1 then
        Task.zero obj else Task.drop obj .idle : Task N).held = [obj] := by
      split_ifs <;> rfl
    rw [hheld, free] at hpins
    obtain ⟨hcounted, hnone⟩ := h.counted.close found (pins_cons hpins)
    rw [hnone]
    exact ⟨hcounted, by simp⟩
  | zero obj =>
    have hcounted := hsame (List.Perm.refl _) ▸ h.counted
    exact ⟨hcounted.congr rfl rfl hcounted.table fun _ => rfl, by simp⟩
  | setInformation k mask value =>
    have hcounted := hsame (List.Perm.refl _) ▸ h.counted
    exact ⟨hcounted.congr rfl rfl (hcounted.table.setInformation k mask value).1
      (holders_setInformation hcounted.table k mask value), by simp⟩

theorem named_eq_none [DecidableEq N] {name : N} (h : s.named name = none) :
    name ∉ s.names.map Prod.fst := by
  rw [Shared.named, Option.map_eq_none_iff, List.find?_eq_none] at h
  intro hmem
  obtain ⟨entry, hentry, rfl⟩ := List.mem_map.mp hmem
  simpa using h entry hentry

theorem eraseP_unnamed {names : List (N × NameEntry)} (hobjs : (names.map (·.2.obj)).Nodup)
    (htemporary : ∀ entry ∈ names, entry.2.permanent = false) :
    ∀ entry ∈ names.eraseP fun entry => entry.2.obj = obj ∧ entry.2.permanent = false,
      entry.2.obj ≠ obj := by
  induction names with
  | nil => exact nofun
  | cons first names ih =>
    rw [List.map_cons, List.nodup_cons] at hobjs
    rw [List.forall_mem_cons] at htemporary
    by_cases hfirst : first.2.obj = obj
    · rw [List.eraseP_cons_of_pos (by simp [hfirst, htemporary.1])]
      intro entry hentry heq
      exact hobjs.1 (List.mem_map.mpr ⟨entry, hentry, heq.trans hfirst.symm⟩)
    · rw [List.eraseP_cons_of_neg (by simp [hfirst]), List.forall_mem_cons]
      exact ⟨hfirst, ih hobjs.2 htemporary.2⟩

theorem Sound.named_move [DecidableEq N] (h : Sound c)
    (hchange : Change c.shared (c.threads i) s' next es) :
    Named s' (Vouched ⟨s', Function.update c.threads i next, c.events ++ es⟩) := by
  have hnamed := h.named
  have hkeep : ∀ obj, Vouched c obj → (c.threads i).vouches ≠ some obj →
      Vouched ⟨s', Function.update c.threads i next, c.events ++ es⟩ obj :=
    fun obj => vouched_update
  have hself : ∀ obj, next.vouches = some obj →
      Vouched ⟨s', Function.update c.threads i next, c.events ++ es⟩ obj := fun obj => vouched_self
  generalize Vouched ⟨s', Function.update c.threads i next, c.events ++ es⟩ = v at hkeep hself ⊢
  have halone := h.alone i
  have hthere : ∀ obj ∈ (c.threads i).held, ∃ o, c.shared.heap obj = some o :=
    fun obj hmem => h.exists_of_held hmem
  generalize c.threads i = task at hchange hkeep halone hthere
  have hsilent (hvouches : task.vouches = none) (hnames : s'.names = c.shared.names)
      (hholders : ∀ obj, s'.table.holders obj = c.shared.table.holders obj) : Named s' v := by
    refine hnamed.mono (hnames ▸ List.Sublist.refl _) ?_
    intro entry _ hanchored
    rw [hholders]
    refine hanchored.imp_right fun hvouched => hkeep _ hvouched ?_
    rw [hvouches]
    exact nofun
  cases hchange with
  | turn _ silent => exact hsilent silent rfl fun _ => rfl
  | touch _ _ _ silent => exact hsilent silent rfl fun _ => rfl
  | pin obj _ _ silent =>
    obtain ⟨hnames, htable⟩ := ref_frame c.shared obj
    exact hsilent silent hnames fun _ => by rw [htable]
  | drop obj next =>
    obtain ⟨hnames, htable⟩ := deref_frame c.shared obj
    exact hsilent rfl hnames fun _ => by rw [htable]
  | new type held free silent => exact hsilent silent rfl fun _ => rfl
  | insert name type obj access flags unnamed =>
    obtain ⟨-, hunknown⟩ := halone obj rfl
    have hnew : ∀ entry ∈ c.shared.names, entry.2.obj ≠ obj :=
      fun entry hentry heq => hunknown (.inl ⟨entry, hentry, heq⟩)
    constructor
    · rw [Shared.insert, List.map_append, List.nodup_append]
      refine ⟨hnamed.keys, List.nodup_singleton _, ?_⟩
      rintro key hkey _ hlast rfl
      rw [List.map_cons, List.map_nil, List.mem_singleton] at hlast
      rw [hlast] at hkey
      exact named_eq_none unnamed hkey
    · rw [Shared.insert, List.map_append, List.nodup_append]
      refine ⟨hnamed.objs, List.nodup_singleton _, ?_⟩
      rintro own hown _ hlast rfl
      obtain ⟨entry, hentry, rfl⟩ := List.mem_map.mp hown
      rw [List.map_cons, List.map_nil, List.mem_singleton] at hlast
      exact hnew entry hentry hlast
    · intro entry hentry
      rcases List.mem_append.mp hentry with hold | hlast
      · exact hnamed.temporary entry hold
      · rw [List.mem_singleton.mp hlast]
    · intro entry hentry
      rcases List.mem_append.mp hentry with hold | hlast
      · exact (hnamed.anchored entry hold).imp_right fun hvouched => hkeep _ hvouched nofun
      · rw [List.mem_singleton.mp hlast]
        exact .inr (hself obj rfl)
  | alloc obj created access flags source free =>
    have hobj : ∀ own, Task.vouches (.alloc obj created access flags source : Task N) = some own →
        own = obj := by
      intro own hown
      simpa [Task.held] using mem_held_of_vouches hown
    obtain ⟨o, hheap⟩ := hthere obj (List.mem_cons_self ..)
    obtain ⟨idx, -, hnew⟩ := h.counted.table.alloc obj o.type access flags
    simp only [Shared.alloc, hheap]
    refine hnamed.mono (List.Sublist.refl _) ?_
    intro entry _ hanchored
    rw [Allocated.holders hnew]
    by_cases hentry : entry.2.obj = obj
    · rw [if_pos hentry]
      exact .inl (Nat.succ_pos _)
    · rw [if_neg hentry]
      exact hanchored.imp_right fun hvouched => hkeep _ hvouched fun hown => hentry (hobj _ hown)
  | close idx obj info found free silent =>
    obtain ⟨hlast, hothers, hnames⟩ := close_last h.counted found
    refine hnamed.mono (hnames ▸ List.Sublist.refl _) ?_
    intro entry _ hanchored
    by_cases hentry : entry.2.obj = obj
    · rw [hentry]
      by_cases hzero : ((c.shared.close obj
          ((c.shared.table.clearSlot idx).putIndex idx)).1.table.holders obj).card = 0
      · right
        apply hself
        rw [hlast, decide_eq_true hzero, if_pos rfl]
        rfl
      · exact .inl (Nat.pos_of_ne_zero hzero)
    · rw [hothers _ hentry]
      refine hanchored.imp_right fun hvouched => hkeep _ hvouched ?_
      rw [silent]
      exact nofun
  | zero obj =>
    have hone : ∀ entry ∈ (c.shared.remove obj).names, entry.2.obj ≠ obj :=
      eraseP_unnamed hnamed.objs hnamed.temporary
    refine hnamed.mono (List.eraseP_sublist ..) ?_
    intro entry hentry hanchored
    refine hanchored.imp_right fun hvouched => hkeep _ hvouched fun hown => hone entry hentry ?_
    exact (Option.some.inj hown).symm
  | setInformation k mask value =>
    exact hsilent rfl rfl (holders_setInformation h.counted.table k mask value)

theorem Sound.move [DecidableEq N] {x : Input N} (h : Sound c) (hmove : c.move threadStep i x = some d) :
    Sound d := by
  obtain ⟨s', next, es, hstep, rfl⟩ := System.move_eq_some hmove
  have hchange := threadStep_change hstep
  obtain ⟨hcounted, htouched⟩ := h.counted_move hchange
  refine ⟨hcounted, h.named_move hchange, fun j obj => h.alone_move hchange, ?_⟩
  intro obj hmem
  rcases List.mem_append.mp hmem with hold | hnew
  · exact h.safe obj hold
  · exact htouched obj hnew

/-- Nobody has made anything, and no thread is busy. -/
def start (N : Type) (n : Nat) : System (Shared N) (Task N) Event n :=
  ⟨Shared.initial, fun _ => .idle, []⟩

theorem start_sound : Sound (start N n) := by
  have hpins : ∀ obj, pins (start N n) obj = 0 := by
    intro obj
    simp [pins, System.total, start, Task.held]
  refine ⟨⟨Table.empty_kept, ?_, fun _ _ => rfl⟩, ⟨?_, ?_, ?_, ?_⟩, ?_, ?_⟩
  · intro obj
    exact ⟨rfl, hpins obj⟩
  · exact List.nodup_nil
  · exact List.nodup_nil
  · exact List.forall_mem_nil _
  · exact List.forall_mem_nil _
  · intro i obj hinserts
    cases hinserts
  · intro obj
    exact List.not_mem_nil

theorem reaches_sound [DecidableEq N] (run : Reaches threadStep id (start N n) c) : Sound c := by
  induction run with
  | refl => exact start_sound
  | thread i x _ move ih => exact ih.move move
  | outside _ ih => exact ih

/-- However the threads take turns: none touches an object that was deleted, an object is there
exactly as long as it has handles or pins and counts both, and a name stands for one object,
which is there. -/
theorem objects_safe [DecidableEq N] (run : Reaches threadStep id (start N n) c) :
    (∀ obj, .touchedDeleted obj ∉ c.events) ∧
      (∀ obj, Exact (c.shared.table.holders obj).card (pins c obj) (c.shared.heap obj)) ∧
      (c.shared.names.map Prod.fst).Nodup ∧
      ∀ entry ∈ c.shared.names, ∃ o, c.shared.heap entry.2.obj = some o := by
  have h := reaches_sound run
  exact ⟨h.safe, h.counted.exact, h.named.keys,
    fun entry hentry => h.exists_of_known (.inl ⟨entry, hentry, rfl⟩)⟩

def first : Fin 2 := ⟨0, Nat.zero_lt_two⟩

def second : Fin 2 := ⟨1, Nat.one_lt_two⟩

/-- Two threads make a mutex of the same name at once, and both close it. -/
def race : List (Fin 2 × Input Nat) :=
  [(first, .create (some 7) .mutex 0 0), (second, .create (some 7) .mutex 0 0), (first, .go),
    (second, .go), (first, .go), (second, .go), (second, .go), (first, .go), (second, .go),
    (first, .close 4), (second, .go), (second, .go), (second, .close 8), (second, .go), (first, .go),
    (first, .go), (second, .go)]

theorem objects_safe_race : ∃ c, runSchedule threadStep (start Nat 2) race = some c ∧
    (∀ obj, .touchedDeleted obj ∉ c.events) ∧
      (∀ obj, Exact (c.shared.table.holders obj).card (pins c obj) (c.shared.heap obj)) ∧
      (c.shared.names.map Prod.fst).Nodup ∧
      ∀ entry ∈ c.shared.names, ∃ o, c.shared.heap entry.2.obj = some o := by
  obtain ⟨c, hrun⟩ := Option.isSome_iff_exists.mp
    (show (runSchedule threadStep (start Nat 2) race).isSome = true by decide)
  exact ⟨c, hrun, objects_safe (runSchedule_reaches hrun)⟩

end

end

end MeleeHarness.Wibo
