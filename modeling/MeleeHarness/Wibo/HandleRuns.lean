import MeleeHarness.Wibo.HandleTable

/-!
# What a guest sees of its handles

A run of calls on the handle table, against the map from handles to objects that it stands for.

* `Table.run_handles`: every run of the table is a run of the map;
* `Table.alloc_small`: when a handle of `0x8000` or above is given out;
* `Table.reuse_delayed`: a small handle that was closed comes back only after 64 others.
-/

namespace MeleeHarness.Wibo

section
variable {Obj : Type}

/-! ## Runs -/

/-- A call on the table. -/
inductive Call (Obj : Type) where
  | alloc (obj : Obj) (type : ObjectType) (grantedAccess flags : UInt32)
  | release (h : Nat)
  | setInformation (h : Nat) (mask value : UInt32)
  | getInformation (h : Nat)

/-- What a call gives: the new handle, the object that was taken out, whether it succeeded, or the
flags of a handle that is known. -/
inductive Answer (Obj : Type) where
  | handle (h : Nat)
  | released (obj : Obj)
  | done (success : Bool)
  | flags (found : Option UInt32)

def Table.call (t : Table Obj) : Call Obj → Answer Obj × Table Obj
  | .alloc obj type grantedAccess flags =>
    (.handle (t.alloc obj type grantedAccess flags).1, (t.alloc obj type grantedAccess flags).2)
  | .release h =>
    match t.release h with
    | .pseudo => (.done true, t)
    | .refused => (.done false, t)
    | .released obj t' => (.released obj, t')
  | .setInformation h mask value =>
    (.done (t.setInformation h mask value).1, (t.setInformation h mask value).2)
  | .getInformation h => (.flags (t.getInformation h), t)

def Table.run (t : Table Obj) : List (Call Obj) → List (Answer Obj) × Table Obj
  | [] => ([], t)
  | c :: rest => ((t.call c).1 :: ((t.call c).2.run rest).1, ((t.call c).2.run rest).2)

/-- What a guest has open. -/
abbrev Handles (Obj : Type) := Nat → Option (Obj × HandleMeta)

/-- What a call may do to the handles of a guest: a new handle is one that was not open, and no
other handle changes. -/
inductive Handles.Step (m : Handles Obj) : Call Obj → Answer Obj → Handles Obj → Prop
  | alloc (obj : Obj) (type : ObjectType) (grantedAccess flags : UInt32) (h generation : Nat)
      (aligned : h % 4 = 0) (positive : h ≠ 0) (real : isPseudo h = false) (unused : m h = none) :
      Step m (.alloc obj type grantedAccess flags) (.handle h)
        (Function.update m h (some (obj, ⟨grantedAccess, flags, type, generation⟩)))
  | pseudo (h : Nat) (pseudo : isPseudo h = true) : Step m (.release h) (.done true) m
  | refused (h : Nat) (real : isPseudo h = false)
      (unknown : ∀ obj info, m h = some (obj, info) → protectedFrom info = true) :
      Step m (.release h) (.done false) m
  | released (h : Nat) (obj : Obj) (info : HandleMeta) (found : m h = some (obj, info))
      (unprotected : protectedFrom info = false) :
      Step m (.release h) (.released obj) (Function.update m h none)
  | setPseudo (h : Nat) (mask value : UInt32) (pseudo : isPseudo h = true) :
      Step m (.setInformation h mask value) (.done true) m
  | setUnknown (h : Nat) (mask value : UInt32) (real : isPseudo h = false) (unknown : m h = none) :
      Step m (.setInformation h mask value) (.done false) m
  | set (h : Nat) (mask value : UInt32) (obj : Obj) (info : HandleMeta)
      (found : m h = some (obj, info)) :
      Step m (.setInformation h mask value) (.done true)
        (Function.update m h (some (obj, (Table.withFlags ⟨some obj, info⟩ mask value).info)))
  | getPseudo (h : Nat) (pseudo : isPseudo h = true) : Step m (.getInformation h) (.flags (some 0)) m
  | get (h : Nat) (real : isPseudo h = false) :
      Step m (.getInformation h) (.flags ((m h).map fun found => found.2.flags)) m

inductive Handles.Run : Handles Obj → List (Call Obj) → List (Answer Obj) → Handles Obj → Prop
  | nil (m : Handles Obj) : Run m [] [] m
  | cons {m m' m'' : Handles Obj} {c : Call Obj} {a : Answer Obj} {calls : List (Call Obj)}
      {answers : List (Answer Obj)} :
      Step m c a m' → Run m' calls answers m'' → Run m (c :: calls) (a :: answers) m''

namespace Table
variable {t : Table Obj} {idx : Nat}

/-- What a call keeps, and what the guest sees of it. -/
structure Follows (t : Table Obj) (c : Call Obj) : Prop where
  kept : (t.call c).2.Kept
  grown : t.slots.length ≤ (t.call c).2.slots.length
  step : (t.call c).2.slots.length < 2 ^ 29 →
    Handles.Step t.get c (t.call c).1 (t.call c).2.get

theorem follows_alloc (h : t.Kept) (obj : Obj) (type : ObjectType) (grantedAccess flags : UInt32) :
    t.Follows (.alloc obj type grantedAccess flags) := by
  obtain ⟨idx, hhandle, hnew⟩ := h.alloc obj type grantedAccess flags
  refine ⟨hnew.kept, hnew.grown.1, fun hsmall => ?_⟩
  change (t.alloc obj type grantedAccess flags).2.slots.length < 2 ^ 29 at hsmall
  have hinside := hnew.inside
  obtain ⟨generation, hopened⟩ := hnew.opened
  obtain ⟨hindex, hzero, hpseudo⟩ := @indexOf_makeHandle idx (by omega)
  simp only [call, hhandle, get_update hsmall hnew.grown.1 hinside hopened]
  refine .alloc obj type grantedAccess flags _ generation ?_ hzero hpseudo ?_
  · rw [makeHandle]
    omega
  · rw [get_makeHandle (by omega), hnew.closed]

theorem follows_release (h : t.Kept) (k : Nat) : t.Follows (.release k) := by
  rcases t.release_cases k with ⟨hpseudo, heq⟩ | ⟨hreal, ⟨hrefuse, heq⟩ |
    ⟨obj, info, hfound, hunprotected, heq⟩⟩
  · constructor
    · simpa only [call, heq] using h
    · simp only [call, heq, Nat.le_refl]
    · intro _
      simpa only [call, heq] using .pseudo k hpseudo
  · constructor
    · simpa only [call, heq] using h
    · simp only [call, heq, Nat.le_refl]
    · intro hsmall
      simp only [call, heq] at hsmall ⊢
      rw [← get_real hsmall hreal] at hrefuse
      exact .refused k hreal hrefuse
  · have hclosed := h.close hfound
    constructor
    · simpa only [call, heq] using hclosed.kept
    · simp only [call, heq, hclosed.grown, Nat.le_refl]
    · intro hsmall
      simp only [call, heq] at hsmall ⊢
      have hlt := opened_lt hfound
      have hsmall' : t.slots.length < 2 ^ 29 := hclosed.grown ▸ hsmall
      have hhandle := (opened_indexOf hsmall' hreal hfound).2
      rw [get_update hsmall hclosed.grown.ge (hclosed.grown ▸ hlt) hclosed.opened, ← hhandle]
      exact .released k obj info ((get_real hsmall' hreal).trans hfound) hunprotected

theorem follows_setInformation (h : t.Kept) (k : Nat) (mask value : UInt32) :
    t.Follows (.setInformation k mask value) := by
  rcases t.setInformation_cases k mask value with ⟨hpseudo, heq⟩ | ⟨hreal, ⟨hnone, heq⟩ |
    ⟨obj, info, hfound, heq⟩⟩
  · constructor
    · simpa only [call, heq] using h
    · simp only [call, heq, Nat.le_refl]
    · intro _
      simpa only [call, heq] using .setPseudo k mask value hpseudo
  · constructor
    · simpa only [call, heq] using h
    · simp only [call, heq, Nat.le_refl]
    · intro hsmall
      simp only [call, heq] at hsmall ⊢
      exact .setUnknown k mask value hreal ((get_real hsmall hreal).trans hnone)
  · have hopened := withFlags_opened hfound mask value
    constructor
    · exact (h.setInformation k mask value).1
    · simp only [call, heq, List.length_modify, Nat.le_refl]
    · intro hsmall
      simp only [call, heq] at hsmall ⊢
      have hlt := opened_lt hfound
      have hlength : ∀ f, (t.slots.modify (indexOf k) f).length = t.slots.length :=
        fun f => List.length_modify ..
      have hsmall' : t.slots.length < 2 ^ 29 := by
        rwa [hlength] at hsmall
      have hhandle := (opened_indexOf hsmall' hreal hfound).2
      rw [get_update hsmall (hlength _).ge (by rwa [hlength]) hopened, ← hhandle]
      exact .set k mask value obj info ((get_real hsmall' hreal).trans hfound)

theorem follows_getInformation (h : t.Kept) (k : Nat) : t.Follows (.getInformation k) where
  kept := h
  grown := Nat.le_refl _
  step := by
    intro hsmall
    change t.slots.length < 2 ^ 29 at hsmall
    change Handles.Step t.get _ (.flags (t.getInformation k)) t.get
    rw [getInformation]
    cases hpseudo : isPseudo k with
    | true => exact .getPseudo k hpseudo
    | false =>
      rw [if_neg Bool.false_ne_true, ← get_real hsmall hpseudo]
      exact .get k hpseudo

theorem Kept.follows (h : t.Kept) (c : Call Obj) : t.Follows c := by
  cases c with
  | alloc obj type grantedAccess flags => exact follows_alloc h obj type grantedAccess flags
  | release k => exact follows_release h k
  | setInformation k mask value => exact follows_setInformation h k mask value
  | getInformation k => exact follows_getInformation h k

theorem Kept.run (h : t.Kept) (calls : List (Call Obj)) :
    (t.run calls).2.Kept ∧ t.slots.length ≤ (t.run calls).2.slots.length ∧
      ((t.run calls).2.slots.length < 2 ^ 29 →
        Handles.Run t.get calls (t.run calls).1 (t.run calls).2.get) := by
  induction calls generalizing t with
  | nil => exact ⟨h, Nat.le_refl _, fun _ => .nil _⟩
  | cons c calls ih =>
    obtain ⟨hkept, hgrown, hstep⟩ := h.follows c
    obtain ⟨hkept', hgrown', hrun⟩ := ih hkept
    refine ⟨hkept', hgrown.trans hgrown', fun hsmall => ?_⟩
    exact .cons (hstep (hgrown'.trans_lt hsmall)) (hrun hsmall)

theorem get_empty : (empty : Table Obj).get = fun _ => none := by
  funext h
  rw [get]
  split_ifs
  · rfl
  · rfl

/-- Every run keeps the slots in order, and shows a guest a map of its handles, as long as there
are not more slots than handles. -/
theorem run_handles (calls : List (Call Obj)) :
    ((empty : Table Obj).run calls).2.Kept ∧
      (((empty : Table Obj).run calls).2.slots.length < 2 ^ 29 →
        Handles.Run (fun _ => none) calls ((empty : Table Obj).run calls).1
          ((empty : Table Obj).run calls).2.get) := by
  obtain ⟨hkept, -, hrun⟩ := empty_kept.run calls
  rw [get_empty] at hrun
  exact ⟨hkept, hrun⟩

/-! ## Small handles -/

theorem makeHandle_small (h : idx + 1 < 2 ^ 29) : makeHandle idx < 0x8000 ↔ idx ≤ kCompatMaxIndex := by
  rw [makeHandle, kCompatMaxIndex]
  omega

/-- The small handles that are open. -/
def openSmall (t : Table Obj) : Finset Nat :=
  (Finset.range (kCompatMaxIndex + 1)).filter fun idx => (t.get (makeHandle idx)).isSome

/-- A small index is open, in quarantine, or taken next. -/
theorem Kept.small_cases (h : t.Kept) (hlast : kCompatMaxIndex < t.slots.length)
    (hbelow : t.freeBelow = []) {idx : Nat} (hidx : idx ≤ kCompatMaxIndex) :
    (t.opened idx).isSome ∨ idx ∈ t.quarantine := by
  cases hopened : t.opened idx with
  | some found => exact .inl rfl
  | none =>
    have hfree := (h.mem_free idx).mpr ⟨by omega, hopened⟩
    rw [free, hbelow, List.append_nil] at hfree
    rcases List.mem_append.mp hfree with hwaiting | habove
    · exact .inr hwaiting
    · exact absurd hidx (Nat.not_le.mpr (h.above idx habove))

/-- `alloc` gives out a handle of `0x8000` or above only if every small one is open or has been
closed lately, so that at least 8127 small ones are open. -/
theorem alloc_small (calls : List (Call Obj)) {t : Table Obj}
    (hreached : ((empty : Table Obj).run calls).2 = t) (hlimit : t.slots.length + 1 < 2 ^ 29)
    (obj : Obj) (type : ObjectType) (grantedAccess flags : UInt32) :
    (0x8000 ≤ (t.alloc obj type grantedAccess flags).1 ↔ ∀ idx ≤ kCompatMaxIndex,
      (t.get (makeHandle idx)).isSome ∨ idx ∈ t.quarantine) ∧
    (0x8000 ≤ (t.alloc obj type grantedAccess flags).1 → 8127 ≤ t.openSmall.card) := by
  have hkept : t.Kept := hreached ▸ (empty_kept.run calls).1
  obtain ⟨idx, hhandle, hnew⟩ := hkept.alloc obj type grantedAccess flags
  have hinside := hnew.inside
  have hgrown := hnew.grown.2
  have hget : ∀ j ≤ kCompatMaxIndex, t.get (makeHandle j) = t.opened j := by
    intro j hj
    apply get_makeHandle
    rw [kCompatMaxIndex] at hj
    omega
  have hlarge : 0x8000 ≤ (t.alloc obj type grantedAccess flags).1 ↔ kCompatMaxIndex < idx := by
    rw [hhandle, ← not_lt, makeHandle_small (by omega), not_le]
  have hall : 0x8000 ≤ (t.alloc obj type grantedAccess flags).1 ↔ ∀ idx ≤ kCompatMaxIndex,
      (t.get (makeHandle idx)).isSome ∨ idx ∈ t.quarantine := by
    rw [hlarge]
    constructor
    · intro hlt j hj
      obtain ⟨hlast, hbelow⟩ := hnew.last hlt
      rw [hget j hj]
      exact hkept.small_cases hlast hbelow hj
    · intro hall
      by_contra hle
      rcases hall idx (not_lt.mp hle) with hopened | hwaiting
      · rw [hget idx (not_lt.mp hle), hnew.closed] at hopened
        cases hopened
      · exact hnew.waiting hwaiting
  refine ⟨hall, fun hlt => ?_⟩
  have hcover : Finset.range (kCompatMaxIndex + 1) ⊆ t.openSmall ∪ t.quarantine.toFinset := by
    intro j hj
    rw [Finset.mem_union, openSmall, Finset.mem_filter, List.mem_toFinset]
    rcases hall.mp hlt j (Nat.le_of_lt_succ (Finset.mem_range.mp hj)) with hopened | hwaiting
    · exact .inl ⟨hj, hopened⟩
    · exact .inr hwaiting
  have hcard := (Finset.card_le_card hcover).trans (Finset.card_union_le _ _)
  have hwaiting := (List.toFinset_card_le t.quarantine).trans hkept.waiting
  rw [Finset.card_range] at hcard
  rw [kCompatMaxIndex] at hcard
  rw [kQuarantineLen] at hwaiting
  omega

/-- Three handles are given out and the second is closed again: `4` and `12` are open, the index of
`8` is in quarantine. -/
def secondClosed : Table Nat :=
  ((empty : Table Nat).run [.alloc 0 .file 0 0, .alloc 1 .event 0 1, .alloc 2 .file 0 0, .release 8]).2

theorem alloc_small_quarantined :
    (0x8000 ≤ (secondClosed.alloc 3 .file 0 0).1 ↔ ∀ idx ≤ kCompatMaxIndex,
      (secondClosed.get (makeHandle idx)).isSome ∨ idx ∈ secondClosed.quarantine) ∧
    (0x8000 ≤ (secondClosed.alloc 3 .file 0 0).1 → 8127 ≤ secondClosed.openSmall.card) :=
  alloc_small [.alloc 0 .file 0 0, .alloc 1 .event 0 1, .alloc 2 .file 0 0, .release 8] rfl (by decide)
    3 .file 0 0

/-! ## Handles that come back -/

/-- The call has closed a small handle. -/
def closesSmall : Call Obj × Answer Obj → Bool
  | (.release h, .released _) => h < 0x8000
  | _ => false

/-- The index waits with so many others behind it, or has waited for 64. -/
def Waits (t : Table Obj) (idx others : Nat) : Prop :=
  kQuarantineLen ≤ others ∨ ∃ front back, t.quarantine = front ++ idx :: back ∧ back.length = others

theorem Waits.closed (h : t.Kept) {others : Nat} (hwaits : t.Waits idx others)
    (hfew : others < kQuarantineLen) : t.opened idx = none := by
  rcases hwaits with hmany | ⟨front, back, hwaiting, -⟩
  · omega
  · have hfree : idx ∈ t.free := by
      rw [free, hwaiting]
      simp
    exact ((h.mem_free idx).mp hfree).2

/-- One more waits behind it, unless it was the first of too many. -/
theorem Waits.push {t' : Table Obj} {others i : Nat} (hwaits : t.Waits idx others)
    (h : t'.quarantine = t.quarantine ++ [i] ∨ t.quarantine.length = kQuarantineLen ∧
      ∃ front, t.quarantine ++ [i] = front :: t'.quarantine) : t'.Waits idx (others + 1) := by
  rcases hwaits with hmany | ⟨front, back, hwaiting, hback⟩
  · exact .inl (Nat.le_succ_of_le hmany)
  · have hpushed : t.quarantine ++ [i] = front ++ idx :: (back ++ [i]) := by
      rw [hwaiting, List.append_assoc, List.cons_append]
    have hlength : (back ++ [i]).length = others + 1 := by
      rw [List.length_append, hback]
      rfl
    rcases h with heq | ⟨hfull, first, heq⟩
    · exact .inr ⟨front, back ++ [i], heq.trans hpushed, hlength⟩
    · rw [hpushed] at heq
      cases front with
      | nil =>
        left
        rw [hwaiting, List.length_append, List.length_cons] at hfull
        simp only [List.length_nil] at hfull
        omega
      | cons first' front =>
        obtain ⟨-, hrest⟩ := List.cons.inj heq
        exact .inr ⟨front, back ++ [i], hrest.symm, hlength⟩

theorem Waits.congr {t' : Table Obj} {others : Nat} (h : t'.quarantine = t.quarantine)
    (hwaits : t.Waits idx others) : t'.Waits idx others := by
  rwa [Waits, h]

/-- What a call puts behind a small index that waits. -/
theorem Waits.call (h : t.Kept) {others : Nat} (hwaits : t.Waits idx others) (c : Call Obj)
    (hsmall : (t.call c).2.slots.length < 2 ^ 29) :
    (t.call c).2.Waits idx (others + if closesSmall (c, (t.call c).1) then 1 else 0) := by
  cases c with
  | alloc obj type grantedAccess flags =>
    obtain ⟨i, -, hnew⟩ := h.alloc obj type grantedAccess flags
    exact hwaits.congr hnew.quarantine
  | release k =>
    rcases t.release_cases k with ⟨hpseudo, heq⟩ | ⟨hreal, ⟨hrefuse, heq⟩ |
      ⟨obj, info, hfound, hunprotected, heq⟩⟩
    · rw [Table.call, heq]
      exact hwaits
    · rw [Table.call, heq]
      exact hwaits
    · have hclosed := h.close hfound
      rw [Table.call, heq] at hsmall ⊢
      have hlt := opened_lt hfound
      have hlimit : t.slots.length < 2 ^ 29 := hclosed.grown ▸ hsmall
      have hhandle := (opened_indexOf hlimit hreal hfound).2
      have hcompat : k < 0x8000 ↔ indexOf k ≤ kCompatMaxIndex := by
        conv_lhs => rw [hhandle]
        exact makeHandle_small (by omega)
      by_cases hle : indexOf k ≤ kCompatMaxIndex
      · rw [closesSmall, decide_eq_true (hcompat.mpr hle), if_pos rfl]
        exact hwaits.push (hclosed.waits hle)
      · rw [closesSmall, decide_eq_false (mt hcompat.mp hle), if_neg Bool.false_ne_true]
        exact hwaits.congr (hclosed.above (not_le.mp hle))
  | setInformation k mask value =>
    rcases t.setInformation_cases k mask value with ⟨-, heq⟩ | ⟨-, ⟨-, heq⟩ | ⟨_, _, -, heq⟩⟩
    · rw [Table.call, heq]
      exact hwaits
    · rw [Table.call, heq]
      exact hwaits
    · rw [Table.call, heq]
      exact hwaits.congr rfl
  | getInformation k => exact hwaits

theorem Waits.run (h : t.Kept) {others : Nat} (hwaits : t.Waits idx others)
    (calls : List (Call Obj)) (hsmall : (t.run calls).2.slots.length < 2 ^ 29) :
    (t.run calls).2.Waits idx (others + (calls.zip (t.run calls).1).countP closesSmall) := by
  induction calls generalizing t others with
  | nil => exact hwaits
  | cons c calls ih =>
    have hkept := (h.follows c).kept
    have hgrown := (hkept.run calls).2.1
    have hcall := hwaits.call h c (hgrown.trans_lt hsmall)
    have hrest := ih hkept hcall hsmall
    rw [Table.run, List.zip_cons_cons, List.countP_cons, Nat.add_comm (List.countP _ _),
      ← Nat.add_assoc]
    exact hrest

/-- The index of a small handle waits from the moment the handle is closed. -/
theorem Kept.waits (h : t.Kept) (hlimit : t.slots.length < 2 ^ 29) {k : Nat} {obj : Obj}
    {closed : Table Obj} (hsmall : k < 0x8000) (hreleased : t.call (.release k) = (.released obj, closed)) :
    closed.Waits (indexOf k) 0 := by
  rw [Table.call] at hreleased
  rcases t.release_cases k with ⟨-, heq⟩ | ⟨-, ⟨-, heq⟩ | ⟨_, _, hfound, -, heq⟩⟩
  · rw [heq] at hreleased
    cases hreleased
  · rw [heq] at hreleased
    cases hreleased
  · rw [heq] at hreleased
    cases hreleased
    have hlt := opened_lt hfound
    have hle : indexOf k ≤ kCompatMaxIndex := by
      rw [indexOf] at hlt ⊢
      rw [kCompatMaxIndex]
      split_ifs at hlt ⊢ <;> omega
    rcases (h.close hfound).waits hle with heq | ⟨hfull, front, heq⟩
    · exact .inr ⟨t.quarantine, [], heq, rfl⟩
    · cases hquarantine : t.quarantine with
      | nil =>
        rw [hquarantine] at hfull
        cases hfull
      | cons first rest =>
        rw [hquarantine] at heq
        obtain ⟨-, hrest⟩ := List.cons.inj heq
        exact .inr ⟨rest, [], hrest.symm, rfl⟩

/-- A small handle that was closed stays closed until 64 more small handles have been closed. -/
theorem reuse_delayed (before between : List (Call Obj)) {t closed : Table Obj} {h : Nat} {obj : Obj}
    (hreached : ((empty : Table Obj).run before).2 = t) (hsmall : h < 0x8000)
    (hreleased : t.call (.release h) = (.released obj, closed))
    (hlimit : (closed.run between).2.slots.length < 2 ^ 29)
    (hfew : (between.zip (closed.run between).1).countP closesSmall < 64) :
    (closed.run between).2.get h = none := by
  have hkept : t.Kept := hreached ▸ (empty_kept.run before).1
  obtain ⟨hclosed, hgrown, -⟩ := hkept.follows (.release h)
  rw [hreleased] at hclosed hgrown
  have hrun := hclosed.run between
  have hwaits := (hkept.waits ((hgrown.trans hrun.2.1).trans_lt hlimit) hsmall hreleased).run hclosed
    between hlimit
  rw [Nat.zero_add] at hwaits
  have hreal : isPseudo h = false := decide_eq_false (by omega)
  rw [get_real hlimit hreal, hwaits.closed hrun.1 hfew]

/-- A file is opened and closed, and another opened. -/
theorem reuse_delayed_file :
    (((empty : Table Nat).run [.alloc 0 .file 0 0, .release 4, .alloc 1 .file 0 0]).2).get 4 = none :=
  reuse_delayed [.alloc 0 .file 0 0] [.alloc 1 .file 0 0] rfl (by decide) rfl (by decide) (by decide)

end Table

end

end MeleeHarness.Wibo
