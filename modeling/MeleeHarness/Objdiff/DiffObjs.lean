import MeleeHarness.Objdiff.Penalty
import MeleeHarness.Objdiff.SymbolMatch

/-!
# Diffing two objects

The symbol half of `diff_objs` (`objdiff-core/src/diff/mod.rs`): every entry of
`matching_symbols` is diffed in order and the results are stored by symbol
index. The section half reads these results and changes none of them.

* `diffObjs_paired`: two paired symbols end with the two results of their diff;
* `diffObjs_unpaired`: a symbol of the base object that is in no pair ends with
  no target and no score.
-/

namespace MeleeHarness.Objdiff

open Lib

/-- What diffing takes from outside: the patience diff and the float ratios. -/
structure DiffEnv where
  captureDiffSlices : CaptureDiffSlices
  dataMatchPercent : DataMatchPercent

/-- The diffs of both objects' symbols, by index. -/
structure SymbolDiffs where
  left : List SymbolDiff
  right : List SymbolDiff

def diffMatched (env : DiffEnv) (p : DiffPair) :
    SectionKind → Except String (SymbolDiff × SymbolDiff)
  | .code => diffCode env.captureDiffSlices p
  | .data => diffDataSymbol env.dataMatchPercent p.leftObj p.rightObj p.leftSymbolIdx
      p.rightSymbolIdx
  | .bss => diffBssSymbol p.leftObj p.rightObj p.leftSymbolIdx p.rightSymbolIdx
  | .common => diffBssSymbol p.leftObj p.rightObj p.leftSymbolIdx p.rightSymbolIdx
  | .unknown => .error "internal error: entered unreachable code"

/-- The diff of an unpaired symbol; `none` where it is left as it is. -/
def diffAlone (obj : Object) (symbolIndex : Nat) :
    SectionKind → Except String (Option SymbolDiff)
  | .code => (noDiffCode obj symbolIndex).map some
  | .data => (noDiffDataSymbol obj symbolIndex).map some
  | .bss => .ok none
  | .common => .ok none
  | .unknown => .error "internal error: entered unreachable code"

def storeAlone (diffs : List SymbolDiff) (i : Nat) : Option SymbolDiff → List SymbolDiff
  | none => diffs
  | some d => diffs.set i d

def diffMatch (env : DiffEnv) (config : DiffObjConfig) (left right : Object) (out : SymbolDiffs)
    (m : SymbolMatch) : Except String SymbolDiffs :=
  match m.left, m.right with
  | some l, some r => do
    let (leftDiff, rightDiff) ← diffMatched env ⟨left, right, l, r, config⟩ m.sectionKind
    return ⟨out.left.set l leftDiff, out.right.set r rightDiff⟩
  | some l, none => do
    let d ← diffAlone left l m.sectionKind
    return { out with left := storeAlone out.left l d }
  | none, some r => do
    let d ← diffAlone right r m.sectionKind
    return { out with right := storeAlone out.right r d }
  | none, none => return out

/-- `diff_objs` for two present objects. -/
def diffObjs (env : DiffEnv) (config : DiffObjConfig) (left right : Object) :
    Except String SymbolDiffs :=
  (matchingSymbols env.dataMatchPercent (some left) (some right)).foldlM
    (diffMatch env config left right)
    ⟨left.symbols.map fun _ => {}, right.symbols.map fun _ => {}⟩

/-! ## Results by symbol -/

section
variable {env : DiffEnv} {config : DiffObjConfig} {left right : Object}

/-- The entries of `found` that pair `l` with `r`. -/
def Pairs (found : List SymbolMatch) (l r : Nat) (kind : SectionKind) : Prop :=
  ⟨some l, some r, kind⟩ ∈ found

/-- The symbols two objects' diff compares with each other. -/
def PairedAs (env : DiffEnv) (left right : Object) (l r : Nat) (kind : SectionKind) : Prop :=
  Pairs (matchingSymbols env.dataMatchPercent (some left) (some right)) l r kind

/-- A symbol diff that came from no comparison. -/
def SymbolDiff.Alone (d : SymbolDiff) : Prop := d.targetSymbol = none ∧ d.diffScore = none

theorem diffAlone_alone {obj : Object} {i : Nat} {kind : SectionKind} {d : SymbolDiff}
    (h : diffAlone obj i kind = .ok (some d)) : d.Alone := by
  unfold diffAlone at h
  split at h
  · cases hn : noDiffCode obj i with
    | error e => rw [hn] at h; cases h
    | ok d' =>
      rw [hn] at h
      cases h
      exact noDiffCode_spec hn
  · cases hn : noDiffDataSymbol obj i with
    | error e => rw [hn] at h; cases h
    | ok d' =>
      rw [hn] at h
      cases h
      obtain ⟨s, -, hn⟩ := bind_ok_iff.mp hn
      obtain ⟨start, -, hn⟩ := bind_ok_iff.mp hn
      obtain ⟨u, -, hn⟩ := bind_ok_iff.mp hn
      cases hn
      exact ⟨rfl, rfl⟩
  all_goals cases h

/-- What one step of the loop does to the stored diffs. -/
theorem diffMatch_cases {out out' : SymbolDiffs} {m : SymbolMatch}
    (h : diffMatch env config left right out m = .ok out') :
    (∃ l r d, m = ⟨some l, some r, m.sectionKind⟩ ∧
      diffMatched env ⟨left, right, l, r, config⟩ m.sectionKind = .ok d ∧
      out' = ⟨out.left.set l d.1, out.right.set r d.2⟩) ∨
    (∃ l d, m = ⟨some l, none, m.sectionKind⟩ ∧ diffAlone left l m.sectionKind = .ok d ∧
      out' = { out with left := storeAlone out.left l d }) ∨
    (∃ r d, m = ⟨none, some r, m.sectionKind⟩ ∧ diffAlone right r m.sectionKind = .ok d ∧
      out' = { out with right := storeAlone out.right r d }) ∨
    (m = ⟨none, none, m.sectionKind⟩ ∧ out' = out) := by
  obtain ⟨ml, mr, kind⟩ := m
  unfold diffMatch at h
  cases ml with
  | some l =>
    cases mr with
    | some r =>
      obtain ⟨d, hd, h⟩ := bind_ok_iff.mp h
      cases h
      exact .inl ⟨l, r, d, rfl, hd, rfl⟩
    | none =>
      obtain ⟨d, hd, h⟩ := bind_ok_iff.mp h
      cases h
      exact .inr (.inl ⟨l, d, rfl, hd, rfl⟩)
  | none =>
    cases mr with
    | some r =>
      obtain ⟨d, hd, h⟩ := bind_ok_iff.mp h
      cases h
      exact .inr (.inr (.inl ⟨r, d, rfl, hd, rfl⟩))
    | none =>
      cases h
      exact .inr (.inr (.inr ⟨rfl, rfl⟩))

/-- Pairs diffed so far hold their results; base symbols in no pair hold none. -/
structure Stored (env : DiffEnv) (config : DiffObjConfig) (left right : Object)
    (found : List SymbolMatch) (out : SymbolDiffs) : Prop where
  paired : ∀ l r kind, Pairs found l r kind →
    ∃ d, diffMatched env ⟨left, right, l, r, config⟩ kind = .ok d ∧
      (l < left.symbols.length → out.left[l]? = some d.1) ∧
      (r < right.symbols.length → out.right[r]? = some d.2)
  alone : ∀ r d, out.right[r]? = some d → (∀ l kind, ¬Pairs found l r kind) → d.Alone
  leftLength : out.left.length = left.symbols.length
  rightLength : out.right.length = right.symbols.length

theorem storeAlone_length (diffs : List SymbolDiff) (i : Nat) (d : Option SymbolDiff) :
    (storeAlone diffs i d).length = diffs.length := by
  cases d <;> simp [storeAlone]

theorem storeAlone_ne {diffs : List SymbolDiff} {i j : Nat} {d : Option SymbolDiff} (h : i ≠ j) :
    (storeAlone diffs i d)[j]? = diffs[j]? := by
  cases d <;> simp [storeAlone, List.getElem?_set_ne h]

theorem stored_start : Stored env config left right []
    ⟨left.symbols.map fun _ => {}, right.symbols.map fun _ => {}⟩ := by
  refine ⟨?_, ?_, by simp, by simp⟩
  · intro l r kind h
    cases h
  · intro r d h _
    obtain ⟨x, -, rfl⟩ := List.mem_map.mp (List.mem_of_getElem? h)
    exact ⟨rfl, rfl⟩

theorem pairs_append {found : List SymbolMatch} {m : SymbolMatch} {l r : Nat}
    {kind : SectionKind} :
    Pairs (found ++ [m]) l r kind ↔ Pairs found l r kind ∨ m = ⟨some l, some r, kind⟩ := by
  simp only [Pairs, List.mem_append, List.mem_singleton, eq_comm]

namespace Stored

variable {found : List SymbolMatch} {m : SymbolMatch} {out out' : SymbolDiffs}

theorem left_some (hs : Stored env config left right found out) {l : Nat}
    (hl : l < left.symbols.length) : ∃ d, out.left[l]? = some d :=
  ⟨_, List.getElem?_eq_getElem (by rw [hs.leftLength]; exact hl)⟩

theorem right_some (hs : Stored env config left right found out) {r : Nat}
    (hr : r < right.symbols.length) : ∃ d, out.right[r]? = some d :=
  ⟨_, List.getElem?_eq_getElem (by rw [hs.rightLength]; exact hr)⟩

theorem addPair (hs : Stored env config left right found out) (hu : ∀ a ∈ found, Untouched a m)
    {l₀ r₀ : Nat} (hm : m = ⟨some l₀, some r₀, m.sectionKind⟩) {d₀ : SymbolDiff × SymbolDiff}
    (hd : diffMatched env ⟨left, right, l₀, r₀, config⟩ m.sectionKind = .ok d₀) :
    Stored env config left right (found ++ [m])
      ⟨out.left.set l₀ d₀.1, out.right.set r₀ d₀.2⟩ := by
  refine ⟨?_, ?_, by simpa using hs.leftLength, by simpa using hs.rightLength⟩
  · intro l r kind hp
    rcases pairs_append.mp hp with hp | hp
    · obtain ⟨hl, hr⟩ := hu _ hp l r rfl rfl
      rw [hm] at hl hr
      obtain ⟨d, hd', hl', hr'⟩ := hs.paired l r kind hp
      have hl : l₀ ≠ l := fun e => hl (by rw [e])
      have hr : r₀ ≠ r := fun e => hr (by rw [e])
      exact ⟨d, hd', by simpa [List.getElem?_set_ne hl] using hl',
        by simpa [List.getElem?_set_ne hr] using hr'⟩
    · rw [hm] at hp hd
      cases hp
      refine ⟨d₀, hd, ?_, ?_⟩
      · intro hb
        exact List.getElem?_set_self (by rw [hs.leftLength]; exact hb)
      · intro hb
        exact List.getElem?_set_self (by rw [hs.rightLength]; exact hb)
  · intro r d hr hno
    have hne : r₀ ≠ r := by
      rintro rfl
      exact hno l₀ m.sectionKind (pairs_append.mpr (.inr hm))
    rw [List.getElem?_set_ne hne] at hr
    exact hs.alone r d hr fun l kind hp => hno l kind (pairs_append.mpr (.inl hp))

/-- A match that is no pair touches no result but its own symbol's. -/
theorem addAlone (hs : Stored env config left right found out) (hu : ∀ a ∈ found, Untouched a m)
    (hlone : ∀ l r kind, m ≠ ⟨some l, some r, kind⟩)
    (hleft : ∀ l, m.left ≠ some l → out'.left[l]? = out.left[l]?)
    (hright : ∀ r, m.right ≠ some r → out'.right[r]? = out.right[r]?)
    (hown : ∀ r d, m.right = some r → out'.right[r]? = some d → out.right[r]? = some d ∨ d.Alone)
    (hlefts : out'.left.length = out.left.length)
    (hrights : out'.right.length = out.right.length) :
    Stored env config left right (found ++ [m]) out' := by
  have hpairs {l r : Nat} {kind : SectionKind} :
      Pairs (found ++ [m]) l r kind ↔ Pairs found l r kind := by
    simp [pairs_append, hlone]
  refine ⟨?_, ?_, hlefts.trans hs.leftLength, hrights.trans hs.rightLength⟩
  · intro l r kind hp
    have hp := hpairs.mp hp
    obtain ⟨hl, hr⟩ := hu _ hp l r rfl rfl
    rw [hleft l hl, hright r hr]
    exact hs.paired l r kind hp
  · intro r d hr hno
    have hno' : ∀ l kind, ¬Pairs found l r kind := fun l kind hp => hno l kind (hpairs.mpr hp)
    by_cases hm : m.right = some r
    · rcases hown r d hm hr with hold | hnew
      · exact hs.alone r d hold hno'
      · exact hnew
    · rw [hright r hm] at hr
      exact hs.alone r d hr hno'

end Stored

theorem storeAlone_own {diffs : List SymbolDiff} {i : Nat} {d : Option SymbolDiff}
    {own : SymbolDiff} (h : (storeAlone diffs i d)[i]? = some own) :
    diffs[i]? = some own ∨ d = some own := by
  cases d with
  | none => exact .inl h
  | some d₁ =>
    obtain ⟨hb, -⟩ := List.getElem?_eq_some_iff.mp h
    rw [storeAlone, List.getElem?_set_self (by simpa [storeAlone] using hb)] at h
    exact .inr h

theorem stored_step {found : List SymbolMatch} {m : SymbolMatch} {out out' : SymbolDiffs}
    (hs : Stored env config left right found out) (hu : ∀ a ∈ found, Untouched a m)
    (h : diffMatch env config left right out m = .ok out') :
    Stored env config left right (found ++ [m]) out' := by
  obtain ⟨l₀, r₀, d₀, hm, hd, rfl⟩ | ⟨l₀, d₀, hm, hd, rfl⟩ | ⟨r₀, d₀, hm, hd, rfl⟩ | ⟨hm, rfl⟩ :=
    diffMatch_cases h
  · exact hs.addPair hu hm hd
  · refine hs.addAlone hu ?_ ?_ (fun _ _ => rfl) (fun r d _ hr => .inl hr) ?_ rfl
    · rw [hm]
      simp
    · intro l hl
      rw [hm] at hl
      exact storeAlone_ne fun e => hl (by rw [e])
    · exact storeAlone_length ..
  · refine hs.addAlone hu ?_ (fun _ _ => rfl) ?_ ?_ rfl ?_
    · rw [hm]
      simp
    · intro r hr
      rw [hm] at hr
      exact storeAlone_ne fun e => hr (by rw [e])
    · intro r d hr hd'
      rw [hm] at hr
      cases hr
      rcases storeAlone_own hd' with hold | rfl
      · exact .inl hold
      · exact .inr (diffAlone_alone hd)
    · exact storeAlone_length ..
  · refine hs.addAlone hu ?_ (fun _ _ => rfl) (fun _ _ => rfl) (fun r d _ hr => .inl hr) rfl rfl
    rw [hm]
    simp

theorem diffObjs_stored {out : SymbolDiffs} (h : diffObjs env config left right = .ok out) :
    Stored env config left right
      (matchingSymbols env.dataMatchPercent (some left) (some right)) out := by
  have hsettled := matchingSymbols_settled env.dataMatchPercent (some left) (some right)
  refine foldlM_invariant (Stored env config left right) stored_start ?_ h
  intro seen m rest s s' hxs hs hstep
  refine stored_step hs ?_ hstep
  rw [Settled, hxs, List.pairwise_append] at hsettled
  intro a ha
  exact hsettled.2.2 a ha m List.mem_cons_self

/-- Paired symbols end with the two results of their diff. -/
theorem diffObjs_paired {out : SymbolDiffs} (h : diffObjs env config left right = .ok out)
    {l r : Nat} {kind : SectionKind} (hp : PairedAs env left right l r kind)
    (hl : l < left.symbols.length) (hr : r < right.symbols.length) :
    ∃ d, diffMatched env ⟨left, right, l, r, config⟩ kind = .ok d ∧
      out.left[l]? = some d.1 ∧ out.right[r]? = some d.2 := by
  obtain ⟨d, hd, hl', hr'⟩ := (diffObjs_stored h).paired l r kind hp
  exact ⟨d, hd, hl' hl, hr' hr⟩

/-- A base symbol in no pair ends with no target and no score. -/
theorem diffObjs_unpaired {out : SymbolDiffs} (h : diffObjs env config left right = .ok out)
    {r : Nat} {d : SymbolDiff} (hd : out.right[r]? = some d)
    (hno : ∀ l kind, ¬PairedAs env left right l r kind) : d.Alone :=
  (diffObjs_stored h).alone r d hd hno

end

/-! ## An environment to run in -/

def commonLength : List Nat → List Nat → Nat
  | a :: as, b :: bs => if a = b then commonLength as bs + 1 else 0
  | _, _ => 0

def blockOp (start oldLen newLen : Nat) : List DiffOp :=
  match oldLen, newLen with
  | 0, 0 => []
  | 0, m => [.insert start start m]
  | n, 0 => [.delete start n start]
  | n, m => [.replace start n start m]

/-- The diff of two lists that differ in one block. -/
def oneBlockDiff : CaptureDiffSlices := fun old new =>
  let front := commonLength old new
  let back := commonLength (old.drop front).reverse (new.drop front).reverse
  let oldLen := old.length - front - back
  let newLen := new.length - front - back
  (if front = 0 then [] else [.equal 0 0 front]) ++ blockOp front oldLen newLen ++
    (if back = 0 then [] else [.equal (front + oldLen) (front + newLen) back])

def oneBlockEnv : DiffEnv := ⟨oneBlockDiff, fun _ _ _ _ => 0⟩

end MeleeHarness.Objdiff
