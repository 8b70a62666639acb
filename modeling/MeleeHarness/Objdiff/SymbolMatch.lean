import MeleeHarness.Objdiff.CodeDiff

/-!
# Pairing the symbols of two objects

`matching_symbols` and `find_symbol` of `objdiff-core/src/diff/mod.rs`, for the
mapping configuration the command line uses (no manual mappings) and no
previous object.

`matchingSymbols_settled`: once two symbols are paired, no later entry of the
list mentions either of them.
-/

namespace MeleeHarness.Objdiff

/-- The percentage `diff_data_symbol` computes from the byte and relocation
ratios of two data ranges, in floating point. -/
abbrev DataMatchPercent := Object → Object → Nat → Nat → Rat

def dataSymbol (obj : Object) (symbolIndex : Nat) : Except String (Symbol × Section) := do
  let some symbol := obj.symbols[symbolIndex]? | throw "index out of bounds"
  let some sectionIndex := symbol.sectionIndex | throw "Data symbol section not found"
  let some «section» := obj.sections[sectionIndex]? | throw "index out of bounds"
  return (symbol, «section»)

def dataStart (s : Symbol × Section) : Except String Nat :=
  if s.2.address ≤ s.1.address then .ok (s.1.address - s.2.address)
  else .error "Symbol address out of section bounds"

def dataBounds (s : Symbol × Section) (start : Nat) : Except String Unit :=
  if start + s.1.size ≤ s.2.size then .ok ()
  else .error ("Symbol " ++ s.1.name ++ " size out of section bounds (" ++
    toString (start + s.1.size) ++ " > " ++ toString s.2.size ++ ")")

def diffDataSymbol (dataMatchPercent : DataMatchPercent) (leftObj rightObj : Object)
    (leftSymbolIdx rightSymbolIdx : Nat) : Except String (SymbolDiff × SymbolDiff) := do
  let left ← dataSymbol leftObj leftSymbolIdx
  let right ← dataSymbol rightObj rightSymbolIdx
  let leftStart ← dataStart left
  let rightStart ← dataStart right
  dataBounds left leftStart
  dataBounds right rightStart
  let percent := dataMatchPercent leftObj rightObj leftSymbolIdx rightSymbolIdx
  return ({ targetSymbol := some rightSymbolIdx, matchPercent := some percent },
    { targetSymbol := some leftSymbolIdx, matchPercent := some percent })

def noDiffDataSymbol (obj : Object) (symbolIndex : Nat) : Except String SymbolDiff := do
  let s ← dataSymbol obj symbolIndex
  let start ← dataStart s
  dataBounds s start
  return {}

def diffBssSymbol (leftObj rightObj : Object) (leftSymbolRef rightSymbolRef : Nat) :
    Except String (SymbolDiff × SymbolDiff) := do
  let some left := leftObj.symbols[leftSymbolRef]? | throw "index out of bounds"
  let some right := rightObj.symbols[rightSymbolRef]? | throw "index out of bounds"
  let percent : Rat := if left.size = right.size then 100 else 50
  return ({ targetSymbol := some rightSymbolRef, matchPercent := some percent },
    { targetSymbol := some leftSymbolRef, matchPercent := some percent })

def symbolNameMatches (left right : Symbol) : Bool :=
  match left.normalizedName, right.normalizedName with
  | some l, some r => l == r
  | _, _ => left.name == right.name

/-- Name, up to a `$`, and kind of the section a symbol is in. -/
def symbolSection (obj : Object) (symbol : Symbol) : Option (String × SectionKind) :=
  match symbol.sectionIndex.bind fun i => obj.sections[i]? with
  | some s => some (String.ofList (s.name.toList.takeWhile (· != '$')), s.kind)
  | none => if symbol.flags.common then some (".comm", .common) else none

/-- Section indices come from the reader and are in range. -/
def symbolSectionKind (obj : Object) (symbol : Symbol) : SectionKind :=
  match symbol.sectionIndex with
  | some i => (obj.sections[i]?.map (·.kind)).getD .unknown
  | none => if symbol.flags.common then .common else .unknown

def unmatchedSymbols (obj : Object) (used : List Nat) : List (Symbol × Nat) :=
  obj.symbols.zipIdx.filter fun (symbol, i) => !symbol.flags.ignored && !used.contains i

/-- The first exact match, else with `fuzzy` the closest one from one half on. -/
def closestMatch (percent : Nat → Option Rat) (fuzzy : Bool) :
    List Nat → Option (Nat × Rat) → Option Nat
  | [], best => best.map (·.1)
  | i :: rest, best =>
    match percent i with
    | none => closestMatch percent fuzzy rest best
    | some p =>
      if p = 100 then some i
      else if fuzzy && decide (50 ≤ p) && decide ((best.map (·.2)).getD 0 < p) then
        closestMatch percent fuzzy rest (some (i, p))
      else closestMatch percent fuzzy rest best

/-- Compiler-generated symbols of the same section are compared by value. -/
def generatedCandidates (obj : Object) (sectionName : String) (used : List Nat) :
    List (Symbol × Nat) :=
  (unmatchedSymbols obj used).filter fun (symbol, _) =>
    symbol.flags.compilerGenerated &&
      (symbol.sectionIndex.bind fun i => obj.sections[i]?.map (·.name)) == some sectionName

def findGenerated (dataMatchPercent : DataMatchPercent) (obj inObj : Object) (inSymbolIdx : Nat)
    (inSymbol : Symbol) (sectionName : String) (kind : SectionKind) (used : List Nat)
    (fuzzy : Bool) : Option Nat :=
  let candidates := generatedCandidates obj sectionName used
  if kind = .bss then
    (candidates.find? fun (symbol, _) => inSymbol.size == symbol.size).map (·.2)
  else
    closestMatch (fun i => match diffDataSymbol dataMatchPercent inObj obj inSymbolIdx i with
      | .ok (leftDiff, _) => leftDiff.matchPercent
      | .error _ => none) fuzzy (candidates.map (·.2)) none

def findSymbol (dataMatchPercent : DataMatchPercent) (obj : Option Object) (inObj : Object)
    (inSymbolIdx : Nat) (inSymbol : Symbol) (used : List Nat) (fuzzy : Bool) : Option Nat := do
  let obj ← obj
  let (sectionName, kind) ← symbolSection inObj inSymbol
  if inSymbol.flags.compilerGenerated && (kind = .code || kind = .data || kind = .bss) then
    findGenerated dataMatchPercent obj inObj inSymbolIdx inSymbol sectionName kind used fuzzy
  else
    ((unmatchedSymbols obj used).find? fun (symbol, _) =>
      symbolNameMatches inSymbol symbol && symbolSectionKind obj symbol == kind &&
        (symbolSection obj symbol).any fun (name, _) => name == sectionName).map (·.2)

structure SymbolMatch where
  left : Option Nat
  right : Option Nat
  sectionKind : SectionKind
  deriving DecidableEq, Repr

structure MatchState where
  found : List SymbolMatch := []
  leftUsed : List Nat := []
  rightUsed : List Nat := []

/-- Symbols with no size, ignored ones and those in no known section are not diffed. -/
def isDiffed (obj : Object) (symbol : Symbol) : Bool :=
  symbol.size != 0 && !symbol.flags.ignored && symbolSectionKind obj symbol != .unknown

def matchLeft (dataMatchPercent : DataMatchPercent) (left : Object) (right : Option Object)
    (fuzzy : Bool) (s : MatchState) (entry : Symbol × Nat) : MatchState :=
  let (symbol, i) := entry
  if isDiffed left symbol && !s.leftUsed.contains i then
    let found := findSymbol dataMatchPercent right left i symbol s.rightUsed fuzzy
    let entry := { left := some i, right := found, sectionKind := symbolSectionKind left symbol }
    match found with
    | some r => ⟨s.found ++ [entry], i :: s.leftUsed, r :: s.rightUsed⟩
    | none => { s with found := s.found ++ [entry] }
  else s

def matchRight (right : Object) (s : MatchState) (entry : Symbol × Nat) : MatchState :=
  let (symbol, i) := entry
  if isDiffed right symbol && !s.rightUsed.contains i then
    let kind := symbolSectionKind right symbol
    { s with found := s.found ++ [{ left := none, right := some i, sectionKind := kind }] }
  else s

/-- Two passes over each object: exact matches of generated symbols first, then
near ones. -/
def matchingSymbols (dataMatchPercent : DataMatchPercent) (left right : Option Object) :
    List SymbolMatch :=
  let s : MatchState := match left with
    | none => {}
    | some l => [false, true].foldl (fun s fuzzy =>
        l.symbols.zipIdx.foldl (matchLeft dataMatchPercent l right fuzzy) s) {}
  let s := match right with
    | none => s
    | some r => [false, true].foldl (fun s _ => r.symbols.zipIdx.foldl (matchRight r) s) s
  s.found

/-! ## A symbol that is found was not used before -/

theorem mem_unmatchedSymbols {obj : Object} {used : List Nat} {x : Symbol × Nat}
    (h : x ∈ unmatchedSymbols obj used) : x.2 ∉ used := by
  have := (List.mem_filter.mp h).2
  simp only [Bool.and_eq_true, Bool.not_eq_true', List.contains_eq_mem,
    decide_eq_false_iff_not] at this
  exact this.2

theorem closestMatch_mem {percent : Nat → Option Rat} {fuzzy : Bool} {is : List Nat}
    {best : Option (Nat × Rat)} {i : Nat} (h : closestMatch percent fuzzy is best = some i) :
    i ∈ is ∨ ∃ p, best = some (i, p) := by
  induction is generalizing best with
  | nil =>
    obtain ⟨⟨j, p⟩, hb, rfl⟩ := Option.map_eq_some_iff.mp h
    exact .inr ⟨p, hb⟩
  | cons j is ih =>
    rw [closestMatch] at h
    split at h
    · exact (ih h).imp (List.mem_cons_of_mem j) id
    · split at h
      · cases h
        exact .inl List.mem_cons_self
      · split at h
        · rcases ih h with hm | ⟨q, hq⟩
          · exact .inl (List.mem_cons_of_mem j hm)
          · cases hq
            exact .inl List.mem_cons_self
        · exact (ih h).imp (List.mem_cons_of_mem j) id

theorem findGenerated_unused {pct : DataMatchPercent} {obj inObj : Object} {i : Nat}
    {symbol : Symbol} {name : String} {kind : SectionKind} {used : List Nat} {fuzzy : Bool}
    {r : Nat} (h : findGenerated pct obj inObj i symbol name kind used fuzzy = some r) :
    r ∉ used := by
  have unused {x : Symbol × Nat} (hx : x ∈ generatedCandidates obj name used) : x.2 ∉ used :=
    mem_unmatchedSymbols (List.mem_filter.mp hx).1
  unfold findGenerated at h
  simp only at h
  split at h
  · obtain ⟨x, hx, rfl⟩ := Option.map_eq_some_iff.mp h
    exact unused (List.mem_of_find?_eq_some hx)
  · rcases closestMatch_mem h with hm | ⟨p, hp⟩
    · obtain ⟨x, hx, rfl⟩ := List.mem_map.mp hm
      exact unused hx
    · cases hp

theorem findSymbol_unused {pct : DataMatchPercent} {obj : Option Object} {inObj : Object} {i : Nat}
    {symbol : Symbol} {used : List Nat} {fuzzy : Bool} {r : Nat}
    (h : findSymbol pct obj inObj i symbol used fuzzy = some r) : r ∉ used := by
  obtain ⟨o, -, h⟩ := Option.bind_eq_some_iff.mp h
  obtain ⟨⟨name, kind⟩, -, h⟩ := Option.bind_eq_some_iff.mp h
  simp only at h
  split at h
  · exact findGenerated_unused h
  · obtain ⟨x, hx, rfl⟩ := Option.map_eq_some_iff.mp h
    exact mem_unmatchedSymbols (List.mem_of_find?_eq_some hx)

/-! ## Pairs are settled when they are made -/

/-- An entry after a pair mentions neither symbol of the pair. -/
def Untouched (m later : SymbolMatch) : Prop :=
  ∀ l r, m.left = some l → m.right = some r → later.left ≠ some l ∧ later.right ≠ some r

def Settled (found : List SymbolMatch) : Prop := found.Pairwise Untouched

/-- Symbols of a pair are marked as used. -/
structure MatchState.Valid (s : MatchState) : Prop where
  used : ∀ m ∈ s.found, ∀ l r, m.left = some l → m.right = some r →
    l ∈ s.leftUsed ∧ r ∈ s.rightUsed
  settled : Settled s.found

theorem Settled.append {found : List SymbolMatch} {m : SymbolMatch} (h : Settled found)
    (hm : ∀ a ∈ found, Untouched a m) : Settled (found ++ [m]) := by
  rw [Settled, List.pairwise_append]
  refine ⟨h, List.pairwise_singleton _ _, ?_⟩
  intro a ha b hb
  rw [List.mem_singleton.mp hb]
  exact hm a ha

theorem matchLeft_valid {pct : DataMatchPercent} {left : Object} {right : Option Object}
    {fuzzy : Bool} {s : MatchState} (h : s.Valid) (entry : Symbol × Nat) :
    (matchLeft pct left right fuzzy s entry).Valid := by
  obtain ⟨symbol, i⟩ := entry
  unfold matchLeft
  simp only
  split
  · rename_i hfree
    have hi : i ∉ s.leftUsed := by simpa using (Bool.and_eq_true_iff.mp hfree).2
    have fresh (found : Option Nat) (hr : ∀ r, found = some r → r ∉ s.rightUsed) :
        ∀ a ∈ s.found, Untouched a ⟨some i, found, symbolSectionKind left symbol⟩ := by
      intro a ha l r hl hr'
      obtain ⟨hlu, hru⟩ := h.used a ha l r hl hr'
      refine ⟨?_, ?_⟩
      · rintro heq
        exact hi (Option.some.inj heq ▸ hlu)
      · intro heq
        exact hr r heq hru
    cases hf : findSymbol pct right left i symbol s.rightUsed fuzzy with
    | none =>
      refine ⟨?_, h.settled.append (fresh none (by simp))⟩
      intro m hm l r hl hr
      rcases List.mem_append.mp hm with hm | hm
      · exact h.used m hm l r hl hr
      · rw [List.mem_singleton.mp hm] at hr
        cases hr
    | some r₀ =>
      refine ⟨?_, h.settled.append (fresh (some r₀) ?_)⟩
      · intro m hm l r hl hr
        rcases List.mem_append.mp hm with hm | hm
        · obtain ⟨hlu, hru⟩ := h.used m hm l r hl hr
          exact ⟨List.mem_cons_of_mem _ hlu, List.mem_cons_of_mem _ hru⟩
        · rw [List.mem_singleton.mp hm] at hl hr
          cases hl
          cases hr
          exact ⟨List.mem_cons_self, List.mem_cons_self⟩
      · intro r hr
        cases hr
        exact findSymbol_unused hf
  · exact h

theorem matchRight_valid {right : Object} {s : MatchState} (h : s.Valid) (entry : Symbol × Nat) :
    (matchRight right s entry).Valid := by
  obtain ⟨symbol, i⟩ := entry
  unfold matchRight
  simp only
  split
  · rename_i hfree
    have hi : i ∉ s.rightUsed := by simpa using (Bool.and_eq_true_iff.mp hfree).2
    refine ⟨?_, h.settled.append ?_⟩
    · intro m hm l r hl hr
      rcases List.mem_append.mp hm with hm | hm
      · exact h.used m hm l r hl hr
      · rw [List.mem_singleton.mp hm] at hl
        cases hl
    · intro a ha l r hl hr
      refine ⟨by simp, ?_⟩
      intro heq
      exact hi (Option.some.inj heq ▸ (h.used a ha l r hl hr).2)
  · exact h

theorem foldl_valid {α : Type} {f : MatchState → α → MatchState}
    (step : ∀ s, s.Valid → ∀ a, (f s a).Valid) (xs : List α) {s : MatchState} (h : s.Valid) :
    (xs.foldl f s).Valid := by
  induction xs generalizing s with
  | nil => exact h
  | cons x xs ih => exact ih (step s h x)

theorem matchingSymbols_settled (pct : DataMatchPercent) (left right : Option Object) :
    Settled (matchingSymbols pct left right) := by
  have start : (({} : MatchState)).Valid := ⟨by simp, List.Pairwise.nil⟩
  have afterLeft (l : Object) : ([false, true].foldl (fun s fuzzy =>
      l.symbols.zipIdx.foldl (matchLeft pct l right fuzzy) s) ({} : MatchState)).Valid :=
    foldl_valid (fun s hs _ => foldl_valid (fun _ => matchLeft_valid) _ hs) _ start
  have afterRight (r : Object) {s : MatchState} (hs : s.Valid) : ([false, true].foldl
      (fun s _ => r.symbols.zipIdx.foldl (matchRight r) s) s).Valid :=
    foldl_valid (fun s hs _ => foldl_valid (fun _ => matchRight_valid) _ hs) _ hs
  unfold matchingSymbols
  cases left <;> cases right
  · exact start.settled
  · exact (afterRight _ start).settled
  · exact (afterLeft _).settled
  · exact (afterRight _ (afterLeft _)).settled

end MeleeHarness.Objdiff
