import MeleeHarness.Lib.Alnum

/-!
# Regular expressions with an order of preference

A pattern is tried at a place in a text, and the places where it can end are listed in the
order in which a backtracking matcher tries them. Repetition is of character classes.

* `mem_ends`: a match ends in the text, not before it starts;
* `finditer_spaced`: the matches that are found one after another do not overlap.
-/

namespace MeleeHarness.Lib

inductive Regex where
  | one (p : Char → Bool)
  /-- As many characters as possible, then fewer. -/
  | many (p : Char → Bool)
  /-- As few characters as possible, then more. -/
  | few (p : Char → Bool)
  | opt (r : Regex)
  | seq (r s : Regex)
  | alt (r s : Regex)
  | lineStart
  | lineEnd
  | wordEdge

namespace Regex

/-- `\w` -/
def wordChar (c : Char) : Bool := isAlnum c || c = '_'

def isWordAt (t : Text) (i : Nat) : Bool := t[i]?.any wordChar

/-- The length of the longest stretch of a class at `i`. -/
def stretch (p : Char → Bool) (t : Text) (i : Nat) : Nat := ((t.drop i).takeWhile p).length

/-- Where a match that starts at `i` can end, the preferred end first. -/
def ends (t : Text) : Regex → Nat → List Nat
  | .one p, i => if t[i]?.any p then [i + 1] else []
  | .many p, i => (List.range (stretch p t i + 1)).reverse.map (i + ·)
  | .few p, i => (List.range (stretch p t i + 1)).map (i + ·)
  | .opt r, i => ends t r i ++ [i]
  | .seq r s, i => (ends t r i).flatMap (ends t s)
  | .alt r s, i => ends t r i ++ ends t s i
  | .lineStart, i => if i = 0 ∨ t[i - 1]? = some '\n' then [i] else []
  | .lineEnd, i => if i = t.length ∨ t[i]? = some '\n' then [i] else []
  | .wordEdge, i => if (i != 0 && isWordAt t (i - 1)) ≠ isWordAt t i then [i] else []

/-- `r+` -/
def many1 (p : Char → Bool) : Regex := .seq (.one p) (.many p)

/-- A fixed word. -/
def word (w : String) : Regex :=
  w.toList.foldr (fun c r => .seq (.one (· = c)) r) (.many fun _ => false)

/-- `re.finditer`, for a pattern that takes at least one character. -/
def finditerFrom (t : Text) (r : Regex) : Nat → Nat → List (Nat × Nat)
  | 0, _ => []
  | fuel + 1, i =>
    if t.length < i then []
    else
      match (ends t r i).head? with
      | some stop =>
        if i < stop then (i, stop) :: finditerFrom t r fuel stop else finditerFrom t r fuel (i + 1)
      | none => finditerFrom t r fuel (i + 1)

def finditer (r : Regex) (t : Text) : List (Nat × Nat) := finditerFrom t r (t.length + 1) 0

theorem stretch_le (p : Char → Bool) (t : Text) (i : Nat) : stretch p t i ≤ t.length - i := by
  rw [stretch, ← List.length_drop]
  exact (List.takeWhile_prefix p).length_le

theorem mem_ends {t : Text} {r : Regex} {i j : Nat} (hi : i ≤ t.length) (h : j ∈ ends t r i) :
    i ≤ j ∧ j ≤ t.length := by
  induction r generalizing i j with
  | one p =>
    simp only [ends, List.mem_ite_nil_right, List.mem_singleton] at h
    obtain ⟨hp, rfl⟩ := h
    obtain ⟨c, hc, -⟩ := (Option.any_eq_true _ _).1 hp
    have := (List.getElem?_eq_some_iff.1 hc).1
    omega
  | many p =>
    simp only [ends, List.mem_map, List.mem_reverse, List.mem_range] at h
    obtain ⟨n, hn, rfl⟩ := h
    have := stretch_le p t i
    omega
  | few p =>
    simp only [ends, List.mem_map, List.mem_range] at h
    obtain ⟨n, hn, rfl⟩ := h
    have := stretch_le p t i
    omega
  | opt r ih =>
    rcases List.mem_append.1 h with h | h
    · exact ih hi h
    · obtain rfl := List.mem_singleton.1 h
      exact ⟨le_rfl, hi⟩
  | seq r s ihr ihs =>
    obtain ⟨k, hk, hj⟩ := List.mem_flatMap.1 h
    obtain ⟨hik, hkt⟩ := ihr hi hk
    obtain ⟨hkj, hjt⟩ := ihs hkt hj
    exact ⟨hik.trans hkj, hjt⟩
  | alt r s ihr ihs =>
    rcases List.mem_append.1 h with h | h
    · exact ihr hi h
    · exact ihs hi h
  | lineStart | lineEnd | wordEdge =>
    simp only [ends, List.mem_ite_nil_right, List.mem_singleton] at h
    obtain ⟨-, rfl⟩ := h
    exact ⟨le_rfl, hi⟩

/-- Matches that lie in the text from `i` on, one behind the other. -/
def Spaced (size : Nat) (i : Nat) (spans : List (Nat × Nat)) : Prop :=
  (spans.Pairwise fun a b => a.2 ≤ b.1) ∧ ∀ span ∈ spans, i ≤ span.1 ∧ span.1 < span.2 ∧ span.2 ≤ size

theorem Spaced.mono {size i j : Nat} {spans : List (Nat × Nat)} (h : Spaced size j spans)
    (hij : i ≤ j) : Spaced size i spans :=
  ⟨h.1, fun span hspan => ⟨hij.trans (h.2 span hspan).1, (h.2 span hspan).2⟩⟩

theorem finditerFrom_spaced (t : Text) (r : Regex) (fuel i : Nat) :
    Spaced t.length i (finditerFrom t r fuel i) := by
  induction fuel generalizing i with
  | zero => exact ⟨.nil, by simp [finditerFrom]⟩
  | succ fuel ih =>
    rw [finditerFrom]
    split_ifs with hend
    · exact ⟨.nil, by simp⟩
    · split
      · rename_i stop hstop
        obtain ⟨hle, hsize⟩ := mem_ends (by omega) (List.mem_of_head? hstop)
        split_ifs with hlt
        · obtain ⟨hpairwise, hrange⟩ := ih stop
          refine ⟨List.pairwise_cons.2 ⟨fun span hspan => (hrange span hspan).1, hpairwise⟩, ?_⟩
          intro span hspan
          rcases List.mem_cons.1 hspan with rfl | hspan
          · exact ⟨le_rfl, hlt, hsize⟩
          · exact ⟨hle.trans (hrange span hspan).1, (hrange span hspan).2⟩
        · exact (ih (i + 1)).mono (by omega)
      · exact (ih (i + 1)).mono (by omega)

/-- Matches do not overlap. -/
theorem finditer_spaced (r : Regex) (t : Text) : Spaced t.length 0 (finditer r t) :=
  finditerFrom_spaced t r _ 0

/-- `re.search` -/
def search (r : Regex) (t : Text) : Option (Nat × Nat) := do
  let i ← (List.range (t.length + 1)).find? fun i => !(ends t r i).isEmpty
  let stop ← (ends t r i).head?
  return (i, stop)

theorem search_eq_some {r : Regex} {t : Text} {i stop : Nat} : search r t = some (i, stop) ↔
    i ≤ t.length ∧ (ends t r i).head? = some stop ∧ ∀ k < i, ends t r k = [] := by
  simp only [search, Option.bind_eq_bind, Option.pure_def, Option.bind_eq_some_iff,
    List.find?_range_eq_some, Option.some.injEq, Prod.mk.injEq, Bool.not_eq_true',
    List.isEmpty_eq_false_iff, Bool.not_not, List.isEmpty_iff, List.mem_range]
  constructor
  · rintro ⟨_, ⟨hne, hi, hfirst⟩, _, hstop, rfl, rfl⟩
    exact ⟨by omega, hstop, hfirst⟩
  · rintro ⟨hi, hstop, hfirst⟩
    exact ⟨i, ⟨List.ne_nil_of_mem (List.mem_of_head? hstop), by omega, hfirst⟩, stop, hstop, rfl, rfl⟩

theorem search_eq_none {r : Regex} {t : Text} :
    search r t = none ↔ ∀ i ≤ t.length, ends t r i = [] := by
  constructor
  · intro h i hi
    cases hfind : (List.range (t.length + 1)).find? fun i => !(ends t r i).isEmpty with
    | none =>
      have hempty := List.find?_eq_none.mp hfind i (List.mem_range.mpr (by omega))
      simpa using hempty
    | some k =>
      cases hstop : (ends t r k).head? with
      | none =>
        have hempty := List.find?_some hfind
        rw [List.head?_eq_none_iff.mp hstop] at hempty
        cases hempty
      | some stop =>
        rw [search, hfind] at h
        simp only [Option.bind_eq_bind, Option.bind_some, hstop] at h
        cases h
  · intro h
    cases hsearch : search r t with
    | none => rfl
    | some span =>
      obtain ⟨hi, hstop, -⟩ := search_eq_some.mp hsearch
      rw [h _ hi] at hstop
      cases hstop

theorem ends_foldr (t w : Text) {i : Nat} (hi : i ≤ t.length) :
    ends t (w.foldr (fun c r => .seq (.one (· = c)) r) (.many fun _ => false)) i =
      if w <+: t.drop i then [i + w.length] else [] := by
  induction w generalizing i with
  | nil =>
    have hstretch : stretch (fun _ => false) t i = 0 := by
      rw [stretch]
      cases t.drop i <;> rfl
    rw [List.foldr_nil, ends, hstretch, if_pos List.nil_prefix]
    rfl
  | cons c w ih =>
    rw [List.foldr_cons, ends, ends]
    rcases Nat.lt_or_eq_of_le hi with hlt | rfl
    · have hiff : c :: w <+: t.drop i ↔ c = t[i] ∧ w <+: t.drop (i + 1) := by
        rw [List.drop_eq_getElem_cons hlt, List.cons_prefix_cons]
      rw [List.getElem?_eq_getElem hlt, Option.any_some]
      by_cases hc : t[i] = c
      · rw [if_pos (decide_eq_true hc), List.flatMap_singleton, ih hlt]
        by_cases hw : w <+: t.drop (i + 1)
        · rw [if_pos hw, if_pos (hiff.mpr ⟨hc.symm, hw⟩), List.length_cons,
            Nat.succ_add_eq_add_succ]
        · rw [if_neg hw, if_neg fun h => hw (hiff.mp h).2]
      · rw [if_neg (by simpa using hc), if_neg fun h => hc (hiff.mp h).1.symm]
        rfl
    · simp

/-- A word matches where the text goes on with it. -/
theorem ends_word (t : Text) (w : String) (i : Nat) (hi : i ≤ t.length) :
    ends t (word w) i = if w.toList <+: t.drop i then [i + w.toList.length] else [] :=
  ends_foldr t w.toList hi

end Regex

end MeleeHarness.Lib
