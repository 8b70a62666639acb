import Mathlib.Data.List.Basic
import Mathlib.Logic.Relation

/-!
# A search that shares what it has visited

A depth-first search for a target. Each call is given what all calls before it have visited,
the one it starts from apart, and hands on what it has visited itself. The fuel bounds the
depth of the calls.

* `search_isSome`: fuel for each thing not yet visited is enough;
* `search_iff`: a search with nothing visited answers whether a path of at least one step
  leads to the target.
-/

namespace MeleeHarness.Lib.Reach

variable {α : Type} [DecidableEq α]

/-- The loop over the successors; `call` is the recursive call. -/
def scan (target : α) (call : α → List α → Option (Bool × List α)) :
    List α → List α → Option (Bool × List α)
  | [], visited => some (false, visited)
  | succ :: rest, visited =>
    if succ = target then some (true, visited)
    else if succ ∈ visited then scan target call rest visited
    else
      match call succ (visited ++ [succ]) with
      | none => none
      | some (true, visited) => some (true, visited)
      | some (false, visited) => scan target call rest visited

def search (next : α → List α) (target : α) : Nat → α → List α → Option (Bool × List α)
  | 0, _, _ => none
  | fuel + 1, start, visited => scan target (search next target fuel) (next start) visited

/-- What is left to visit. -/
def unvisited (nodes visited : List α) : Nat := nodes.countP fun x => x ∉ visited

theorem unvisited_mono {nodes visited visited' : List α} (h : visited ⊆ visited') :
    unvisited nodes visited' ≤ unvisited nodes visited := by
  apply List.countP_mono_left
  intro x _ hx
  exact decide_eq_true fun hmem => of_decide_eq_true hx (h hmem)

theorem unvisited_lt {nodes visited : List α} {x : α} (hx : x ∈ nodes) (hnew : x ∉ visited) :
    unvisited nodes (visited ++ [x]) < unvisited nodes visited := by
  induction nodes with
  | nil => cases hx
  | cons y nodes ih =>
    rw [unvisited, unvisited, List.countP_cons, List.countP_cons]
    change unvisited nodes (visited ++ [x]) + _ < unvisited nodes visited + _
    rcases List.mem_cons.mp hx with rfl | hmem
    · have hle := @unvisited_mono _ _ nodes _ _ (List.subset_append_left visited [x])
      simp only [List.mem_append, List.mem_singleton, or_true, not_true_eq_false, decide_false,
        Bool.false_eq_true, if_false, hnew, not_false_eq_true, decide_true, if_true]
      omega
    · have hlt := ih hmem
      by_cases hy : y ∈ visited
      · simpa [hy] using hlt
      · by_cases hxy : y = x
        · simp only [List.mem_append, hxy, List.mem_singleton, or_true, not_true_eq_false, decide_false,
            Bool.false_eq_true, if_false, hnew, not_false_eq_true, decide_true, if_true]
          omega
        · simpa [hy, hxy] using hlt

section
variable {next : α → List α} {target : α} {fuel : Nat}

/-- A search that has not found the target has visited all that it has come to, and all
that leads on from there. -/
structure Covered (next : α → List α) (target : α) (succs visited visited' : List α) : Prop where
  kept : visited ⊆ visited'
  succs : ∀ s ∈ succs, s ≠ target ∧ s ∈ visited'
  closed : ∀ x ∈ visited', x ∉ visited → ∀ s ∈ next x, s ≠ target ∧ s ∈ visited'

/-- What a call does for one successor and the loop for the others. -/
theorem Covered.call {succ : α} {rest visited middle visited' : List α} (hne : succ ≠ target)
    (hcall : Covered next target (next succ) (visited ++ [succ]) middle)
    (hrest : Covered next target rest middle visited') :
    Covered next target (succ :: rest) visited visited' where
  kept := fun x hx => hrest.kept (hcall.kept (List.mem_append_left _ hx))
  succs := by
    intro s hs
    rcases List.mem_cons.mp hs with rfl | hs
    · exact ⟨hne, hrest.kept (hcall.kept (by simp))⟩
    · exact hrest.succs s hs
  closed := by
    intro x hx hnew s hs
    by_cases hmiddle : x ∈ middle
    · have hlater : s ≠ target ∧ s ∈ middle := by
        by_cases hsucc : x = succ
        · subst hsucc
          exact hcall.succs s hs
        · exact hcall.closed x hmiddle (by simp [hnew, hsucc]) s hs
      exact ⟨hlater.1, hrest.kept hlater.2⟩
    · exact hrest.closed x hx hmiddle s hs

/-- One pass of the loop, given what the calls in it do. -/
theorem scan_covered {call : α → List α → Option (Bool × List α)}
    (hcall : ∀ start visited visited', call start visited = some (false, visited') →
      Covered next target (next start) visited visited') :
    ∀ (succs visited visited' : List α), scan target call succs visited = some (false, visited') →
      Covered next target succs visited visited' := by
  intro succs
  induction succs with
  | nil =>
    intro visited visited' h
    obtain rfl : visited = visited' := by simpa [scan] using h
    exact ⟨fun _ hx => hx, by simp, fun x hx hnew => absurd hx hnew⟩
  | cons succ rest ih =>
    intro visited visited' h
    rw [scan] at h
    split_ifs at h with htarget hseen
    · simp at h
    · have hrest := ih visited visited' h
      refine ⟨hrest.kept, ?_, hrest.closed⟩
      intro s hs
      rcases List.mem_cons.mp hs with rfl | hs
      · exact ⟨htarget, hrest.kept hseen⟩
      · exact hrest.succs s hs
    · split at h
      · cases h
      · simp at h
      · rename_i middle hmiddle
        exact (hcall succ _ middle hmiddle).call htarget (ih middle visited' h)

theorem search_covered (fuel : Nat) : ∀ (start : α) (visited visited' : List α),
    search next target fuel start visited = some (false, visited') →
      Covered next target (next start) visited visited' := by
  induction fuel with
  | zero =>
    intro start visited visited' h
    cases h
  | succ fuel ih =>
    intro start visited visited' h
    exact scan_covered ih (next start) visited visited' h

/-- What is found is at the end of a path. -/
theorem scan_found {call : α → List α → Option (Bool × List α)}
    (hcall : ∀ start visited visited', call start visited = some (true, visited') →
      Relation.TransGen (fun x y => y ∈ next x) start target) :
    ∀ (succs visited visited' : List α), scan target call succs visited = some (true, visited') →
      ∃ s ∈ succs, Relation.ReflTransGen (fun x y => y ∈ next x) s target := by
  intro succs
  induction succs with
  | nil =>
    intro visited visited' h
    simp [scan] at h
  | cons succ rest ih =>
    intro visited visited' h
    rw [scan] at h
    split_ifs at h with htarget hseen
    · exact ⟨succ, List.mem_cons_self, htarget ▸ .refl⟩
    · obtain ⟨s, hs, hpath⟩ := ih visited visited' h
      exact ⟨s, List.mem_cons_of_mem _ hs, hpath⟩
    · split at h
      · cases h
      · rename_i middle hmiddle
        exact ⟨succ, List.mem_cons_self, (hcall succ _ middle hmiddle).to_reflTransGen⟩
      · rename_i middle hmiddle
        obtain ⟨s, hs, hpath⟩ := ih middle visited' h
        exact ⟨s, List.mem_cons_of_mem _ hs, hpath⟩

theorem search_found (fuel : Nat) : ∀ (start : α) (visited visited' : List α),
    search next target fuel start visited = some (true, visited') →
      Relation.TransGen (fun x y => y ∈ next x) start target := by
  induction fuel with
  | zero =>
    intro start visited visited' h
    cases h
  | succ fuel ih =>
    intro start visited visited' h
    obtain ⟨s, hs, hpath⟩ := scan_found ih (next start) visited visited' h
    exact .head' hs hpath

theorem scan_isSome {nodes : List α} {call : α → List α → Option (Bool × List α)}
    (hcovered : ∀ start visited visited', call start visited = some (false, visited') →
      Covered next target (next start) visited visited')
    (hcall : ∀ start visited, unvisited nodes visited < fuel → ∃ r, call start visited = some r)
    (succs : List α) (hsuccs : succs ⊆ nodes) (visited : List α) (hfuel : unvisited nodes visited ≤ fuel) :
    ∃ r, scan target call succs visited = some r := by
  induction succs generalizing visited with
  | nil => exact ⟨_, rfl⟩
  | cons succ rest ih =>
    have hrest : rest ⊆ nodes := fun x hx => hsuccs (List.mem_cons_of_mem succ hx)
    rw [scan]
    split_ifs with htarget hseen
    · exact ⟨_, rfl⟩
    · exact ih hrest visited hfuel
    · have hlt := unvisited_lt (hsuccs List.mem_cons_self) hseen
      obtain ⟨⟨found, middle⟩, hmiddle⟩ := hcall succ (visited ++ [succ]) (by omega)
      rw [hmiddle]
      cases found with
      | true => exact ⟨_, rfl⟩
      | false =>
        have hle := @unvisited_mono _ _ nodes _ _ (hcovered _ _ _ hmiddle).kept
        exact ih hrest middle (by omega)

/-- Each call visits something new. -/
theorem search_isSome {nodes : List α} (hnext : ∀ x, next x ⊆ nodes) (fuel : Nat) :
    ∀ (start : α) (visited : List α), unvisited nodes visited < fuel →
      ∃ r, search next target fuel start visited = some r := by
  induction fuel with
  | zero =>
    intro start visited hfuel
    omega
  | succ fuel ih =>
    intro start visited hfuel
    exact scan_isSome (search_covered fuel) ih (next start) (hnext start) visited (by omega)

/-- With nothing visited, the target is found exactly if a path leads to it. -/
theorem search_iff {start : α} {found : Bool} {visited : List α}
    (h : search next target fuel start [] = some (found, visited)) :
    found = true ↔ Relation.TransGen (fun x y => y ∈ next x) start target := by
  constructor
  · rintro rfl
    exact search_found fuel start [] visited h
  · intro hpath
    cases found with
    | true => rfl
    | false =>
      have hcovered := search_covered fuel start [] visited h
      have hreach : ∀ y, Relation.TransGen (fun x y => y ∈ next x) start y → y ≠ target ∧ y ∈ visited := by
        intro y hy
        induction hy with
        | single hstep => exact hcovered.succs _ hstep
        | tail _ hstep ih => exact hcovered.closed _ ih.2 (by simp) _ hstep
      exact absurd rfl (hreach target hpath).1

end

end MeleeHarness.Lib.Reach
