import Mathlib.Data.List.Forall2
import Mathlib.Data.List.Induction
import Mathlib.Tactic.Common

/-!
# Failing computations and step machines

* `bind_ok_iff` takes a successful `do` block apart, one statement at a time,
  and `foldlM_invariant` carries an invariant over a loop that may fail;
* `exitState` is where a loop that may return early ends; `exit_bind` and
  `exit_foldlM` carry an invariant to it;
* `stateAfter` and `outputs` run a machine that reads a list and answers each
  element; `outputs_getElem?` says that an answer depends on the state its
  element was read in, and `stateAfter_invariant` carries an invariant over the
  elements read so far.
-/

namespace MeleeHarness.Lib

section
variable {ε α β : Type}

theorem bind_ok_iff {x : Except ε α} {f : α → Except ε β} {b : β} :
    (x >>= f) = .ok b ↔ ∃ a, x = .ok a ∧ f a = .ok b := by
  cases x with
  | error e => simp [Bind.bind, Except.bind]
  | ok a => simp [Bind.bind, Except.bind]

theorem ok_bind (a : α) (f : α → Except ε β) : (Except.ok a >>= f) = f a := rfl

theorem pure_ok_iff {a b : α} : (pure a : Except ε α) = .ok b ↔ a = b := by
  simp [Pure.pure, Except.pure]

theorem mapM_ok_iff {f : α → Except ε β} {xs : List α} {ys : List β} :
    xs.mapM f = .ok ys ↔ List.Forall₂ (fun x y => f x = .ok y) xs ys := by
  induction xs generalizing ys with
  | nil => rw [List.mapM_nil, pure_ok_iff, List.forall₂_nil_left_iff, eq_comm]
  | cons x xs ih =>
    rw [List.mapM_cons, bind_ok_iff, List.forall₂_cons_left_iff]
    constructor
    · rintro ⟨y, hy, h⟩
      obtain ⟨zs, hz, h⟩ := bind_ok_iff.mp h
      exact ⟨y, zs, hy, ih.mp hz, (pure_ok_iff.mp h).symm⟩
    · rintro ⟨y, zs, hy, hz, rfl⟩
      exact ⟨y, hy, bind_ok_iff.mpr ⟨zs, ih.mpr hz, rfl⟩⟩

theorem mapM_some_iff {f : α → Option β} {xs : List α} {ys : List β} :
    xs.mapM f = some ys ↔ List.Forall₂ (fun x y => f x = some y) xs ys := by
  induction xs generalizing ys with
  | nil => simp [eq_comm]
  | cons x xs ih =>
    simp only [List.mapM_cons, Option.bind_eq_bind, Option.bind_eq_some_iff, Option.pure_def,
      Option.some.injEq, List.forall₂_cons_left_iff, ih]
    constructor
    · rintro ⟨y, hy, rest, hrest, rfl⟩
      exact ⟨y, rest, hy, hrest, rfl⟩
    · rintro ⟨y, rest, hy, hrest, rfl⟩
      exact ⟨y, hy, rest, hrest, rfl⟩

theorem exists_of_mapM_some {f : α → Option β} {xs : List α} {ys : List β} (h : xs.mapM f = some ys)
    {x : α} (hx : x ∈ xs) : ∃ y, f x = some y := by
  induction mapM_some_iff.mp h with
  | nil => cases hx
  | cons hfirst hrest ih =>
    rcases List.mem_cons.mp hx with rfl | hx
    · exact ⟨_, hfirst⟩
    · exact ih (mapM_some_iff.mpr hrest) hx

theorem mapM_ok_length {f : α → Except ε β} {xs : List α} {ys : List β}
    (h : xs.mapM f = .ok ys) : ys.length = xs.length :=
  (mapM_ok_iff.mp h).length_eq.symm

/-- What some element read so far has, once one more is read. -/
theorem exists_mem_snoc (P : α → Prop) (seen : List α) (x : α) :
    (∃ y ∈ seen ++ [x], P y) ↔ (∃ y ∈ seen, P y) ∨ P x := by
  simp [or_and_right, exists_or]

/-- An invariant of a fold, over the elements folded so far. -/
theorem foldl_invariant {σ : Type} {step : σ → α → σ} (Inv : List α → σ → Prop) {s : σ}
    (start : Inv [] s) (next : ∀ seen s x, Inv seen s → Inv (seen ++ [x]) (step s x))
    (xs : List α) : Inv xs (xs.foldl step s) := by
  have run : ∀ tail seen s, Inv seen s → Inv (seen ++ tail) (tail.foldl step s) := by
    intro tail
    induction tail with
    | nil => intro seen s h; simpa using h
    | cons x xs ih =>
      intro seen s h
      simpa using ih (seen ++ [x]) (step s x) (next seen s x h)
  simpa using run xs [] s start

/-- An invariant of a fold that may fail, over the elements folded so far. -/
theorem foldlM_invariant {σ : Type} {step : σ → α → Except ε σ} {xs : List α}
    (Inv : List α → σ → Prop) {s t : σ} (start : Inv [] s)
    (next : ∀ seen x rest s s', xs = seen ++ x :: rest → Inv seen s → step s x = .ok s' →
      Inv (seen ++ [x]) s')
    (h : xs.foldlM step s = .ok t) : Inv xs t := by
  have run : ∀ tail seen s, xs = seen ++ tail → Inv seen s → tail.foldlM step s = .ok t →
      Inv xs t := by
    intro tail
    induction tail with
    | nil =>
      intro seen s hxs hs h
      rw [List.foldlM_nil, pure_ok_iff] at h
      simpa [hxs, h] using hs
    | cons x rest ih =>
      intro seen s hxs hs h
      rw [List.foldlM_cons, bind_ok_iff] at h
      obtain ⟨s', hstep, h⟩ := h
      exact ih (seen ++ [x]) s' (by simp [hxs]) (next seen x rest s s' hxs hs hstep) h
  exact run xs [] s rfl start h

/-- An element of a list with what stands before it, once one more is read. -/
theorem exists_split_concat {P : List α → α → Prop} {xs : List α} {x : α} :
    (∃ before use after, xs ++ [x] = before ++ use :: after ∧ P before use) ↔
      (∃ before use after, xs = before ++ use :: after ∧ P before use) ∨ P xs x := by
  constructor
  · rintro ⟨before, use, after, hsplit, h⟩
    cases after using List.reverseRecOn with
    | nil =>
      obtain ⟨rfl, hx⟩ := List.append_inj' hsplit rfl
      obtain rfl : x = use := List.head_eq_of_cons_eq hx
      exact .inr h
    | append_singleton after last =>
      rw [← List.cons_append, ← List.append_assoc] at hsplit
      obtain ⟨rfl, -⟩ := List.append_inj' hsplit rfl
      exact .inl ⟨before, use, after, rfl, h⟩
  · rintro (⟨before, use, after, rfl, h⟩ | h)
    · exact ⟨before, use, after ++ [x], by simp, h⟩
    · exact ⟨xs, x, [], rfl, h⟩

/-- The value of the last element that has one. -/
def latest (f : α → Option β) (xs : List α) : Option β := xs.reverse.findSome? f

theorem latest_concat (f : α → Option β) (xs : List α) (x : α) :
    latest f (xs ++ [x]) = (f x).or (latest f xs) := by
  rw [latest, List.reverse_concat, List.findSome?_cons, latest]
  cases f x <;> simp

theorem latest_eq_some_iff {f : α → Option β} {xs : List α} {y : β} :
    latest f xs = some y ↔
      ∃ before x after, xs = before ++ x :: after ∧ f x = some y ∧ ∀ z ∈ after, f z = none := by
  rw [latest, List.findSome?_eq_some_iff]
  constructor
  · rintro ⟨after, x, before, h, hx, hafter⟩
    refine ⟨before.reverse, x, after.reverse, ?_, hx, by simpa using hafter⟩
    rw [← List.reverse_reverse xs, h]
    simp
  · rintro ⟨before, x, after, rfl, hx, hafter⟩
    exact ⟨after.reverse, x, before.reverse, by simp, hx, by simpa using hafter⟩

theorem latest_isSome {f : α → Option β} {xs : List α} {x : α} (hx : x ∈ xs)
    (h : (f x).isSome = true) : ∃ y, latest f xs = some y := by
  rw [← Option.isSome_iff_exists, latest, List.findSome?_isSome_iff]
  exact ⟨x, List.mem_reverse.2 hx, h⟩

end

section
variable {σ α : Type}

/-- The state in which a computation ends that goes on with `ok` and returns
early with `error`. -/
def exitState : Except σ σ → σ
  | .ok s | .error s => s

theorem exit_bind (P : σ → Prop) {x : Except σ σ} {f : σ → Except σ σ} (hx : P (exitState x))
    (hf : ∀ s, P s → P (exitState (f s))) : P (exitState (x >>= f)) := by
  cases x with
  | error s => exact hx
  | ok s => exact hf s hx

theorem exit_foldlM (P : σ → Prop) {step : σ → α → Except σ σ}
    (next : ∀ s x, P s → P (exitState (step s x))) {s : σ} (hs : P s) (xs : List α) :
    P (exitState (xs.foldlM step s)) := by
  induction xs generalizing s with
  | nil => exact hs
  | cons x xs ih =>
    rw [List.foldlM_cons]
    exact exit_bind P (next s x hs) fun t ht => ih ht

end

section
variable {σ α β : Type} (step : σ → α → β × σ)

/-- The state once `xs` has been read. -/
def stateAfter (s : σ) (xs : List α) : σ := xs.foldl (fun s x => (step s x).2) s

/-- The answers to `xs`, in order. -/
def outputs (s : σ) : List α → List β
  | [] => []
  | x :: xs => (step s x).1 :: outputs (step s x).2 xs

theorem outputs_length (s : σ) (xs : List α) : (outputs step s xs).length = xs.length := by
  induction xs generalizing s with
  | nil => rfl
  | cons x xs ih => simp [outputs, ih]

theorem outputs_getElem? (s : σ) (xs : List α) (i : Nat) :
    (outputs step s xs)[i]? = xs[i]?.map fun x => (step (stateAfter step s (xs.take i)) x).1 := by
  induction xs generalizing s i with
  | nil => simp [outputs]
  | cons x xs ih =>
    cases i with
    | zero => simp [outputs, stateAfter]
    | succ i => simpa [outputs, stateAfter] using ih (step s x).2 i

theorem outputs_append (s : σ) (xs ys : List α) :
    outputs step s (xs ++ ys) = outputs step s xs ++ outputs step (stateAfter step s xs) ys := by
  induction xs generalizing s with
  | nil => rfl
  | cons x xs ih => simpa [outputs, stateAfter] using ih (step s x).2

/-- An invariant that relates the state to the elements read so far. -/
theorem stateAfter_invariant (Inv : List α → σ → Prop) {s : σ} (start : Inv [] s)
    (next : ∀ seen s x, Inv seen s → Inv (seen ++ [x]) (step s x).2) (xs : List α) :
    Inv xs (stateAfter step s xs) :=
  foldl_invariant Inv start next xs

end

end MeleeHarness.Lib
