import MeleeHarness.Lib.Run

/-!
# The first and the last hit in a list

Whether an element is a hit may depend on what stands before it.

* `noHit_concat`, `lastHit_concat`: what one more element changes;
* `firstHit_iff`: a search from the front finds the first hit.
-/

namespace MeleeHarness.Lib

variable {α β : Type}

/-- Nothing in the list is a hit. -/
def NoHit (hit : List α → α → β → Prop) (l : List α) : Prop :=
  ∀ before x after b, l = before ++ x :: after → ¬hit before x b

/-- The last hit in the list is one for `b`. -/
def LastHit (hit : List α → α → β → Prop) (l : List α) (b : β) : Prop :=
  ∃ before x after, l = before ++ x :: after ∧ hit before x b ∧
    ∀ between y rest c, after = between ++ y :: rest → ¬hit (before ++ x :: between) y c

/-- The first hit in the list is one for `b`. -/
def FirstHit (hit : List α → α → β → Prop) (l : List α) (b : β) : Prop :=
  ∃ before x after, l = before ++ x :: after ∧ hit before x b ∧ NoHit hit before

/-- The `n`-th element, counted from one, passes the test. -/
def Nth (test : α → Prop) (before : List α) (x : α) (n : Nat) : Prop :=
  test x ∧ n = before.length + 1

section
variable {hit : List α → α → β → Prop} {l : List α} {x : α} {b : β}

theorem noHit_nil : NoHit hit [] := by
  intro before x after b h
  exact absurd h (by simp)

theorem noHit_concat : NoHit hit (l ++ [x]) ↔ NoHit hit l ∧ ∀ b, ¬hit l x b := by
  constructor
  · intro h
    constructor
    · intro before y after b hsplit
      exact h before y (after ++ [x]) b (by rw [hsplit]; simp)
    · exact fun b => h l x [] b rfl
  · rintro ⟨hbefore, hhere⟩ before y after b hsplit
    cases after using List.reverseRecOn with
    | nil =>
      obtain ⟨rfl, hx⟩ := List.append_inj' hsplit rfl
      obtain rfl : x = y := List.head_eq_of_cons_eq hx
      exact hhere b
    | append_singleton after last =>
      rw [← List.cons_append, ← List.append_assoc] at hsplit
      obtain ⟨hl, -⟩ := List.append_inj' hsplit rfl
      exact hbefore before y after b hl

theorem lastHit_nil : ¬LastHit hit [] b := by
  rintro ⟨before, x, after, h, -⟩
  exact absurd h (by simp)

theorem lastHit_concat : LastHit hit (l ++ [x]) b ↔
    hit l x b ∨ (∀ c, ¬hit l x c) ∧ LastHit hit l b := by
  constructor
  · rintro ⟨before, y, after, hsplit, hhit, hlast⟩
    cases after using List.reverseRecOn with
    | nil =>
      obtain ⟨rfl, hx⟩ := List.append_inj' hsplit rfl
      obtain rfl : x = y := List.head_eq_of_cons_eq hx
      exact .inl hhit
    | append_singleton after last =>
      rw [← List.cons_append, ← List.append_assoc] at hsplit
      obtain ⟨rfl, hx⟩ := List.append_inj' hsplit rfl
      obtain rfl : x = last := List.head_eq_of_cons_eq hx
      refine .inr ⟨fun c => hlast after x [] c rfl, before, y, after, rfl, hhit, ?_⟩
      rintro between z rest c rfl
      exact hlast between z (rest ++ [x]) c (by simp)
  · rintro (hhit | ⟨hhere, before, y, after, rfl, hhit, hlast⟩)
    · refine ⟨l, x, [], rfl, hhit, ?_⟩
      intro between y rest c h
      exact absurd h (by simp)
    · refine ⟨before, y, after ++ [x], by simp, hhit, ?_⟩
      intro between z rest c hsplit
      cases rest using List.reverseRecOn with
      | nil =>
        obtain ⟨rfl, hx⟩ := List.append_inj' hsplit rfl
        obtain rfl : x = z := List.head_eq_of_cons_eq hx
        exact hhere c
      | append_singleton rest last =>
        rw [← List.cons_append, ← List.append_assoc] at hsplit
        obtain ⟨rfl, -⟩ := List.append_inj' hsplit rfl
        exact hlast between z rest c rfl

theorem NoHit.not_lastHit (h : NoHit hit l) : ¬LastHit hit l b := by
  rintro ⟨before, x, after, hsplit, hhit, -⟩
  exact h before x after b hsplit hhit

/-- Where a hit does not depend on what stands before it, a search from the front finds the
first. -/
theorem firstHit_iff {f : α → Option β} {test : α → β → Prop} (h : ∀ x b, f x = some b ↔ test x b) :
    FirstHit (fun _ => test) l b ↔ l.findSome? f = some b := by
  rw [List.findSome?_eq_some_iff]
  constructor
  · rintro ⟨before, x, after, rfl, hx, hbefore⟩
    refine ⟨before, x, after, rfl, (h x b).mpr hx, ?_⟩
    intro y hy
    obtain ⟨pre, post, rfl⟩ := List.append_of_mem hy
    rw [Option.eq_none_iff_forall_ne_some]
    intro c hc
    exact hbefore pre y post c rfl ((h y c).mp hc)
  · rintro ⟨before, x, after, rfl, hx, hbefore⟩
    refine ⟨before, x, after, rfl, (h x b).mp hx, ?_⟩
    rintro pre y post c rfl hy
    have hnone := hbefore y (by simp)
    rw [(h y c).mpr hy] at hnone
    cases hnone

theorem noHit_nth {test : α → Prop} : NoHit (Nth test) l ↔ ∀ x ∈ l, ¬test x := by
  constructor
  · intro h x hx htest
    obtain ⟨before, after, rfl⟩ := List.append_of_mem hx
    exact h before x after (before.length + 1) rfl ⟨htest, rfl⟩
  · rintro h before x after n rfl ⟨htest, -⟩
    exact h x (by simp) htest

/-- The last element that passes a test stands behind `n - 1` others, and none after it passes. -/
theorem lastHit_nth {test : α → Prop} {n : Nat} : LastHit (Nth test) l n ↔
    ∃ before x after, l = before ++ x :: after ∧ n = before.length + 1 ∧ test x ∧ ∀ y ∈ after, ¬test y := by
  constructor
  · rintro ⟨before, x, after, rfl, ⟨htest, hn⟩, hlast⟩
    refine ⟨before, x, after, rfl, hn, htest, ?_⟩
    intro y hy hy'
    obtain ⟨between, rest, rfl⟩ := List.append_of_mem hy
    exact hlast between y rest _ rfl ⟨hy', rfl⟩
  · rintro ⟨before, x, after, rfl, hn, htest, hlast⟩
    refine ⟨before, x, after, rfl, ⟨htest, hn⟩, ?_⟩
    rintro between y rest c rfl ⟨hy, -⟩
    exact hlast y (by simp) hy

theorem lastHit_nth_unique {test : α → Prop} {m n : Nat} (hm : LastHit (Nth test) l m)
    (hn : LastHit (Nth test) l n) : m = n := by
  induction l using List.reverseRecOn with
  | nil => exact absurd hm lastHit_nil
  | append_singleton l x ih =>
    rcases lastHit_concat.mp hm with hm | ⟨hnone, hm⟩ <;>
      rcases lastHit_concat.mp hn with hn | ⟨hnone', hn⟩
    · rw [hm.2, hn.2]
    · exact absurd hm (hnone' m)
    · exact absurd hn (hnone n)
    · exact ih hm hn

end

end MeleeHarness.Lib
