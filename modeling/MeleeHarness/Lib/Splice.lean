import Mathlib.Data.List.Sort
import Mathlib.Tactic.Common

/-!
# Splices

A list with some of its spans replaced: the texts between the spans woven with the
replacements.

* `between_flatten`: what stands between spans in order is what no span covers;
* `filter_stableSort`: sorting by a key keeps the order of elements with one key,
  and `stableSort_perm` says that it forgets any other order.
-/

namespace MeleeHarness.Lib

section
variable {α : Type}

/-- `gap₀ new₀ gap₁ new₁ … gapₙ` -/
def weave : List (List α) → List (List α) → List α
  | gap :: gaps, new :: news => gap ++ new ++ weave gaps news
  | gaps, _ => gaps.flatten

/-- What stands before, between and behind the spans, from `pos` on. -/
def betweenFrom (xs : List α) (pos : Nat) (spans : List (Nat × Nat)) : List (List α) :=
  List.zipWith (fun start stop => (xs.take stop).drop start) (pos :: spans.map (·.2))
    (spans.map (·.1) ++ [xs.length])

def between (xs : List α) (spans : List (Nat × Nat)) : List (List α) := betweenFrom xs 0 spans

/-- The elements that no span covers, in their order. -/
def outside (xs : List α) (spans : List (Nat × Nat)) : List α :=
  (xs.zipIdx.filter fun x => spans.all fun span => x.2 < span.1 || span.2 ≤ x.2).map (·.1)

/-- Spans in order, none of which starts before the one before it ends. -/
def InOrder (size : Nat) : Nat → List (Nat × Nat) → Prop
  | pos, [] => pos ≤ size
  | pos, (start, stop) :: spans => pos ≤ start ∧ start ≤ stop ∧ InOrder size stop spans

theorem InOrder.le_size {size pos : Nat} {spans : List (Nat × Nat)} (h : InOrder size pos spans) :
    pos ≤ size := by
  induction spans generalizing pos with
  | nil => exact h
  | cons span spans ih =>
    obtain ⟨hstart, hstop, hrest⟩ := h
    exact hstart.trans (hstop.trans (ih hrest))

theorem InOrder.start_le {size pos : Nat} {spans : List (Nat × Nat)} (h : InOrder size pos spans)
    {span : Nat × Nat} (hmem : span ∈ spans) : pos ≤ span.1 := by
  induction spans generalizing pos with
  | nil => cases hmem
  | cons first spans ih =>
    obtain ⟨hstart, hstop, hrest⟩ := h
    rcases List.mem_cons.mp hmem with rfl | hmem
    · exact hstart
    · exact hstart.trans (hstop.trans (ih hrest hmem))

theorem betweenFrom_cons (xs : List α) (pos start stop : Nat) (spans : List (Nat × Nat)) :
    betweenFrom xs pos ((start, stop) :: spans) =
      (xs.take start).drop pos :: betweenFrom xs stop spans := rfl

theorem zipIdx_drop_split (xs : List α) {pos stop : Nat} (h : pos ≤ stop)
    (hstop : stop ≤ xs.length) :
    (xs.drop pos).zipIdx pos =
      ((xs.take stop).drop pos).zipIdx pos ++ (xs.drop stop).zipIdx stop := by
  have hsplit : xs.drop pos = (xs.take stop).drop pos ++ xs.drop stop := by
    conv_lhs => rw [← List.take_append_drop stop xs]
    rw [List.drop_append_of_le_length (by simp; omega)]
  have hlen : pos + ((xs.take stop).drop pos).length = stop := by
    simp
    omega
  rw [hsplit, List.zipIdx_append, hlen]

/-- What stands between spans in order is what no span covers. -/
theorem betweenFrom_flatten {xs : List α} {pos : Nat} {spans : List (Nat × Nat)}
    (h : InOrder xs.length pos spans) :
    (betweenFrom xs pos spans).flatten =
      (((xs.drop pos).zipIdx pos).filter fun x =>
        spans.all fun span => x.2 < span.1 || span.2 ≤ x.2).map (·.1) := by
  induction spans generalizing pos with
  | nil => simp [betweenFrom]
  | cons span spans ih =>
    obtain ⟨start, stop⟩ := span
    obtain ⟨hstart, hstop, hrest⟩ := h
    have hsize := hrest.le_size
    -- before the span everything stays, inside it nothing, behind it the rest decides
    have hbefore : (((xs.take start).drop pos).zipIdx pos).filter (fun x =>
        ((start, stop) :: spans).all fun span => x.2 < span.1 || span.2 ≤ x.2) =
        ((xs.take start).drop pos).zipIdx pos := by
      rw [List.filter_eq_self]
      intro x hx
      have hlt := List.snd_lt_of_mem_zipIdx hx
      simp only [List.length_drop, List.length_take] at hlt
      simp only [List.all_cons, Bool.and_eq_true, Bool.or_eq_true, decide_eq_true_eq,
        List.all_eq_true]
      refine ⟨.inl (by omega), ?_⟩
      intro span hspan
      have := hrest.start_le hspan
      exact .inl (by omega)
    have hinside : (((xs.take stop).drop start).zipIdx start).filter (fun x =>
        ((start, stop) :: spans).all fun span => x.2 < span.1 || span.2 ≤ x.2) = [] := by
      rw [List.filter_eq_nil_iff]
      intro x hx
      have hlt := List.snd_lt_of_mem_zipIdx hx
      have hle := List.le_snd_of_mem_zipIdx hx
      simp only [List.length_drop, List.length_take] at hlt
      simp only [List.all_cons, Bool.and_eq_true, Bool.or_eq_true, decide_eq_true_eq]
      omega
    have hbehind : ((xs.drop stop).zipIdx stop).filter (fun x =>
        ((start, stop) :: spans).all fun span => x.2 < span.1 || span.2 ≤ x.2) =
        ((xs.drop stop).zipIdx stop).filter fun x =>
          spans.all fun span => x.2 < span.1 || span.2 ≤ x.2 := by
      apply List.filter_congr
      intro x hx
      have hle := List.le_snd_of_mem_zipIdx hx
      simp [hle]
    rw [betweenFrom_cons, List.flatten_cons, ih hrest,
      zipIdx_drop_split xs hstart (hstop.trans hsize), zipIdx_drop_split xs hstop hsize,
      List.filter_append, List.filter_append, hbefore, hinside, hbehind, List.nil_append,
      List.map_append, List.zipIdx_map_fst]

theorem between_flatten {xs : List α} {spans : List (Nat × Nat)}
    (h : InOrder xs.length 0 spans) : (between xs spans).flatten = outside xs spans := by
  rw [between, betweenFrom_flatten h]
  rfl

theorem outside_perm (xs : List α) {spans spans' : List (Nat × Nat)} (h : spans.Perm spans') :
    outside xs spans = outside xs spans' := by
  simp only [outside, h.all_eq]

/-! ## Removing spans from the last one on -/

/-- A span is cut out of the text that the later ones have left, at its old place. -/
def cutAll (xs : List α) : List (Nat × Nat) → List α
  | [] => xs
  | (start, stop) :: spans => (cutAll xs spans).take start ++ (cutAll xs spans).drop stop

/-- What no span covers, from `pos` on. -/
def outsideFrom (xs : List α) (pos : Nat) (spans : List (Nat × Nat)) : List α :=
  (((xs.drop pos).zipIdx pos).filter fun x =>
    spans.all fun span => x.2 < span.1 || span.2 ≤ x.2).map (·.1)

/-- Every place from `pos` on lies in a span. -/
def Covered (size pos : Nat) (spans : List (Nat × Nat)) : Prop :=
  ∀ p, pos ≤ p → p < size → ∃ span ∈ spans, span.1 ≤ p ∧ p < span.2

/-- Each span ends before the next one starts, up to one behind which all is covered. -/
def Apart (size : Nat) : List (Nat × Nat) → Prop
  | (_, stop) :: next :: spans =>
    Covered size stop (next :: spans) ∨ stop ≤ next.1 ∧ Apart size (next :: spans)
  | _ => True

/-- Spans that take something, by where they start. -/
def Starting (size : Nat) (spans : List (Nat × Nat)) : Prop :=
  (spans.Pairwise fun a b => a.1 < b.1) ∧ ∀ span ∈ spans, span.1 < span.2 ∧ span.2 ≤ size

theorem outsideFrom_eq_nil_iff {xs : List α} {pos : Nat} {spans : List (Nat × Nat)} :
    outsideFrom xs pos spans = [] ↔ Covered xs.length pos spans := by
  simp only [outsideFrom, List.map_eq_nil_iff, List.filter_eq_nil_iff, Covered]
  constructor
  · intro h p hpos hsize
    have hmem : (xs.get ⟨p, hsize⟩, p) ∈ (xs.drop pos).zipIdx pos := by
      rw [List.mk_mem_zipIdx_iff_le_and_getElem?_sub]
      refine ⟨hpos, ?_⟩
      rw [List.getElem?_drop, Nat.add_sub_cancel' hpos]
      simp
    have hp := h _ hmem
    simp only [List.all_eq_true, Bool.or_eq_true, decide_eq_true_eq] at hp
    push Not at hp
    exact hp
  · rintro h ⟨x, p⟩ hx
    have hle := List.le_snd_of_mem_zipIdx hx
    have hlt := List.snd_lt_of_mem_zipIdx hx
    simp only [List.length_drop] at hle hlt
    obtain ⟨span, hspan, hstart, hstop⟩ := h p hle (by omega)
    simp only [List.all_eq_true, Bool.or_eq_true, decide_eq_true_eq]
    intro hall
    have := hall span hspan
    omega

/-- Up to where the first span starts nothing is covered. -/
theorem outsideFrom_split {xs : List α} {pos stop : Nat} {spans : List (Nat × Nat)}
    (hpos : pos ≤ stop) (hstop : stop ≤ xs.length) :
    outsideFrom xs pos spans =
      ((((xs.take stop).drop pos).zipIdx pos).filter fun x =>
        spans.all fun span => x.2 < span.1 || span.2 ≤ x.2).map (·.1) ++
      outsideFrom xs stop spans := by
  rw [outsideFrom, zipIdx_drop_split xs hpos hstop, List.filter_append, List.map_append, outsideFrom]

theorem outsideFrom_before {xs : List α} {pos stop : Nat} {spans : List (Nat × Nat)}
    (hpos : pos ≤ stop) (hstop : stop ≤ xs.length) (hspans : ∀ span ∈ spans, stop ≤ span.1) :
    outsideFrom xs pos spans = (xs.take stop).drop pos ++ outsideFrom xs stop spans := by
  rw [outsideFrom_split hpos hstop, List.filter_eq_self.2, List.zipIdx_map_fst]
  intro x hx
  have hlt := List.snd_lt_of_mem_zipIdx hx
  simp only [List.length_drop, List.length_take] at hlt
  simp only [List.all_eq_true, Bool.or_eq_true, decide_eq_true_eq]
  intro span hspan
  have := hspans span hspan
  omega

/-- A span takes what stands in it and nothing behind it. -/
theorem outsideFrom_cons {xs : List α} {start stop : Nat} {spans : List (Nat × Nat)}
    (hstart : start ≤ stop) (hstop : stop ≤ xs.length) :
    outsideFrom xs start ((start, stop) :: spans) = outsideFrom xs stop spans := by
  rw [outsideFrom_split hstart hstop, List.filter_eq_nil_iff.2, List.map_nil, List.nil_append]
  · simp only [outsideFrom]
    congr 1
    apply List.filter_congr
    intro x hx
    have hle := List.le_snd_of_mem_zipIdx hx
    simp [hle]
  · intro x hx
    have hlt := List.snd_lt_of_mem_zipIdx hx
    have hle := List.le_snd_of_mem_zipIdx hx
    simp only [List.length_drop, List.length_take] at hlt
    simp only [List.all_cons, Bool.and_eq_true, Bool.or_eq_true, decide_eq_true_eq]
    omega

theorem Starting.tail {size : Nat} {span : Nat × Nat} {spans : List (Nat × Nat)}
    (h : Starting size (span :: spans)) : Starting size spans :=
  ⟨(List.pairwise_cons.1 h.1).2, fun s hs => h.2 s (List.mem_cons_of_mem _ hs)⟩

/-- The text is unchanged up to the first span. -/
theorem take_cutAll {xs : List α} {pos : Nat} {spans : List (Nat × Nat)}
    (hspans : ∀ span ∈ spans, span.1 ≤ span.2) (h : ∀ span ∈ spans, pos ≤ span.1) :
    (cutAll xs spans).take pos = xs.take pos := by
  induction spans with
  | nil => rfl
  | cons span spans ih =>
    obtain ⟨start, stop⟩ := span
    have hstart : pos ≤ start := h (start, stop) List.mem_cons_self
    have hstop : start ≤ stop := hspans (start, stop) List.mem_cons_self
    have hrest := ih (fun s hs => hspans s (List.mem_cons_of_mem _ hs))
      fun s hs => h s (List.mem_cons_of_mem _ hs)
    rw [cutAll]
    by_cases hlength : start ≤ (cutAll xs spans).length
    · rw [List.take_append_of_le_length (by simp; omega), List.take_take, min_eq_left hstart, hrest]
    · have hdrop : (cutAll xs spans).drop stop = [] := List.drop_of_length_le (by omega)
      have htake : (cutAll xs spans).take start = cutAll xs spans := List.take_of_length_le (by omega)
      rw [hdrop, htake, List.append_nil, hrest]

theorem cutAll_cons {xs : List α} {start stop : Nat} {spans : List (Nat × Nat)}
    (h : Starting xs.length ((start, stop) :: spans)) :
    cutAll xs ((start, stop) :: spans) = xs.take start ++ (cutAll xs spans).drop stop := by
  rw [cutAll, take_cutAll]
  · exact fun span hspan => (h.tail.2 span hspan).1.le
  · exact fun span hspan => ((List.pairwise_cons.1 h.1).1 span hspan).le

/-- Of the places that a span starts among, it covers the first. -/
theorem length_outsideFrom_le {xs : List α} {start stop pos : Nat} {spans : List (Nat × Nat)}
    (hspan : start < stop) (hpos : start < pos) (hsize : pos ≤ xs.length) :
    (outsideFrom xs start ((start, stop) :: spans)).length <
      (outsideFrom xs pos ((start, stop) :: spans)).length + (pos - start) := by
  rw [outsideFrom_split hpos.le hsize, List.length_append, List.length_map]
  set places := ((xs.take pos).drop start).zipIdx start with hplaces
  have hlength : places.length = pos - start := by
    simp [hplaces]
    omega
  have hfirst : (xs.get ⟨start, by omega⟩, start) ∈ places := by
    rw [hplaces, List.mk_mem_zipIdx_iff_le_and_getElem?_sub]
    simp [hpos]
  have hlt : (places.filter fun x => ((start, stop) :: spans).all fun span =>
      x.2 < span.1 || span.2 ≤ x.2).length < places.length := by
    rw [List.length_filter_lt_length_iff_exists]
    refine ⟨_, hfirst, ?_⟩
    simp only [List.all_cons, Bool.and_eq_true, Bool.or_eq_true, decide_eq_true_eq]
    omega
  omega

/-- What is left behind the first span when the later ones have been cut, against what no
span covers. -/
theorem drop_cutAll {xs : List α} {start stop : Nat} {spans : List (Nat × Nat)}
    (h : Starting xs.length ((start, stop) :: spans)) :
    ((cutAll xs spans).drop stop).length ≤ (outsideFrom xs stop spans).length ∧
      ((cutAll xs spans).drop stop = outsideFrom xs stop spans ↔
        Apart xs.length ((start, stop) :: spans)) := by
  induction spans generalizing start stop with
  | nil => simp [cutAll, outsideFrom, Apart]
  | cons next spans ih =>
    obtain ⟨start', stop'⟩ := next
    obtain ⟨hlength, hiff⟩ := ih h.tail
    have hstart' : start < start' := (List.pairwise_cons.1 h.1).1 _ List.mem_cons_self
    obtain ⟨hspan', hsize'⟩ : start' < stop' ∧ stop' ≤ xs.length :=
      h.tail.2 (start', stop') List.mem_cons_self
    obtain ⟨hspan, hsize⟩ : start < stop ∧ stop ≤ xs.length :=
      h.2 (start, stop) List.mem_cons_self
    have hlater : ∀ span ∈ (start', stop') :: spans, start' ≤ span.1 := by
      intro span hmem
      rcases List.mem_cons.1 hmem with rfl | hmem
      · exact le_rfl
      · exact ((List.pairwise_cons.1 h.tail.1).1 span hmem).le
    have hnext : outsideFrom xs start' ((start', stop') :: spans) = outsideFrom xs stop' spans :=
      outsideFrom_cons hspan'.le hsize'
    rw [cutAll_cons h.tail]
    by_cases happart : stop ≤ start'
    · have hbefore : outsideFrom xs stop ((start', stop') :: spans) =
          (xs.take start').drop stop ++ outsideFrom xs stop' spans := by
        rw [outsideFrom_before happart (by omega) hlater, hnext]
      have htake : stop ≤ (xs.take start').length := by
        simp
        omega
      rw [List.drop_append_of_le_length htake, hbefore]
      refine ⟨by simpa only [List.length_append, Nat.add_le_add_iff_left] using hlength, ?_⟩
      rw [List.append_right_inj, hiff, Apart]
      constructor
      · exact fun hrest => .inr ⟨happart, hrest⟩
      · rintro (hcovered | ⟨-, hrest⟩)
        · -- nothing is left behind the first span, so nothing behind the second
          rw [← hiff]
          rw [← outsideFrom_eq_nil_iff, hbefore, List.append_eq_nil_iff] at hcovered
          rw [hcovered.2] at hlength ⊢
          exact List.length_eq_zero_iff.1 (Nat.le_zero.1 hlength)
        · exact hrest
    · have hinside : start' < stop := by omega
      have hdrop : (xs.take start' ++ (cutAll xs spans).drop stop').drop stop =
          ((cutAll xs spans).drop stop').drop (stop - start') := by
        rw [List.drop_append, List.drop_of_length_le (by simp; omega), List.nil_append]
        simp
        omega
      have hmore := @length_outsideFrom_le α xs start' stop' stop spans hspan' hinside hsize
      rw [hnext] at hmore
      rw [hdrop]
      have hcut : (((cutAll xs spans).drop stop').drop (stop - start')).length =
          ((cutAll xs spans).drop stop').length - (stop - start') := List.length_drop
      refine ⟨by omega, ?_⟩
      rw [Apart, ← outsideFrom_eq_nil_iff]
      constructor
      · intro heq
        have hlen := congrArg List.length heq
        refine .inl (List.length_eq_zero_iff.1 ?_)
        omega
      · rintro (hnil | ⟨hle, -⟩)
        · rw [hnil] at hmore ⊢
          simp only [List.length_nil] at hmore
          exact List.length_eq_zero_iff.1 (by omega)
        · omega

end

/-! ## Sorting by a key -/

section
variable {α κ : Type} [LinearOrder κ] (key : α → κ)

/-- `sorted(xs, key=key)` -/
def stableSort (xs : List α) : List α := xs.insertionSort fun a b => key a ≤ key b

theorem stableSort_sorted (xs : List α) :
    (stableSort key xs).Pairwise fun a b => key a ≤ key b := by
  have htotal : Std.Total fun a b : α => key a ≤ key b := ⟨fun a b => le_total (key a) (key b)⟩
  have htrans : IsTrans α fun a b => key a ≤ key b := ⟨fun _ _ _ => le_trans⟩
  exact List.pairwise_insertionSort _ xs

theorem filter_orderedInsert (k : κ) (a : α) (xs : List α) :
    (xs.orderedInsert (fun a b => key a ≤ key b) a).filter (fun x => key x = k) =
      (a :: xs).filter fun x => key x = k := by
  induction xs with
  | nil => rfl
  | cons b xs ih =>
    rw [List.orderedInsert_cons]
    by_cases h : key a ≤ key b
    · rw [if_pos h]
    · rw [if_neg h, List.filter_cons, ih]
      by_cases hb : key b = k
      · have ha : key a ≠ k := by
          rintro rfl
          exact h hb.ge
        simp [ha, hb]
      · simp [hb, List.filter_cons]

/-- Elements with one key stay in their order. -/
theorem filter_stableSort (k : κ) (xs : List α) :
    (stableSort key xs).filter (fun x => key x = k) = xs.filter fun x => key x = k := by
  induction xs with
  | nil => rfl
  | cons a xs ih =>
    rw [stableSort, List.insertionSort_cons, filter_orderedInsert, List.filter_cons]
    rw [stableSort] at ih
    rw [ih, List.filter_cons]

/-- With no key twice the order of the list does not matter. -/
theorem stableSort_perm {xs ys : List α} (h : xs.Perm ys) (hkeys : (xs.map key).Nodup) :
    stableSort key xs = stableSort key ys := by
  have hperm : (stableSort key xs).Perm (stableSort key ys) :=
    (List.perm_insertionSort _ xs).trans (h.trans (List.perm_insertionSort _ ys).symm)
  refine hperm.eq_of_pairwise ?_ (stableSort_sorted key xs) (stableSort_sorted key ys)
  intro a b ha hb hab hba
  have ha := (List.perm_insertionSort _ xs).subset ha
  have hb := h.symm.subset ((List.perm_insertionSort _ ys).subset hb)
  exact List.inj_on_of_nodup_map hkeys ha hb (le_antisymm hab hba)

end

end MeleeHarness.Lib
