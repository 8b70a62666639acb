import MeleeHarness.Lib.Splice
import MeleeHarness.Permute.Replay

/-!
# What `apply_edits` does

Edits inside the source either overlap, in their stable order, or are spliced in.

* `spliceEdits_eq`: the loop weaves the gaps with the replacements, or stops at
  the first edit that starts before the one before it ends;
* `applyEdits_splice`: so every byte outside the edits survives once, and the
  order in which edits with different starts are given does not matter.
-/

namespace MeleeHarness.Permute

open MeleeHarness.Lib

/-- `0 <= start <= end <= len(src)` -/
def Edit.Inside (src : Bytes) (e : Edit) : Prop :=
  0 ≤ e.start ∧ e.start ≤ e.stop ∧ e.stop ≤ src.length

instance (src : Bytes) (e : Edit) : Decidable (e.Inside src) :=
  inferInstanceAs (Decidable (_ ∧ _ ∧ _))

def Edit.span (e : Edit) : Nat × Nat := (e.start.toNat, e.stop.toNat)

/-- Some edit starts before the one before it ends. -/
def Overlapping (edits : List Edit) : Prop :=
  ∃ before a b behind, edits = before ++ a :: b :: behind ∧ b.start < a.stop

/-- `sorted` are the edits by start, those with one start in the order given. -/
structure StableByStart (edits sorted : List Edit) : Prop where
  perm : sorted.Perm edits
  ordered : sorted.Pairwise fun a b => a.start ≤ b.start
  stable : ∀ start, sorted.filter (fun e => e.start = start) =
    edits.filter fun e => e.start = start

/-- The edits in the order in which `apply_edits` reads them. -/
def byStart (edits : List Edit) : List Edit := stableSort (·.start) edits

theorem byStart_stable (edits : List Edit) : StableByStart edits (byStart edits) where
  perm := List.perm_insertionSort _ edits
  ordered := stableSort_sorted (·.start) edits
  stable start := filter_stableSort (·.start) start edits

theorem overlapping_cons {a : Edit} {edits : List Edit} :
    Overlapping (a :: edits) ↔ (∃ b behind, edits = b :: behind ∧ b.start < a.stop) ∨
      Overlapping edits := by
  constructor
  · rintro ⟨before, c, d, behind, h, hlt⟩
    cases before with
    | nil =>
      obtain ⟨rfl, rfl⟩ := List.cons.inj h
      exact .inl ⟨d, behind, rfl, hlt⟩
    | cons e before =>
      obtain ⟨-, rfl⟩ := List.cons.inj h
      exact .inr ⟨before, c, d, behind, rfl, hlt⟩
  · rintro (⟨b, behind, rfl, hlt⟩ | ⟨before, c, d, behind, rfl, hlt⟩)
    · exact ⟨[], a, b, behind, rfl, hlt⟩
    · exact ⟨a :: before, c, d, behind, rfl, hlt⟩

/-- The loop refuses an edit that starts before `pos`, or before the one before it
ends, and otherwise weaves what it has left. -/
theorem spliceEdits_eq {src : Bytes} {edits : List Edit} (inside : ∀ e ∈ edits, e.Inside src)
    (pos : Nat) (hpos : pos ≤ src.length) (out : Bytes) :
    ((∃ b behind, edits = b :: behind ∧ b.start < pos) ∨ Overlapping edits) ∧
        spliceEdits src pos out edits = .error .overlappingEdits ∨
      InOrder src.length pos (edits.map Edit.span) ∧ ¬Overlapping edits ∧
        spliceEdits src pos out edits =
          .ok (out ++ weave (betweenFrom src pos (edits.map Edit.span))
            (edits.map (·.replacement))) := by
  induction edits generalizing pos out with
  | nil =>
    refine .inr ⟨hpos, ?_, ?_⟩
    · rintro ⟨before, a, b, behind, h, -⟩
      simp at h
    · simp [spliceEdits, sliceFrom_natCast, betweenFrom, weave]
  | cons e edits ih =>
    obtain ⟨hstart, hstop, hsize⟩ := inside e List.mem_cons_self
    by_cases hlt : e.start < pos
    · refine .inl ⟨.inl ⟨e, edits, rfl, hlt⟩, ?_⟩
      rw [spliceEdits, if_pos hlt]
    · obtain ⟨start, hs⟩ := Int.eq_ofNat_of_zero_le hstart
      obtain ⟨stop, he⟩ := Int.eq_ofNat_of_zero_le (hstart.trans hstop)
      have hspan : e.span = (start, stop) := by simp [Edit.span, hs, he]
      have hrest := ih (fun e he => inside e (List.mem_cons_of_mem _ he)) stop (by omega)
        (out ++ slice src pos start ++ e.replacement)
      rw [spliceEdits, if_neg hlt, hs, he, overlapping_cons, he]
      rcases hrest with ⟨hover, herr⟩ | ⟨horder, hover, hok⟩
      · exact .inl ⟨.inr hover, herr⟩
      · have hfirst : ¬∃ b behind, edits = b :: behind ∧ b.start < (stop : Int) := by
          rintro ⟨b, behind, rfl, hlt⟩
          have := horder.start_le (List.mem_cons_self : b.span ∈ _)
          have hb := (inside b (by simp)).1
          simp only [Edit.span] at this
          omega
        refine .inr ⟨?_, ?_, ?_⟩
        · rw [List.map_cons, hspan]
          exact ⟨by omega, by omega, horder⟩
        · rintro (h | h)
          · exact hfirst h
          · exact hover h
        · rw [hok, List.map_cons, List.map_cons, hspan, betweenFrom_cons, weave, slice_natCast]
          simp

/-- **Splices.** Edits inside the source are refused exactly if, in their stable
order by start, one starts before the one before it ends. Otherwise the result
weaves the gaps between them with their replacements, and the gaps hold every byte
outside the edits once, in order, and no other. With no start twice the order of
the edits does not matter. -/
theorem applyEdits_splice (src : Bytes) (edits : List Edit)
    (inside : ∀ e ∈ edits, e.Inside src) :
    let sorted := byStart edits
    StableByStart edits sorted ∧
    (applyEdits src edits = .error .overlappingEdits ↔ Overlapping sorted) ∧
    (¬Overlapping sorted →
      applyEdits src edits =
        .ok (weave (between src (sorted.map Edit.span)) (sorted.map (·.replacement))) ∧
      (between src (sorted.map Edit.span)).flatten = outside src (edits.map Edit.span)) ∧
    ((edits.map (·.start)).Nodup →
      ∀ others, others.Perm edits → applyEdits src others = applyEdits src edits) := by
  intro sorted
  have hstable := byStart_stable edits
  have hinside : ∀ e ∈ sorted, e.Inside src := fun e he => inside e (hstable.perm.subset he)
  have hrun : applyEdits src edits = spliceEdits src (0 : Nat) [] sorted := rfl
  refine ⟨hstable, ?_, ?_, ?_⟩
  · rw [hrun]
    rcases spliceEdits_eq hinside 0 (by omega) [] with ⟨hover, herr⟩ | ⟨-, hover, hok⟩
    · refine ⟨fun _ => ?_, fun _ => herr⟩
      rcases hover with ⟨b, behind, hb, hlt⟩ | hover
      · have := (hinside b (by rw [hb]; exact List.mem_cons_self)).1
        omega
      · exact hover
    · rw [hok]
      simp [hover]
  · intro hnot
    rw [hrun]
    rcases spliceEdits_eq hinside 0 (by omega) [] with ⟨hover, herr⟩ | ⟨horder, -, hok⟩
    · rcases hover with ⟨b, behind, hb, hlt⟩ | hover
      · have := (hinside b (by rw [hb]; exact List.mem_cons_self)).1
        omega
      · exact absurd hover hnot
    · refine ⟨by simpa [between] using hok, ?_⟩
      rw [between_flatten horder]
      exact outside_perm src (hstable.perm.map _)
  · intro hstarts others hperm
    have hsame : stableSort (·.start) edits = stableSort (·.start) others :=
      stableSort_perm (·.start) hperm.symm hstarts
    simp only [applyEdits]
    rw [stableSort, stableSort] at hsame
    rw [hsame]

/-- Two edits that leave each other alone in either order. -/
def Edit.Clear (a b : Edit) : Prop :=
  (a.stop ≤ b.start ∨ b.stop ≤ a.start) ∧ (a.start = b.start → a.stop = a.start ∧ b.stop = b.start)

theorem Edit.Clear.symm {a b : Edit} (h : a.Clear b) : b.Clear a :=
  ⟨h.1.symm, fun hstart => (h.2 hstart.symm).symm⟩

/-- Edits that leave each other alone do not overlap once they are sorted. -/
theorem not_overlapping_of_clear {src : Bytes} {edits : List Edit}
    (inside : ∀ e ∈ edits, e.Inside src) (h : edits.Pairwise Edit.Clear) :
    ¬Overlapping (byStart edits) := by
  obtain ⟨hperm, hordered, -⟩ := byStart_stable edits
  have hclear : (byStart edits).Pairwise Edit.Clear := hperm.symm.pairwise h fun hab => hab.symm
  rintro ⟨before, a, b, behind, hsplit, hlt⟩
  have hb : b.Inside src := inside b (hperm.subset (by simp [hsplit]))
  rw [hsplit, List.pairwise_append, List.pairwise_cons] at hclear hordered
  have hle := hordered.2.1.1 b List.mem_cons_self
  obtain ⟨hapart, hsame⟩ := hclear.2.1.1 b List.mem_cons_self
  obtain ⟨-, hstop, -⟩ := hb
  rcases hapart with hapart | hapart
  · omega
  · have hempty := (hsame (by omega)).1
    omega

/-- Edits that are not empty and do not overlap, in their order, are apart from each other. -/
theorem apart_of_not_overlapping {edits : List Edit} (hproper : ∀ e ∈ edits, e.start < e.stop)
    (h : ¬Overlapping edits) : edits.Pairwise fun a b => a.stop ≤ b.start := by
  induction edits with
  | nil => exact .nil
  | cons a edits ih =>
    rw [overlapping_cons, not_or] at h
    have hrest := ih (fun e he => hproper e (List.mem_cons_of_mem _ he)) h.2
    refine .cons ?_ hrest
    cases edits with
    | nil => simp
    | cons b edits =>
      have hab : a.stop ≤ b.start := by
        by_contra hlt
        exact h.1 ⟨b, edits, rfl, by omega⟩
      have hb := hproper b (by simp)
      rw [List.pairwise_cons] at hrest
      intro c hc
      rcases List.mem_cons.mp hc with rfl | hc
      · exact hab
      · have := hrest.1 c hc
        omega

/-- Of accepted edits that are not empty, no two touch the same text. -/
theorem apart_of_accepted {src : Bytes} {edits : List Edit} (inside : ∀ e ∈ edits, e.Inside src)
    (hproper : ∀ e ∈ edits, e.start < e.stop) {out : Bytes} (h : applyEdits src edits = .ok out) :
    edits.Pairwise fun a b => a.stop ≤ b.start ∨ b.stop ≤ a.start := by
  obtain ⟨hstable, hrefused, -⟩ := applyEdits_splice src edits inside
  have hnot : ¬Overlapping (byStart edits) := by
    intro hover
    rw [hrefused.mpr hover] at h
    cases h
  have happart := apart_of_not_overlapping (fun e he => hproper e (hstable.perm.subset he)) hnot
  exact hstable.perm.pairwise (happart.imp .inl) fun hab => hab.symm

/-- Accepted edits that are not empty may be given in any order. -/
theorem applyEdits_perm {src : Bytes} {edits others : List Edit}
    (inside : ∀ e ∈ edits, e.Inside src) (hproper : ∀ e ∈ edits, e.start < e.stop) {out : Bytes}
    (h : applyEdits src edits = .ok out) (hperm : others.Perm edits) :
    applyEdits src others = .ok out := by
  have hstarts : (edits.map (·.start)).Nodup := by
    rw [List.Nodup, List.pairwise_map]
    refine List.Pairwise.imp_of_mem ?_ (apart_of_accepted inside hproper h)
    intro a b ha hb hab heq
    have := hproper a ha
    have := hproper b hb
    omega
  rw [(applyEdits_splice src edits inside).2.2.2 hstarts others hperm, h]

/-- What has been written stays. -/
theorem spliceEdits_starts {src : Bytes} {edits : List Edit} {pos : Int} {out result : Bytes}
    (h : spliceEdits src pos out edits = .ok result) : out <+: result := by
  induction edits generalizing pos out with
  | nil =>
    cases h
    exact List.prefix_append _ _
  | cons e edits ih =>
    rw [spliceEdits] at h
    split at h
    · cases h
    · exact ((List.prefix_append _ _).trans (List.prefix_append _ _)).trans (ih h)

/-- Insertions at one place are written there in their order. -/
theorem spliceEdits_insertions {src : Bytes} (pos : Nat) (texts : List Bytes) (rest : List Edit)
    (out : Bytes) :
    spliceEdits src pos out (texts.map (fun text => ⟨pos, pos, text⟩) ++ rest) =
      spliceEdits src pos (out ++ texts.flatten) rest := by
  induction texts generalizing out with
  | nil => simp
  | cons text texts ih =>
    rw [List.map_cons, List.cons_append, spliceEdits, if_neg (Int.lt_irrefl _), ih, slice_natCast]
    simp

/-- Of edits none of which starts before `pos`, those at `pos` come first. -/
theorem byStart_split {edits : List Edit} {pos : Int} (h : ∀ e ∈ edits, pos ≤ e.start) :
    byStart edits = edits.filter (fun e => e.start = pos) ++
      (byStart edits).filter fun e => e.start ≠ pos := by
  obtain ⟨hperm, hordered, hstable⟩ := byStart_stable edits
  rw [← hstable pos]
  have hle : ∀ e ∈ byStart edits, pos ≤ e.start := fun e he => h e (hperm.subset he)
  clear hperm hstable
  generalize byStart edits = sorted at hordered hle
  induction sorted with
  | nil => rfl
  | cons e sorted ih =>
    rw [List.pairwise_cons] at hordered
    have hrest := ih hordered.2 fun e he => hle e (List.mem_cons_of_mem _ he)
    by_cases he : e.start = pos
    · simp only [List.filter_cons, he, decide_true, if_true, ne_eq, not_true_eq_false, decide_false,
        List.cons_append]
      exact congrArg _ hrest
    · -- behind an edit that starts later none starts at `pos`
      have hnone : ∀ f ∈ e :: sorted, f.start ≠ pos := by
        intro f hf
        rcases List.mem_cons.mp hf with rfl | hf
        · exact he
        · have := hordered.1 f hf
          have := hle e List.mem_cons_self
          omega
      rw [List.filter_eq_nil_iff.mpr fun f hf => by simpa using hnone f hf, List.nil_append,
        List.filter_eq_self.mpr fun f hf => by simpa using hnone f hf]

/-- Where the first edits are insertions, the result begins with the source before them
and with what they insert. -/
theorem applyEdits_starts {src : Bytes} {edits : List Edit} {pos : Nat} {texts : List Bytes}
    {out : Bytes} (hle : ∀ e ∈ edits, (pos : Int) ≤ e.start) (hne : texts ≠ [])
    (hfirst : edits.filter (fun e => e.start = (pos : Int)) = texts.map fun text => ⟨pos, pos, text⟩)
    (h : applyEdits src edits = .ok out) : src.take pos ++ texts.flatten <+: out := by
  have hrun : spliceEdits src (0 : Nat) [] (byStart edits) = .ok out := h
  obtain ⟨text, texts, rfl⟩ := List.exists_cons_of_ne_nil hne
  have hpos : ¬((pos : Int) < (0 : Nat)) := by omega
  rw [byStart_split hle, hfirst, List.map_cons, List.cons_append, spliceEdits, if_neg hpos,
    spliceEdits_insertions, slice_natCast] at hrun
  simpa using spliceEdits_starts hrun

/-- The edits of a swap, the later one first. -/
theorem applyEdits_swapped :
    (between (ascii "a + b;") [(0, 1), (4, 5)]).flatten =
      outside (ascii "a + b;") [(4, 5), (0, 1)] ∧
    applyEdits (ascii "a + b;") [⟨4, 5, ascii "a"⟩, ⟨0, 1, ascii "b"⟩] = .ok (ascii "b + a;") := by
  have h := applyEdits_splice (ascii "a + b;") [⟨4, 5, ascii "a"⟩, ⟨0, 1, ascii "b"⟩] (by decide)
  have hnot : ¬Overlapping (byStart [⟨4, 5, ascii "a"⟩, ⟨0, 1, ascii "b"⟩]) := by
    rw [← h.2.1]
    decide
  obtain ⟨hok, hgaps⟩ := h.2.2.1 hnot
  exact ⟨hgaps, hok.trans (by decide)⟩

end MeleeHarness.Permute
