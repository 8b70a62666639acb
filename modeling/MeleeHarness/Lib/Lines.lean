import MeleeHarness.Lib.Text

/-!
# A separator that occurs once

A line-oriented reader that keeps the lines with a separator in them reads one
line of a text in which the separator occurs once: `filter_splitlines_sep` says
which, whatever line boundaries stand on either side.
-/

namespace MeleeHarness.Lib

theorem mem_of_mem_splitlines {t line : Text} {c : Char} (hl : line ∈ splitlines t)
    (hc : c ∈ line) : c ∈ t := by
  induction t using List.twoStepInduction generalizing line with
  | nil => simp [splitlines] at hl
  | singleton d =>
    cases hd : isLineBoundary d with
    | false =>
      rw [splitlines_ordinary hd, splitlines, extendFirst, List.mem_singleton] at hl
      exact hl ▸ hc
    | true =>
      rw [splitlines_boundary hd (by simp), splitlines, List.mem_singleton] at hl
      rw [hl] at hc
      cases hc
  | cons_cons d e ds ih₀ ih₁ =>
    cases hd : isLineBoundary d with
    | false =>
      rw [splitlines_ordinary hd] at hl
      obtain ⟨first, rest, hlines⟩ :=
        List.exists_cons_of_ne_nil (splitlines_ne_nil e ds)
      rw [hlines, extendFirst, List.mem_cons] at hl
      rcases hl with rfl | hl
      · rcases List.mem_cons.mp hc with rfl | hc
        · exact List.mem_cons_self
        · exact List.mem_cons_of_mem d (ih₁ e (hlines ▸ List.mem_cons_self) hc)
      · exact List.mem_cons_of_mem d (ih₁ e (hlines ▸ List.mem_cons_of_mem first hl) hc)
    | true =>
      by_cases hde : d = '\r' ∧ e = '\n'
      · obtain ⟨rfl, rfl⟩ := hde
        rw [splitlines_crlf, List.mem_cons] at hl
        rcases hl with rfl | hl
        · cases hc
        · exact List.mem_cons_of_mem _ (List.mem_cons_of_mem _ (ih₀ hl hc))
      · rw [splitlines_boundary_cons hd hde, List.mem_cons] at hl
        rcases hl with rfl | hl
        · cases hc
        · exact List.mem_cons_of_mem d (ih₁ e hl hc)

/-- The lines of a text have no boundary in them. -/
theorem unbroken_of_mem_splitlines {t line : Text} (hl : line ∈ splitlines t) : Unbroken line := by
  induction t using List.twoStepInduction generalizing line with
  | nil => simp [splitlines] at hl
  | singleton d =>
    cases hd : isLineBoundary d with
    | false =>
      rw [splitlines_ordinary hd, splitlines, extendFirst, List.mem_singleton] at hl
      rw [hl]
      intro c hc
      rwa [List.mem_singleton.mp hc]
    | true =>
      rw [splitlines_boundary hd (by simp), splitlines, List.mem_singleton] at hl
      rw [hl]
      intro c hc
      cases hc
  | cons_cons d e ds ih₀ ih₁ =>
    cases hd : isLineBoundary d with
    | false =>
      rw [splitlines_ordinary hd] at hl
      obtain ⟨first, rest, hlines⟩ := List.exists_cons_of_ne_nil (splitlines_ne_nil e ds)
      rw [hlines, extendFirst, List.mem_cons] at hl
      rcases hl with rfl | hl
      · intro c hc
        rcases List.mem_cons.mp hc with rfl | hc
        · exact hd
        · exact ih₁ e (hlines ▸ List.mem_cons_self) c hc
      · exact ih₁ e (hlines ▸ List.mem_cons_of_mem first hl)
    | true =>
      by_cases hde : d = '\r' ∧ e = '\n'
      · obtain ⟨rfl, rfl⟩ := hde
        rw [splitlines_crlf, List.mem_cons] at hl
        rcases hl with rfl | hl
        · intro c hc
          cases hc
        · exact ih₀ hl
      · rw [splitlines_boundary_cons hd hde, List.mem_cons] at hl
        rcases hl with rfl | hl
        · intro c hc
          cases hc
        · exact ih₁ e hl

theorem splitlines_unbroken {t : Text} (ht : Unbroken t) (hne : t ≠ []) : splitlines t = [t] := by
  induction t with
  | nil => exact absurd rfl hne
  | cons c t ih =>
    have htail : Unbroken t := fun d hd => ht d (List.mem_cons_of_mem c hd)
    rw [splitlines_ordinary (ht c List.mem_cons_self)]
    by_cases hnil : t = []
    · rw [hnil]
      rfl
    · rw [ih htail hnil]
      rfl

/-- A boundary ends an empty line, and the lines behind it are made of what follows. -/
theorem splitlines_boundary_rest {c : Char} (hc : isLineBoundary c = true) (t : Text) :
    ∃ rest, splitlines (c :: t) = [] :: rest ∧ ∀ line ∈ rest, ∀ d ∈ line, d ∈ t := by
  by_cases hn : c = '\r' ∧ ∃ u, t = '\n' :: u
  · obtain ⟨rfl, u, rfl⟩ := hn
    exact ⟨splitlines u, splitlines_crlf u, fun line hl d hd =>
      List.mem_cons_of_mem _ (mem_of_mem_splitlines hl hd)⟩
  · exact ⟨splitlines t, splitlines_boundary hc hn, fun line hl d hd =>
      mem_of_mem_splitlines hl hd⟩

/-- The part of a text before its first line boundary. -/
def firstLine (t : Text) : Text := t.takeWhile fun c => !isLineBoundary c

/-- The part of a text behind its last line boundary. -/
def lastLine (t : Text) : Text := t.rtakeWhile fun c => !isLineBoundary c

theorem unbroken_firstLine (t : Text) : Unbroken (firstLine t) := by
  intro c hc
  simpa using List.mem_takeWhile_imp hc

theorem splitlines_firstLine (t : Text) :
    ∃ rest, splitlines (t ++ ['\n']) = firstLine t :: rest ∧
      ∀ line ∈ rest, ∀ c ∈ line, c ∈ t ++ ['\n'] := by
  have hsplit : firstLine t ++ t.dropWhile (fun c => !isLineBoundary c) = t :=
    List.takeWhile_append_dropWhile
  cases hrest : t.dropWhile (fun c => !isLineBoundary c) with
  | nil =>
    rw [hrest, List.append_nil] at hsplit
    refine ⟨[], ?_, by simp⟩
    conv_lhs => rw [← hsplit]
    rw [splitlines_unbroken_newline (unbroken_firstLine t), splitlines]
  | cons c u =>
    have hc : isLineBoundary c = true := by
      have hne : t.dropWhile (fun c => !isLineBoundary c) ≠ [] := by simp [hrest]
      have := List.head_dropWhile_not (fun c => !isLineBoundary c) hne
      simpa [hrest] using this
    obtain ⟨rest, hlines, hmem⟩ := splitlines_boundary_rest hc (u ++ ['\n'])
    rw [hrest] at hsplit
    refine ⟨rest, ?_, ?_⟩
    · conv_lhs => rw [← hsplit]
      have := splitlines_unbroken_append (unbroken_firstLine t) hlines
      simpa using this
    · intro line hl d hd
      rw [← hsplit]
      have := hmem line hl d hd
      simp only [List.mem_append, List.mem_cons] at this ⊢
      tauto

/-- A text is unbroken, or ends with its last line behind a boundary. -/
theorem lastLine_split (t : Text) : Unbroken t ∧ lastLine t = t ∨
    ∃ front c, t = front ++ c :: lastLine t ∧ isLineBoundary c = true := by
  induction t using List.reverseRecOn with
  | nil => exact .inl ⟨by simp [Unbroken], rfl⟩
  | append_singleton t d ih =>
    rw [lastLine, List.rtakeWhile_concat]
    cases hd : isLineBoundary d with
    | true => exact .inr ⟨t, d, by simp, hd⟩
    | false =>
      simp only [Bool.not_false, ↓reduceIte]
      rcases ih with ⟨hu, hl⟩ | ⟨front, c, ht, hc⟩
      · refine .inl ⟨hu.append (by simp [Unbroken, hd]), ?_⟩
        rw [lastLine] at hl
        rw [hl]
      · refine .inr ⟨front, c, ?_, hc⟩
        conv_lhs => rw [ht]
        simp [lastLine]

theorem unbroken_lastLine (t : Text) : Unbroken (lastLine t) := by
  intro c hc
  simpa using List.mem_rtakeWhile_imp hc

theorem Unbroken.ne_newline {t : Text} (h : Unbroken t) (hne : t ≠ []) (rest u : Text) :
    t ++ rest ≠ '\n' :: u := by
  obtain ⟨d, ds, rfl⟩ := List.exists_cons_of_ne_nil hne
  intro ht
  have hd := h d List.mem_cons_self
  rw [(List.cons.inj ht).1] at hd
  exact absurd hd (by decide)

/-- A separator that occurs once is on one line, between the last line before it
and the first line behind it. -/
theorem filter_splitlines_sep {sep : Char} (hsep : isLineBoundary sep = false) {a b : Text}
    (ha : sep ∉ a) (hb : sep ∉ b) :
    (splitlines (a ++ sep :: (b ++ ['\n']))).filter (·.contains sep) =
      [lastLine a ++ sep :: firstLine b] := by
  have hnl : sep ≠ '\n' := by
    rintro rfl
    exact absurd hsep (by decide)
  obtain ⟨rest, hfirst, hrest⟩ := splitlines_firstLine b
  have hbar : Unbroken (lastLine a ++ [sep]) :=
    (unbroken_lastLine a).append (by simp [Unbroken, hsep])
  have hlast : splitlines (lastLine a ++ sep :: (b ++ ['\n'])) =
      (lastLine a ++ sep :: firstLine b) :: rest := by
    have := splitlines_unbroken_append hbar hfirst
    simpa using this
  have hquiet : rest.filter (·.contains sep) = [] := by
    rw [List.filter_eq_nil_iff]
    intro line hl hc
    have := hrest line hl sep (List.contains_iff_mem.mp hc)
    simp [hb, hnl] at this
  rcases lastLine_split a with ⟨-, hl⟩ | ⟨front, c, hsplit, hc⟩
  · rw [hl] at hlast ⊢
    rw [hlast, List.filter_cons, hquiet]
    simp
  · have hfront : ((splitlines (front ++ [c])).filter (·.contains sep)) = [] := by
      rw [List.filter_eq_nil_iff]
      intro line hl hs
      have hmem := mem_of_mem_splitlines hl (List.contains_iff_mem.mp hs)
      apply ha
      rw [hsplit]
      simp only [List.mem_append, List.mem_cons, List.not_mem_nil, or_false] at hmem ⊢
      tauto
    have hnext : ¬(c = '\r' ∧ ∃ t, lastLine a ++ sep :: (b ++ ['\n']) = '\n' :: t) := by
      rintro ⟨-, t, ht⟩
      exact hbar.ne_newline (by simp) (b ++ ['\n']) t (by simpa using ht)
    have hwhole : a ++ sep :: (b ++ ['\n']) =
        front ++ c :: (lastLine a ++ sep :: (b ++ ['\n'])) := by
      conv_lhs => rw [hsplit]
      simp
    rw [hwhole, splitlines_append_boundary hc front hnext, List.filter_append, hfront, hlast,
      List.filter_cons, hquiet]
    simp

theorem lastLine_append {c : Char} (hc : isLineBoundary c = true) (front : Text) {t : Text}
    (ht : Unbroken t) : lastLine (front ++ c :: t) = t := by
  induction t using List.reverseRecOn with
  | nil => simp [lastLine, hc]
  | append_singleton t d ih =>
    have hd : isLineBoundary d = false := ht d (by simp)
    have ih := ih fun e he => ht e (List.mem_append_left _ he)
    rw [lastLine] at ih ⊢
    rw [← List.cons_append, ← List.append_assoc, List.rtakeWhile_concat]
    simp [hd, ih]

theorem lastLine_unbroken {t : Text} (ht : Unbroken t) : lastLine t = t := by
  rcases lastLine_split t with ⟨-, h⟩ | ⟨front, c, hsplit, hc⟩
  · exact h
  · have := ht c (by rw [hsplit]; simp)
    rw [hc] at this
    cases this

/-! ## What stripping keeps -/

/-- The number of characters that are not white space. -/
def solid (t : Text) : Nat := t.countP fun c => !isSpace c

theorem solid_dropWhile (t : Text) : solid (t.dropWhile isSpace) = solid t := by
  induction t with
  | nil => rfl
  | cons c cs ih =>
    cases hc : isSpace c with
    | true => simpa [solid, hc] using ih
    | false => simp [hc]

theorem solid_reverse (t : Text) : solid t.reverse = solid t := List.countP_reverse

theorem solid_strip (t : Text) : solid (strip t) = solid t := by
  have hr : solid (rstrip t) = solid t := by
    rw [rstrip, List.rdropWhile, solid_reverse, solid_dropWhile, solid_reverse]
  rw [strip, lstrip, solid_dropWhile, hr]

theorem solid_append (a b : Text) : solid (a ++ b) = solid a + solid b := List.countP_append

theorem solid_eq_zero {t : Text} : solid t = 0 ↔ ∀ c ∈ t, isSpace c = true := by
  simp [solid, List.countP_eq_zero]

/-- White space behind a text does not survive stripping. -/
theorem strip_append_space {b : Text} (hb : ∀ c ∈ b, isSpace c = true) (a : Text) :
    strip (a ++ b) = strip a := by
  induction b using List.reverseRecOn with
  | nil => simp
  | append_singleton b c ih =>
    have hc : isSpace c = true := hb c (by simp)
    have ih := ih fun d hd => hb d (List.mem_append_left _ hd)
    rw [← ih, strip, strip, rstrip, rstrip, ← List.append_assoc, List.rdropWhile_concat_pos _ _ _ hc]

theorem strip_blank {t : Text} (h : ∀ c ∈ t, isSpace c = true) : strip t = [] := by
  simpa [strip, rstrip, lstrip] using strip_append_space h []

/-- Nor does white space in front of it. -/
theorem strip_cons_space {c : Char} (hc : isSpace c = true) (t : Text) :
    strip (c :: t) = strip t := by
  induction t using List.reverseRecOn with
  | nil => rw [strip_blank (by simpa using hc), strip_blank (by simp)]
  | append_singleton t d ih =>
    cases hd : isSpace d with
    | true =>
      have hblank : ∀ e ∈ [d], isSpace e = true := by simpa using hd
      rw [← List.cons_append, strip_append_space hblank, strip_append_space hblank, ih]
    | false =>
      have hkeep (u : Text) : rstrip (u ++ [d]) = u ++ [d] :=
        List.rdropWhile_concat_neg _ _ _ (by simp [hd])
      rw [← List.cons_append, strip, strip, hkeep, hkeep]
      simp [lstrip, hc]

theorem strip_replicate_space (n : Nat) (t : Text) :
    strip (List.replicate n ' ' ++ t) = strip t := by
  induction n with
  | zero => rfl
  | succ n ih => rw [List.replicate_succ, List.cons_append, strip_cons_space (by decide), ih]

/-- A first line has what stripping the text leaves exactly if only white space
follows it. -/
theorem strip_firstLine_iff (t : Text) : strip (firstLine t) = strip t ↔
    ∀ c ∈ t.dropWhile (fun c => !isLineBoundary c), isSpace c = true := by
  have hsplit : firstLine t ++ t.dropWhile (fun c => !isLineBoundary c) = t :=
    List.takeWhile_append_dropWhile
  constructor
  · intro h
    have hcount := congrArg solid h
    rw [solid_strip, solid_strip] at hcount
    rw [← solid_eq_zero]
    have hsum := congrArg solid hsplit
    rw [solid_append] at hsum
    omega
  · intro h
    conv_rhs => rw [← hsplit]
    exact (strip_append_space h _).symm

end MeleeHarness.Lib
