import MeleeHarness.Lib.CText
import MeleeHarness.Lib.Hits
import MeleeHarness.Lib.Lines
import MeleeHarness.Lib.Newlines
import MeleeHarness.Lib.Regex

/-!
# Inserting includes

`insert_includes` takes the text apart with `splitlines`, which ends a line at ten characters,
and joins the lines with newlines.

* `unlines_splitlines`: where newlines are the only boundaries, the lines are the text again, but
  for a newline at the end;
* `insertIncludes_intact_iff`: when the text is left as it is around the new lines, and these
  stand below the last include directive.
-/

namespace MeleeHarness.FixIncludes

open Lib

/-- `^\s*#\s*include\b` -/
def incRe : Regex :=
  .seq .lineStart <| .seq (.many isSpace) <| .seq (.one (· = '#')) <| .seq (.many isSpace) <|
    .seq (.word "include") .wordEdge

/-- `inc_re.match(line)` -/
def isInclude (line : Text) : Bool := !(Regex.ends line incRe 0).isEmpty

/-- The index of the last include. -/
def lastIncIdx : List Text → Option Nat
  | [] => none
  | line :: lines =>
    match lastIncIdx lines with
    | some i => some (i + 1)
    | none => if isInclude line then some 0 else none

/-- `if not result.endswith("\n"): result += "\n"` -/
def endWithNewline (result : Text) : Text :=
  if result.getLast? = some '\n' then result else result ++ ['\n']

def insertIncludes (srcText : Text) (newIncludes : List Text) : Text :=
  let lines := splitlines srcText
  endWithNewline <|
    match lastIncIdx lines with
    | none => joinNl (newIncludes ++ [[]] ++ lines)
    | some i => joinNl (lines.take (i + 1) ++ newIncludes ++ lines.drop (i + 1))

/-! ## Lines split and joined -/

/-- Where newlines are the only line boundaries, the lines are the text again, but for a newline
at the end. -/
theorem unlines_splitlines {t : Text} (h : ∀ c ∈ t, isLineBoundary c = true → c = '\n') :
    unlines (splitlines t) = t ∨
      unlines (splitlines t) = t ++ ['\n'] ∧ ∃ line, (splitlines t).getLast? = some line ∧ line ≠ [] := by
  induction t with
  | nil => exact .inl rfl
  | cons c t ih =>
    have ih := ih fun d hd => h d (List.mem_cons_of_mem c hd)
    cases hc : isLineBoundary c with
    | true =>
      obtain rfl := h c List.mem_cons_self hc
      rw [splitlines_newline]
      have hunlines : unlines ([] :: splitlines t) = '\n' :: unlines (splitlines t) := rfl
      rw [hunlines]
      rcases ih with ih | ⟨ih, line, hlast, hne⟩
      · exact .inl (by rw [ih])
      · exact .inr ⟨by rw [ih]; rfl, line, by simp [List.getLast?_cons, hlast], hne⟩
    | false =>
      rw [splitlines_ordinary hc]
      cases hlines : splitlines t with
      | nil =>
        have hnil : t = [] := by
          cases t with
          | nil => rfl
          | cons d t => exact absurd hlines (splitlines_ne_nil d t)
        exact .inr ⟨by simp [extendFirst, unlines, hnil], [c], rfl, by simp⟩
      | cons first rest =>
        rw [hlines] at ih
        have hunlines : unlines (extendFirst c (first :: rest)) = c :: unlines (first :: rest) := rfl
        rw [hunlines]
        rcases ih with ih | ⟨ih, line, hlast, hne⟩
        · exact .inl (by rw [ih])
        · refine .inr ⟨by rw [ih]; rfl, ?_⟩
          cases rest with
          | nil => exact ⟨c :: first, rfl, by simp⟩
          | cons second rest => exact ⟨line, by simpa [extendFirst, List.getLast?_cons] using hlast, hne⟩

/-! ## Where the new lines go -/

/-- The last line that the tool takes for an include is line `m`, counted from one. -/
abbrev LastInclude (lines : List Text) (m : Nat) : Prop := LastHit (Nth (isInclude · = true)) lines m

abbrev NoInclude (lines : List Text) : Prop := NoHit (Nth (isInclude · = true)) lines

/-- The last line of the text that is an include directive of C, or the end of one. -/
abbrev LastDirective (srcText : Text) (k : Nat) : Prop :=
  LastHit (Nth (· = true)) (CText.includeLines srcText) k

abbrev NoDirective (srcText : Text) : Prop := NoHit (Nth (· = true)) (CText.includeLines srcText)

/-- The new lines behind the first `m`. -/
def added (newIncludes lines : List Text) (m : Nat) : List Text :=
  lines.take m ++ newIncludes ++ lines.drop m

/-- The text is lines, and the result is the same lines with the new ones directly below the last
include directive, or with the new ones and an empty line above where there is none. The text may
lack the last newline. -/
def Intact (srcText : Text) (newIncludes : List Text) (result : Text) : Prop :=
  ∃ above below : List Text, (∀ line ∈ above ++ below, '\n' ∉ line) ∧
    (joinNl (above ++ below) = srcText ∨ joinNl (above ++ below) = srcText ++ ['\n']) ∧
    (LastDirective srcText above.length ∧ result = joinNl (above ++ newIncludes ++ below) ∨
      NoDirective srcText ∧ above = [] ∧ result = joinNl (newIncludes ++ [[]] ++ below))

/-- The tool and C find no include, or the new lines stand below the same one; where they do not,
it makes no difference to the lines. -/
def SamePlace (srcText : Text) (newIncludes : List Text) : Prop :=
  NoInclude (splitlines srcText) ∧ NoDirective srcText ∨
    ∃ m k, LastInclude (splitlines srcText) m ∧ LastDirective srcText k ∧
      added newIncludes (splitlines srcText) m = added newIncludes (splitlines srcText) k

theorem lastIncIdx_none {lines : List Text} (h : lastIncIdx lines = none) : NoInclude lines := by
  rw [NoInclude, noHit_nth]
  induction lines with
  | nil => simp
  | cons line lines ih =>
    rw [lastIncIdx] at h
    split at h
    · cases h
    · rename_i hnone
      split at h
      · cases h
      · rename_i hline
        exact List.forall_mem_cons.mpr ⟨hline, ih hnone⟩

theorem lastIncIdx_some {lines : List Text} {i : Nat} (h : lastIncIdx lines = some i) :
    LastInclude lines (i + 1) := by
  rw [LastInclude, lastHit_nth]
  induction lines generalizing i with
  | nil => cases h
  | cons line lines ih =>
    rw [lastIncIdx] at h
    split at h
    · rename_i j hj
      obtain rfl := Option.some.inj h
      obtain ⟨before, x, after, rfl, hn, hx, hafter⟩ := ih hj
      exact ⟨line :: before, x, after, rfl, by rw [List.length_cons, hn], hx, hafter⟩
    · rename_i hnone
      split at h
      · rename_i hline
        obtain rfl := Option.some.inj h
        exact ⟨[], line, lines, rfl, rfl, hline, noHit_nth.mp (lastIncIdx_none hnone)⟩
      · cases h

section
variable {srcText : Text} {newIncludes : List Text}

theorem isInclude_nil : isInclude [] = false := by decide

/-- What is joined: the lines of the text around the new ones. -/
theorem insertIncludes_cases (srcText : Text) (newIncludes : List Text) :
    (∃ m, LastInclude (splitlines srcText) m ∧ insertIncludes srcText newIncludes =
        endWithNewline (joinNl (added newIncludes (splitlines srcText) m))) ∨
      NoInclude (splitlines srcText) ∧ insertIncludes srcText newIncludes =
        endWithNewline (joinNl (newIncludes ++ [[]] ++ splitlines srcText)) := by
  cases hidx : lastIncIdx (splitlines srcText) with
  | none => exact .inr ⟨lastIncIdx_none hidx, by simp only [insertIncludes, hidx]⟩
  | some i => exact .inl ⟨i + 1, lastIncIdx_some hidx, by simp only [insertIncludes, hidx, added]⟩

/-- `result += "\n"` after a last line that is not empty. -/
theorem joinNl_finished {lines : List Text} {last : Text} (hlast : lines.getLast? = some last)
    (hne : last ≠ []) (hplain : '\n' ∉ last) :
    endWithNewline (joinNl lines) = joinNl (lines ++ [[]]) := by
  obtain ⟨init, rfl⟩ := List.getLast?_eq_some_iff.mp hlast
  have hend : (joinNl (init ++ [last])).getLast? ≠ some '\n' := by
    rw [joinNl_concat, List.getLast?_append_of_ne_nil _ hne]
    exact fun h => hplain (List.mem_of_getLast? h)
  rw [endWithNewline, if_neg hend, joinNl_concat, joinNl_concat]
  simp [unlines]

theorem endWithNewline_empty {lines : List Text} (h : lines ≠ []) :
    endWithNewline (joinNl (lines ++ [[]])) = joinNl (lines ++ [[]]) := by
  obtain ⟨init, line, rfl⟩ := (List.eq_nil_or_concat' lines).resolve_left h
  have hend : (joinNl (init ++ [line] ++ [[]])).getLast? = some '\n' := by
    rw [joinNl_concat]
    simp [unlines]
  rw [endWithNewline, if_pos hend]

theorem newline_not_mem_of_mem_splitlines {line : Text} (h : line ∈ splitlines srcText) : '\n' ∉ line :=
  fun hin => absurd (unbroken_of_mem_splitlines h '\n' hin) (by decide)

theorem mem_added {lines : List Text} {m : Nat} {line : Text} :
    line ∈ added newIncludes lines m ↔ line ∈ newIncludes ∨ line ∈ lines := by
  conv_rhs => rw [← List.take_append_drop m lines]
  simp only [added, List.mem_append]
  tauto

theorem length_added (newIncludes lines : List Text) (m : Nat) :
    (added newIncludes lines m).length = newIncludes.length + lines.length := by
  have hlength := congrArg List.length (List.take_append_drop m lines)
  simp only [added, List.length_append] at hlength ⊢
  omega

/-- The last line is one of the text, or one of the new lines behind it. -/
theorem last_added {lines : List Text} {m : Nat} (hne : lines ≠ []) (hlast : lines.getLast? ≠ some [])
    (hnew : ∀ line ∈ newIncludes, line ≠ []) :
    ∃ last, (added newIncludes lines m).getLast? = some last ∧ last ≠ [] := by
  rw [added]
  cases hdrop : (lines.drop m).getLast? with
  | some last =>
    refine ⟨last, by rw [List.getLast?_append, hdrop]; rfl, ?_⟩
    rintro rfl
    rw [← List.take_append_drop m lines, List.getLast?_append, hdrop] at hlast
    exact hlast rfl
  | none =>
    have hnil := List.getLast?_eq_none_iff.mp hdrop
    have htake : lines.take m = lines := by
      conv_rhs => rw [← List.take_append_drop m lines, hnil, List.append_nil]
    rw [htake, hnil, List.append_nil]
    rcases List.eq_nil_or_concat' newIncludes with rfl | ⟨init, line, rfl⟩
    · obtain ⟨last, hfound⟩ := Option.ne_none_iff_exists'.mp (mt List.getLast?_eq_none_iff.mp hne)
      refine ⟨last, by rw [List.append_nil, hfound], ?_⟩
      rintro rfl
      exact hlast hfound
    · exact ⟨line, by rw [← List.append_assoc, List.getLast?_concat], hnew line (by simp)⟩

theorem count_endWithNewline {c : Char} (hc : c ≠ '\n') (t : Text) : (endWithNewline t).count c = t.count c := by
  unfold endWithNewline
  split
  · rfl
  · simp [Ne.symm hc]

/-- A boundary that is no newline does not come back. -/
theorem Intact.plain (h : Intact srcText newIncludes (insertIncludes srcText newIncludes)) :
    ∀ c ∈ srcText, isLineBoundary c = true → c = '\n' := by
  intro c hc hboundary
  by_contra hne
  have hnone : ((splitlines srcText).map (List.count c)).sum = 0 := by
    rw [List.sum_eq_zero_iff_forall_eq_nat]
    intro n hn
    obtain ⟨line, hl, rfl⟩ := List.mem_map.mp hn
    rw [List.count_eq_zero]
    intro hin
    rw [unbroken_of_mem_splitlines hl c hin] at hboundary
    cases hboundary
  have hcount (lines : List Text) : (joinNl lines).count c = (lines.map (List.count c)).sum := by
    rw [count_joinNl, if_neg hne, Nat.add_zero]
  -- of this character the result has what the new lines have
  have hresult : (insertIncludes srcText newIncludes).count c = (newIncludes.map (List.count c)).sum := by
    obtain ⟨m, -, heq⟩ | ⟨-, heq⟩ := insertIncludes_cases srcText newIncludes
    · rw [← List.take_append_drop m (splitlines srcText), List.map_append, List.sum_append] at hnone
      rw [heq, count_endWithNewline hne, hcount, added]
      simp only [List.map_append, List.sum_append]
      omega
    · rw [heq, count_endWithNewline hne, hcount]
      simp [hnone]
  have htext : 0 < srcText.count c := List.count_pos_iff.mpr hc
  obtain ⟨above, below, -, hjoin, hwhere⟩ := h
  have hsum : (above.map (List.count c)).sum + (below.map (List.count c)).sum = srcText.count c := by
    rw [← List.sum_append, ← List.map_append, ← hcount]
    rcases hjoin with hjoin | hjoin
    · rw [hjoin]
    · rw [hjoin]
      simp [Ne.symm hne]
  rcases hwhere with ⟨-, heq⟩ | ⟨-, rfl, heq⟩
  · rw [heq, hcount] at hresult
    simp only [List.map_append, List.sum_append] at hresult
    omega
  · rw [heq, hcount] at hresult
    simp only [List.map_append, List.sum_append, List.map_nil, List.sum_nil] at hresult hsum
    omega

/-! ## The lines of a text whose boundaries are newlines -/

/-- Its lines, and an empty one behind the last newline; or one line less or more, where the
last newline may be missing. -/
theorem lines_of_joinNl (hplain : ∀ c ∈ srcText, isLineBoundary c = true → c = '\n') {lines : List Text}
    (hfree : ∀ line ∈ lines, '\n' ∉ line) (hne : lines ≠ [])
    (h : joinNl lines = srcText ∨ joinNl lines = srcText ++ ['\n']) :
    lines = splitlines srcText ++ [[]] ∨ lines = splitlines srcText ++ [[], []] ∨
      lines = splitlines srcText ∧ (splitlines srcText).getLast? ≠ some [] := by
  have hlines : ∀ line ∈ splitlines srcText, '\n' ∉ line := fun _ => newline_not_mem_of_mem_splitlines
  have hone : ∀ line ∈ splitlines srcText ++ [[]], '\n' ∉ line := by
    rw [List.forall_mem_append]
    exact ⟨hlines, by simp⟩
  have htwo : ∀ line ∈ splitlines srcText ++ [[], []], '\n' ∉ line := by
    rw [List.forall_mem_append]
    exact ⟨hlines, by simp⟩
  have hjoin : joinNl (splitlines srcText ++ [[]]) = unlines (splitlines srcText) := by
    rw [joinNl_concat, List.append_nil]
  rcases unlines_splitlines hplain with hended | ⟨hcut, last, hlast, hlastne⟩
  · rcases h with h | h
    · apply Or.inl
      exact joinNl_injective hfree hone hne (by simp) (by rw [h, hjoin, hended])
    · apply Or.inr ∘ Or.inl
      apply joinNl_injective hfree htwo hne (by simp)
      have hmore : splitlines srcText ++ [[], []] = (splitlines srcText ++ [[]]) ++ [[]] := by simp
      rw [h, hmore, joinNl_concat, List.append_nil, unlines, List.flatMap_append, ← unlines, hended]
      rfl
  · have hlastne' : (splitlines srcText).getLast? ≠ some [] := by
      rw [hlast]
      exact fun h => hlastne (Option.some.inj h)
    rcases h with h | h
    · apply Or.inr ∘ Or.inr
      refine ⟨?_, hlastne'⟩
      obtain ⟨init, hinit⟩ := List.getLast?_eq_some_iff.mp hlast
      apply joinNl_injective hfree hlines hne (by rw [hinit]; simp)
      have hends : unlines (init ++ [last]) = joinNl (init ++ [last]) ++ ['\n'] := by
        rw [joinNl_concat]
        simp [unlines]
      rw [hinit, hends] at hcut
      rw [h, hinit, List.append_cancel_right hcut]
    · apply Or.inl
      exact joinNl_injective hfree hone hne (by simp) (by rw [h, hjoin, hcut])

/-- Each line is an include directive of C or none. -/
theorem length_includeLines_le (hplain : ∀ c ∈ srcText, isLineBoundary c = true → c = '\n') :
    (CText.includeLines srcText).length ≤ (splitlines srcText).length := by
  have hzero : ((splitlines srcText).map (List.count '\n')).sum = 0 := by
    rw [List.sum_eq_zero_iff_forall_eq_nat]
    intro n hn
    obtain ⟨line, hl, rfl⟩ := List.mem_map.mp hn
    exact List.count_eq_zero.mpr (newline_not_mem_of_mem_splitlines hl)
  have hlines := count_unlines '\n' (splitlines srcText)
  rw [hzero, if_pos rfl, Nat.zero_add] at hlines
  rw [CText.length_includeLines]
  rcases unlines_splitlines hplain with hended | ⟨hcut, -⟩
  · have hlast : srcText.getLast?.any (· ≠ '\n') = false := by
      rw [← hended]
      rcases List.eq_nil_or_concat' (splitlines srcText) with hnil | ⟨init, line, hinit⟩
      · rw [hnil]
        rfl
      · rw [hinit]
        simp [unlines]
    rw [hlast, ← hlines, hended]
    simp
  · rw [hcut, List.count_append] at hlines
    have hone : ['\n'].count '\n' = 1 := rfl
    split <;> omega

theorem LastDirective.bounds (hplain : ∀ c ∈ srcText, isLineBoundary c = true → c = '\n') {k : Nat}
    (h : LastDirective srcText k) : 0 < k ∧ k ≤ (splitlines srcText).length := by
  obtain ⟨before, x, after, hsplit, rfl, -⟩ := lastHit_nth.mp h
  have hlength := length_includeLines_le hplain
  rw [hsplit] at hlength
  simp only [List.length_append, List.length_cons] at hlength
  omega

theorem LastInclude.ne_nil {lines : List Text} {m : Nat} (h : LastInclude lines m) : lines ≠ [] := by
  obtain ⟨before, x, after, rfl, -⟩ := lastHit_nth.mp h
  simp

/-! ## Where the text is intact -/

/-- A list that begins and ends with the same additional element. -/
theorem eq_of_cons_eq_concat {α : Type} {a : α} {l : List α} (h : a :: l = l ++ [a]) : ∀ x ∈ l, x = a := by
  induction l with
  | nil => simp
  | cons b l ih =>
    obtain ⟨rfl, htail⟩ := List.cons.inj h
    exact List.forall_mem_cons.mpr ⟨rfl, ih htail⟩

theorem not_directive_of_empty (hplain : ∀ c ∈ srcText, isLineBoundary c = true → c = '\n')
    (hempty : ∀ line ∈ splitlines srcText, line = []) : NoDirective srcText := by
  have hnewlines : ∀ c ∈ srcText, c = '\n' := by
    intro c hc
    have hmem : c ∈ unlines (splitlines srcText) := by
      rcases unlines_splitlines hplain with h | ⟨h, -⟩
      · rwa [h]
      · rw [h]
        exact List.mem_append_left _ hc
    obtain ⟨line, hline, hc⟩ := List.mem_flatMap.mp hmem
    rw [hempty line hline] at hc
    simpa using hc
  rw [NoDirective, noHit_nth]
  intro flag hflag
  rw [CText.includeLines_newlines hnewlines flag hflag]
  decide

section
variable (hnew : ∀ line ∈ newIncludes, isInclude line = true ∧ '\n' ∉ line)
include hnew

theorem new_ne_nil : ∀ line ∈ newIncludes, line ≠ [] := by
  rintro line hl rfl
  exact absurd (hnew [] hl).1 (by decide)

/-- Below an include the result is lines that end with a newline. -/
theorem insertIncludes_found (hlast : (splitlines srcText).getLast? ≠ some []) {m : Nat}
    (hm : LastInclude (splitlines srcText) m)
    (heq : insertIncludes srcText newIncludes =
      endWithNewline (joinNl (added newIncludes (splitlines srcText) m))) :
    insertIncludes srcText newIncludes = joinNl (added newIncludes (splitlines srcText) m ++ [[]]) := by
  obtain ⟨last, hfound, hne⟩ := last_added (m := m) hm.ne_nil hlast (new_ne_nil hnew)
  rw [heq, joinNl_finished hfound hne]
  rcases mem_added.mp (List.mem_of_getLast? hfound) with hmem | hmem
  · exact (hnew last hmem).2
  · exact newline_not_mem_of_mem_splitlines hmem

omit hnew in
theorem insertIncludes_onTop (hlast : (splitlines srcText).getLast? ≠ some [])
    (hne : splitlines srcText ≠ [])
    (heq : insertIncludes srcText newIncludes =
      endWithNewline (joinNl (newIncludes ++ [[]] ++ splitlines srcText))) :
    insertIncludes srcText newIncludes = joinNl (newIncludes ++ [[]] ++ splitlines srcText ++ [[]]) := by
  obtain ⟨last, hfound⟩ := Option.ne_none_iff_exists'.mp (mt List.getLast?_eq_none_iff.mp hne)
  have hend : (newIncludes ++ [[]] ++ splitlines srcText).getLast? = some last := by
    rw [List.getLast?_append, hfound]
    rfl
  rw [heq, joinNl_finished hend]
  · rintro rfl
    exact hlast hfound
  · exact newline_not_mem_of_mem_splitlines (List.mem_of_getLast? hfound)

/-- The result is the lines of the text around the new ones, which stand at the same place. -/
theorem insertIncludes_intact (hplain : ∀ c ∈ srcText, isLineBoundary c = true → c = '\n')
    (hlast : (splitlines srcText).getLast? ≠ some []) (hplace : SamePlace srcText newIncludes) :
    Intact srcText newIncludes (insertIncludes srcText newIncludes) := by
  have htext : joinNl (splitlines srcText ++ [[]]) = srcText ∨
      joinNl (splitlines srcText ++ [[]]) = srcText ++ ['\n'] := by
    rw [joinNl_concat, List.append_nil]
    exact (unlines_splitlines hplain).imp_right And.left
  have hlines : ∀ line ∈ splitlines srcText ++ [[]], '\n' ∉ line := by
    rw [List.forall_mem_append]
    exact ⟨fun line => newline_not_mem_of_mem_splitlines, by simp⟩
  rcases hplace with ⟨hnone, hdirective⟩ | ⟨m, k, hm, hk, hsame⟩
  · have heq : insertIncludes srcText newIncludes =
        endWithNewline (joinNl (newIncludes ++ [[]] ++ splitlines srcText)) := by
      rcases insertIncludes_cases srcText newIncludes with ⟨m, hm, -⟩ | ⟨-, heq⟩
      · exact absurd hm hnone.not_lastHit
      · exact heq
    by_cases hne : splitlines srcText = []
    · rw [hne] at heq htext
      rcases List.eq_nil_or_concat' newIncludes with rfl | ⟨init, line, rfl⟩
      · exact ⟨[], [[]], by simp, htext, .inr ⟨hdirective, rfl, heq⟩⟩
      · rw [List.append_nil, endWithNewline_empty (by simp)] at heq
        exact ⟨[], [], by simp, htext, .inr ⟨hdirective, rfl, by rw [heq, List.append_nil]⟩⟩
    · rw [insertIncludes_onTop hlast hne heq, List.append_assoc]
      exact ⟨[], splitlines srcText ++ [[]], hlines, htext, .inr ⟨hdirective, rfl, rfl⟩⟩
  · have heq : insertIncludes srcText newIncludes =
        joinNl (added newIncludes (splitlines srcText) m ++ [[]]) := by
      rcases insertIncludes_cases srcText newIncludes with ⟨m', hm', heq⟩ | ⟨hnone, -⟩
      · rw [insertIncludes_found hnew hlast hm' heq, lastHit_nth_unique hm hm']
      · exact absurd hm hnone.not_lastHit
    have hbound := (LastDirective.bounds hplain hk).2
    refine ⟨(splitlines srcText).take k, (splitlines srcText).drop k ++ [[]], ?_, ?_, .inl ⟨?_, ?_⟩⟩
    · rwa [← List.append_assoc, List.take_append_drop]
    · rwa [← List.append_assoc, List.take_append_drop]
    · rwa [List.length_take, min_eq_left hbound]
    · rw [heq, hsame, added, List.append_assoc]

omit hnew in
/-- The lines that the result is made of are the text's own, with an empty one or two behind the
last newline, unless the last newline is missing. -/
theorem Intact.text_lines (hplain : ∀ c ∈ srcText, isLineBoundary c = true → c = '\n')
    (hne : splitlines srcText ≠ []) {lines : List Text} (hfree : ∀ line ∈ lines, '\n' ∉ line)
    (hjoin : joinNl lines = srcText ∨ joinNl lines = srcText ++ ['\n']) :
    lines = splitlines srcText ++ [[]] ∨ lines = splitlines srcText ++ [[], []] ∨
      lines = splitlines srcText ∧ (splitlines srcText).getLast? ≠ some [] := by
  apply lines_of_joinNl hplain hfree _ hjoin
  rintro rfl
  rcases hjoin with hjoin | hjoin
  · rw [← hjoin] at hne
    exact hne rfl
  · exact absurd hjoin (by simp [joinNl])

omit hnew in
/-- The lines around the new ones, where the last include is known. -/
theorem added_split (before : List Text) (x : Text) (after : List Text) :
    added newIncludes (before ++ x :: after) (before.length + 1) = before ++ [x] ++ newIncludes ++ after := by
  have hsplit : before ++ x :: after = (before ++ [x]) ++ after := by simp
  have hlength : before.length + 1 = (before ++ [x]).length := by simp
  rw [added, hsplit, hlength, List.take_left, List.drop_left]

omit hnew in
/-- An empty last line is below the last include, and nothing is put behind it. -/
theorem insertIncludes_found_empty (hlast : (splitlines srcText).getLast? = some []) {m : Nat}
    (hm : LastInclude (splitlines srcText) m)
    (heq : insertIncludes srcText newIncludes =
      endWithNewline (joinNl (added newIncludes (splitlines srcText) m))) :
    insertIncludes srcText newIncludes = joinNl (added newIncludes (splitlines srcText) m) := by
  obtain ⟨before, x, after, hsplit, rfl, hx, -⟩ := lastHit_nth.mp hm
  rw [hsplit] at hlast
  have hafter : after.getLast? = some [] := by
    rcases List.eq_nil_or_concat' after with rfl | ⟨init, last, rfl⟩
    · rw [List.getLast?_concat, Option.some.injEq] at hlast
      rw [hlast, isInclude_nil] at hx
      cases hx
    · rw [← List.cons_append, ← List.append_assoc, List.getLast?_concat] at hlast
      rw [List.getLast?_concat, hlast]
  obtain ⟨init, rfl⟩ := List.getLast?_eq_some_iff.mp hafter
  rw [heq, hsplit, added_split, ← List.append_assoc]
  exact endWithNewline_empty (by simp)

omit hnew in
theorem insertIncludes_onTop_empty (hlast : (splitlines srcText).getLast? = some [])
    (heq : insertIncludes srcText newIncludes =
      endWithNewline (joinNl (newIncludes ++ [[]] ++ splitlines srcText))) :
    insertIncludes srcText newIncludes = joinNl (newIncludes ++ [[]] ++ splitlines srcText) := by
  obtain ⟨init, hinit⟩ := List.getLast?_eq_some_iff.mp hlast
  rw [heq, hinit, ← List.append_assoc]
  exact endWithNewline_empty (by simp)

theorem added_free (m : Nat) : ∀ line ∈ added newIncludes (splitlines srcText) m, '\n' ∉ line :=
  fun line hl => (mem_added.mp hl).elim (fun h => (hnew line h).2) newline_not_mem_of_mem_splitlines

theorem onTop_free {lines : List Text} (h : ∀ line ∈ lines, '\n' ∉ line) :
    ∀ line ∈ newIncludes ++ [[]] ++ lines, '\n' ∉ line := by
  simp only [List.forall_mem_append]
  exact ⟨⟨fun line hl => (hnew line hl).2, by simp⟩, h⟩

theorem around_free {above below : List Text} (h : ∀ line ∈ above ++ below, '\n' ∉ line) :
    ∀ line ∈ above ++ newIncludes ++ below, '\n' ∉ line := by
  rw [List.forall_mem_append] at h
  simp only [List.forall_mem_append]
  exact ⟨⟨h.1, fun line hl => (hnew line hl).2⟩, h.2⟩

/-- On top, with an empty line and one for each newline, the text cannot have an include that is
above all of them. -/
theorem not_onTop_of_empty (hplain : ∀ c ∈ srcText, isLineBoundary c = true → c = '\n')
    (hnone : NoInclude (splitlines srcText)) {above below : List Text}
    (hdirective : LastDirective srcText above.length)
    (htext : above ++ below = splitlines srcText ++ [[]])
    (hsame : newIncludes ++ [[]] ++ splitlines srcText = above ++ newIncludes ++ below) : False := by
  obtain ⟨hpos, hle⟩ := hdirective.bounds hplain
  obtain ⟨first, above, rfl⟩ := List.exists_cons_of_ne_nil (List.ne_nil_of_length_pos hpos)
  cases newIncludes with
  | nil =>
    rw [List.append_nil, htext] at hsame
    exact (not_directive_of_empty hplain (eq_of_cons_eq_concat hsame)).not_lastHit hdirective
  | cons new rest =>
    obtain ⟨rfl, -⟩ := List.cons.inj hsame
    have hmem : new ∈ splitlines srcText := by
      obtain ⟨line, lines, hlines⟩ := List.exists_cons_of_ne_nil
        (List.ne_nil_of_length_pos (Nat.lt_of_lt_of_le hpos hle))
      rw [hlines] at htext ⊢
      rw [(List.cons.inj htext).1]
      exact List.mem_cons_self
    exact noHit_nth.mp hnone new hmem (hnew new List.mem_cons_self).1

/-- An empty last line is lost. -/
theorem Intact.ended (h : Intact srcText newIncludes (insertIncludes srcText newIncludes)) :
    (splitlines srcText).getLast? ≠ some [] := by
  intro hlast
  have hplain := h.plain
  have hne : splitlines srcText ≠ [] := by
    intro hnil
    rw [hnil] at hlast
    cases hlast
  obtain ⟨above, below, hfree, hjoin, hwhere⟩ := h
  have htext : above ++ below = splitlines srcText ++ [[]] ∨ above ++ below = splitlines srcText ++ [[], []] := by
    rcases Intact.text_lines hplain hne hfree hjoin with h | h | ⟨-, h⟩
    · exact .inl h
    · exact .inr h
    · exact absurd hlast h
  have hmore : (splitlines srcText).length < above.length + below.length := by
    rw [← List.length_append]
    rcases htext with h | h <;> rw [h] <;> simp
  have hxne : ∀ m, added newIncludes (splitlines srcText) m ≠ [] := by
    intro m
    apply List.ne_nil_of_length_pos
    rw [length_added]
    exact Nat.add_pos_right _ (List.length_pos_of_ne_nil hne)
  have hyne : above ++ newIncludes ++ below ≠ [] := by
    intro hnil
    simp only [List.append_eq_nil_iff] at hnil
    rw [hnil.1.1, hnil.2] at hmore
    exact Nat.not_lt_zero _ hmore
  rcases insertIncludes_cases srcText newIncludes with ⟨m, hm, heq⟩ | ⟨hnone, heq⟩
  · have hends := insertIncludes_found_empty hlast hm heq
    have hlength := length_added newIncludes (splitlines srcText) m
    rcases hwhere with ⟨-, hresult⟩ | ⟨-, rfl, hresult⟩
    · rw [joinNl_injective (added_free hnew m) (around_free hnew hfree) (hxne m) hyne
        (hends.symm.trans hresult)] at hlength
      simp only [List.length_append] at hlength
      omega
    · rw [joinNl_injective (added_free hnew m) (onTop_free hnew hfree) (hxne m) (by simp)
        (hends.symm.trans hresult)] at hlength
      simp only [List.length_append, List.length_singleton, List.length_nil] at hlength hmore
      omega
  · have hends := insertIncludes_onTop_empty hlast heq
    have hxs := onTop_free hnew fun line (h : line ∈ splitlines srcText) => newline_not_mem_of_mem_splitlines h
    rcases hwhere with ⟨hdirective, hresult⟩ | ⟨-, rfl, hresult⟩
    · have hsame := joinNl_injective hxs (around_free hnew hfree) (by simp) hyne (hends.symm.trans hresult)
      rcases htext with htext | htext
      · exact not_onTop_of_empty hnew hplain hnone hdirective htext hsame
      · have hlength := congrArg List.length hsame
        have htwo := congrArg List.length htext
        simp only [List.length_append, List.length_cons, List.length_nil] at hlength htwo
        omega
    · have hsame := joinNl_injective hxs (onTop_free hnew hfree) (by simp) (by simp)
        (hends.symm.trans hresult)
      have hlength := congrArg List.length hsame
      simp only [List.length_append, List.length_singleton, List.length_nil] at hlength hmore
      omega

omit hnew in
/-- The lines up to the last directive, and those behind it with what is behind the text. -/
theorem split_at_directive (hplain : ∀ c ∈ srcText, isLineBoundary c = true → c = '\n')
    {above below behind : List Text} (hdirective : LastDirective srcText above.length)
    (htext : above ++ below = splitlines srcText ++ behind) :
    above = (splitlines srcText).take above.length ∧
      below = (splitlines srcText).drop above.length ++ behind := by
  have hle := (hdirective.bounds hplain).2
  have htake := congrArg (List.take above.length) htext
  have hdrop := congrArg (List.drop above.length) htext
  rw [List.take_left, List.take_append_of_le_length hle] at htake
  rw [List.drop_left, List.drop_append_of_le_length hle] at hdrop
  exact ⟨htake, hdrop⟩

omit hnew in
theorem getLast?_lines (hne : splitlines srcText ≠ []) (front : List Text) :
    (front ++ splitlines srcText).getLast? = (splitlines srcText).getLast? := by
  rw [List.getLast?_append]
  obtain ⟨last, hlast⟩ := Option.ne_none_iff_exists'.mp (mt List.getLast?_eq_none_iff.mp hne)
  rw [hlast, Option.some_or]

omit hnew in
theorem around_ne_nil {above below : List Text} (hpos : 0 < above.length) :
    above ++ newIncludes ++ below ≠ [] := by
  intro hnil
  simp only [List.append_eq_nil_iff] at hnil
  rw [hnil.1.1] at hpos
  exact Nat.lt_irrefl _ hpos

omit hnew in
/-- Behind an include that is found, the lines are the same in both places. -/
theorem samePlace_found (hplain : ∀ c ∈ srcText, isLineBoundary c = true → c = '\n') {m : Nat}
    (hm : LastInclude (splitlines srcText) m) {above below : List Text}
    (hdirective : LastDirective srcText above.length)
    (htext : above ++ below = splitlines srcText ++ [[]] ∨ above ++ below = splitlines srcText ++ [[], []] ∨
      above ++ below = splitlines srcText ∧ (splitlines srcText).getLast? ≠ some [])
    (hsame : added newIncludes (splitlines srcText) m ++ [[]] = above ++ newIncludes ++ below) :
    SamePlace srcText newIncludes := by
  have hlength := congrArg List.length hsame
  simp only [List.length_append, length_added, List.length_singleton] at hlength
  have hone : above ++ below = splitlines srcText ++ [[]] := by
    rcases htext with h | h | ⟨h, -⟩
    · exact h
    · have htwo := congrArg List.length h
      simp only [List.length_append, List.length_cons, List.length_nil] at htwo
      omega
    · have htwo := congrArg List.length h
      simp only [List.length_append] at htwo
      omega
  obtain ⟨habove, hbelow⟩ := split_at_directive hplain hdirective hone
  refine .inr ⟨m, above.length, hm, hdirective, ?_⟩
  rw [hbelow, ← List.append_assoc] at hsame
  rw [List.append_cancel_right hsame, added, ← habove]

omit hnew in
/-- New lines on top are one line more than the same lines around a directive. -/
theorem not_onTop_of_directive (hplain : ∀ c ∈ srcText, isLineBoundary c = true → c = '\n')
    (hne : splitlines srcText ≠ []) (hlast : (splitlines srcText).getLast? ≠ some [])
    {above below : List Text} (hdirective : LastDirective srcText above.length)
    (htext : above ++ below = splitlines srcText ++ [[]] ∨ above ++ below = splitlines srcText ++ [[], []] ∨
      above ++ below = splitlines srcText ∧ (splitlines srcText).getLast? ≠ some [])
    (hsame : newIncludes ++ [[]] ++ splitlines srcText ++ [[]] = above ++ newIncludes ++ below) : False := by
  have hlength := congrArg List.length hsame
  simp only [List.length_append, List.length_singleton] at hlength
  rcases htext with h | h | ⟨h, -⟩
  · have htwo := congrArg List.length h
    simp only [List.length_append, List.length_singleton] at htwo
    omega
  · -- two empty lines would stand behind the text
    obtain ⟨-, hbelow⟩ := split_at_directive hplain hdirective h
    have htwo : [([] : Text), []] = [[]] ++ [[]] := rfl
    rw [hbelow, htwo, ← List.append_assoc, ← List.append_assoc] at hsame
    have hfinal := congrArg List.getLast? (List.append_cancel_right hsame)
    rw [getLast?_lines hne, List.getLast?_concat] at hfinal
    exact hlast hfinal
  · have htwo := congrArg List.length h
    simp only [List.length_append] at htwo
    omega

/-- The new lines stand where C has its last include, or could stand there as well. -/
theorem Intact.samePlace (h : Intact srcText newIncludes (insertIncludes srcText newIncludes)) :
    SamePlace srcText newIncludes := by
  have hplain := h.plain
  have hlast := h.ended hnew
  obtain ⟨above, below, hfree, hjoin, hwhere⟩ := h
  rcases insertIncludes_cases srcText newIncludes with ⟨m, hm, heq⟩ | ⟨hnone, heq⟩
  · have hends := insertIncludes_found hnew hlast hm heq
    have htext := Intact.text_lines hplain hm.ne_nil hfree hjoin
    have hxs : ∀ line ∈ added newIncludes (splitlines srcText) m ++ [[]], '\n' ∉ line := by
      rw [List.forall_mem_append]
      exact ⟨added_free hnew m, by simp⟩
    rcases hwhere with ⟨hdirective, hresult⟩ | ⟨-, rfl, hresult⟩
    · apply samePlace_found hplain hm hdirective htext
      apply joinNl_injective hxs (around_free hnew hfree) (by simp)
      · exact around_ne_nil (hdirective.bounds hplain).1
      · exact hends.symm.trans hresult
    · have hsame := joinNl_injective hxs (onTop_free hnew hfree) (by simp) (by simp)
        (hends.symm.trans hresult)
      have hlength := congrArg List.length hsame
      simp only [List.length_append, length_added, List.length_singleton, List.nil_append] at hlength htext
      rcases htext with rfl | rfl | ⟨rfl, -⟩
      · simp only [List.length_append, List.length_cons, List.length_nil] at hlength
        omega
      · simp only [List.length_append, List.length_cons, List.length_nil] at hlength
        omega
      · -- without a newline at its end the text does not end with an empty line
        have hfinal := congrArg List.getLast? hsame
        rw [List.getLast?_concat, List.nil_append, getLast?_lines hm.ne_nil] at hfinal
        exact absurd hfinal.symm hlast
  · rcases hwhere with ⟨hdirective, hresult⟩ | ⟨hdirective, -, -⟩
    · obtain ⟨hpos, hle⟩ := hdirective.bounds hplain
      have hne : splitlines srcText ≠ [] := List.ne_nil_of_length_pos (Nat.lt_of_lt_of_le hpos hle)
      have hends := insertIncludes_onTop hlast hne heq
      have htext := Intact.text_lines hplain hne hfree hjoin
      have hxs : ∀ line ∈ newIncludes ++ [[]] ++ splitlines srcText ++ [[]], '\n' ∉ line := by
        rw [List.forall_mem_append]
        exact ⟨onTop_free hnew fun line h => newline_not_mem_of_mem_splitlines h, by simp⟩
      exfalso
      apply not_onTop_of_directive hplain hne hlast hdirective htext
      apply joinNl_injective hxs (around_free hnew hfree) (by simp) (around_ne_nil hpos)
      exact hends.symm.trans hresult
    · exact .inl ⟨hnone, hdirective⟩

end

/-- The text stays as it is around the new lines, and these stand below its last include
directive, just when newlines are its only line boundaries, it does not end with an empty line,
and the tool finds the directive. -/
theorem insertIncludes_intact_iff (hnew : ∀ line ∈ newIncludes, isInclude line = true ∧ '\n' ∉ line) :
    Intact srcText newIncludes (insertIncludes srcText newIncludes) ↔
      (∀ c ∈ srcText, isLineBoundary c = true → c = '\n') ∧
        (splitlines srcText).getLast? ≠ some [] ∧ SamePlace srcText newIncludes :=
  ⟨fun h => ⟨h.plain, h.ended hnew, h.samePlace hnew⟩,
    fun h => insertIncludes_intact hnew h.1 h.2.1 h.2.2⟩

/-- A comment with an include and an include with a comment, in a text without a last newline. -/
def commentText : Text := "/*\n include <old.h>\n*/\n#include <a.h> // */ /*\nint x;".toList

theorem include_intact : Intact commentText ["#include <b.h>".toList]
    (insertIncludes commentText ["#include <b.h>".toList]) := by
  refine (insertIncludes_intact_iff ?_).mpr ⟨?_, ?_, .inr ⟨4, 4, ?_, ?_, rfl⟩⟩
  · decide +kernel
  · decide +kernel
  · decide +kernel
  · exact lastHit_nth.mpr ⟨(splitlines commentText).take 3, "#include <a.h> // */ /*".toList,
      ["int x;".toList], by decide +kernel, by decide +kernel, by decide +kernel, by decide +kernel⟩
  · exact lastHit_nth.mpr ⟨[false, false, false], true, [false], by decide +kernel, rfl, rfl, by decide⟩

/-- The last line of this text is empty, and lost. -/
theorem emptyLine_lost : ¬Intact "int x;\n\n".toList ["#include <b.h>".toList]
    (insertIncludes "int x;\n\n".toList ["#include <b.h>".toList]) :=
  fun h => h.ended (by decide +kernel) (by decide +kernel)

end

end MeleeHarness.FixIncludes
