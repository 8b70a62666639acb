import MeleeHarness.Lib.Text

/-!
# Lines joined by newlines

* `joinNl_injective`: lines without newlines come back from the text they are joined to;
* `take_lineStart`: where the lines of a text start in it.
-/

namespace MeleeHarness.Lib

/-- `"\n".join(lines)` -/
def joinNl (lines : List Text) : Text := ['\n'].intercalate lines

/-- Lines, each with its newline. -/
def unlines (lines : List Text) : Text := lines.flatMap (· ++ ['\n'])

theorem joinNl_concat (lines : List Text) (line : Text) :
    joinNl (lines ++ [line]) = unlines lines ++ line := by
  induction lines with
  | nil => rw [joinNl, List.nil_append, List.intercalate_singleton]; rfl
  | cons first lines ih =>
    rw [joinNl] at ih ⊢
    obtain ⟨next, rest, hrest⟩ := List.exists_cons_of_ne_nil
      (List.append_ne_nil_of_right_ne_nil lines (List.cons_ne_nil line []))
    rw [List.cons_append, hrest, List.intercalate_cons_cons, ← hrest, ih]
    simp [unlines]

theorem count_unlines (c : Char) (lines : List Text) : (unlines lines).count c =
    (lines.map (List.count c)).sum + if c = '\n' then lines.length else 0 := by
  induction lines with
  | nil => simp [unlines]
  | cons line lines ih =>
    rw [unlines, List.flatMap_cons, ← unlines, List.count_append, List.count_append, ih]
    by_cases hc : c = '\n'
    · simp [hc]
      omega
    · simp [hc, Ne.symm hc]

theorem count_joinNl (c : Char) (lines : List Text) : (joinNl lines).count c =
    (lines.map (List.count c)).sum + if c = '\n' then lines.length - 1 else 0 := by
  rcases List.eq_nil_or_concat' lines with rfl | ⟨init, last, rfl⟩
  · simp [joinNl]
  · rw [joinNl_concat, List.count_append, count_unlines]
    by_cases hc : c = '\n'
    · simp [hc]
      omega
    · simp [hc]

theorem joinNl_injective {xs ys : List Text} (hx : ∀ line ∈ xs, '\n' ∉ line)
    (hy : ∀ line ∈ ys, '\n' ∉ line) (hxne : xs ≠ []) (hyne : ys ≠ []) (h : joinNl xs = joinNl ys) :
    xs = ys := by
  rw [← List.splitOn_intercalate '\n' hx hxne, ← List.splitOn_intercalate '\n' hy hyne]
  exact congrArg _ h

theorem joinNl_append {xs ys : List Text} (h : ys ≠ []) : joinNl (xs ++ ys) = unlines xs ++ joinNl ys := by
  obtain ⟨init, last, rfl⟩ := (List.eq_nil_or_concat' ys).resolve_left h
  rw [← List.append_assoc, joinNl_concat, joinNl_concat, unlines, unlines, unlines,
    List.flatMap_append, List.append_assoc]

theorem joinNl_splitOn (t : Text) : joinNl (t.splitOn '\n') = t := List.intercalate_splitOn '\n'

theorem not_mem_of_mem_splitOn {c : Char} {t line : Text} (h : line ∈ t.splitOn c) : c ∉ line := by
  induction t generalizing line with
  | nil =>
    rw [List.splitOn_nil, List.mem_singleton] at h
    rw [h]
    exact List.not_mem_nil
  | cons d t ih =>
    rw [List.splitOn_cons_eq_if_modifyHead] at h
    split at h
    · rcases List.mem_cons.mp h with rfl | h
      · exact List.not_mem_nil
      · exact ih h
    · rename_i hd
      obtain ⟨first, rest, hlines⟩ := List.exists_cons_of_ne_nil (List.splitOn_ne_nil c t)
      rw [hlines] at h ih
      rcases List.mem_cons.mp h with rfl | h
      · rw [List.mem_cons, not_or]
        refine ⟨fun heq => hd (by simp [heq]), ih List.mem_cons_self⟩
      · exact ih (List.mem_cons_of_mem _ h)

/-- Where line `i` of a text starts. -/
def lineStart (t : Text) (i : Nat) : Nat := (unlines ((t.splitOn '\n').take i)).length

/-- In front of line `i` stand the lines before it. -/
theorem take_lineStart (t : Text) {i : Nat} (hi : i < (t.splitOn '\n').length) :
    t.take (lineStart t i) = unlines ((t.splitOn '\n').take i) := by
  have hne : (t.splitOn '\n').drop i ≠ [] :=
    List.ne_nil_of_length_pos (by rw [List.length_drop]; omega)
  have htext : unlines ((t.splitOn '\n').take i) ++ joinNl ((t.splitOn '\n').drop i) = t := by
    rw [← joinNl_append hne, List.take_append_drop, joinNl_splitOn]
  have htake := @List.take_left _ (unlines ((t.splitOn '\n').take i)) (joinNl ((t.splitOn '\n').drop i))
  rwa [htext] at htake

/-- Line `n`, counted from 0, starts at the offset. -/
structure StartsLine (t : Text) (offset n : Nat) : Prop where
  within : offset ≤ t.length
  newlines : (t.take offset).count '\n' = n
  behind : t.take offset = [] ∨ (t.take offset).getLast? = some '\n'

theorem startsLine_lineStart (t : Text) {i : Nat} (hi : i < (t.splitOn '\n').length) :
    StartsLine t (lineStart t i) i := by
  have htake := take_lineStart t hi
  have hlines : (((t.splitOn '\n').take i).map (List.count '\n')).sum = 0 := by
    rw [List.sum_eq_zero_iff_forall_eq_nat]
    intro n hn
    obtain ⟨line, hl, rfl⟩ := List.mem_map.mp hn
    exact List.count_eq_zero.mpr (not_mem_of_mem_splitOn (List.mem_of_mem_take hl))
  refine ⟨?_, ?_, ?_⟩
  · have hlength := congrArg List.length htake
    rw [List.length_take, ← lineStart] at hlength
    omega
  · rw [htake, count_unlines, hlines, if_pos rfl, List.length_take]
    omega
  · rw [htake]
    rcases List.eq_nil_or_concat' ((t.splitOn '\n').take i) with hnil | ⟨init, line, hcons⟩
    · exact .inl (by rw [hnil]; rfl)
    · exact .inr (by rw [hcons]; simp [unlines])

end MeleeHarness.Lib
