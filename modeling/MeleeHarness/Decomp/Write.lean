import MeleeHarness.Lib.Regex
import MeleeHarness.Lib.Template

/-!
# Writing a decompiled function into its source

`--write` puts the output of the decompiler in the place of the line `/// #name`. The file is read
with universal newlines, and the output goes through `re.subn` as a template.

* `search_placeholder`: where the pattern matches;
* `write_inserted_iff`: when the output goes into the file as it is, and nothing else changes.
-/

namespace MeleeHarness.Decomp

open Lib

/-- What `read_text` makes of a file's text. -/
def readText : Text → Text
  | [] => []
  | '\r' :: '\n' :: rest => '\n' :: readText rest
  | c :: rest => (if c = '\r' then '\n' else c) :: readText rest

/-- The line of a placeholder. -/
def placeholderLine (name : Text) : Text := "/// #".toList ++ name

/-- `^/// #{name}$(?:\r?\n)?`, in which the name is escaped -/
def placeholder (name : Text) : Regex :=
  .seq .lineStart <| .seq (.word (String.ofList (placeholderLine name))) <| .seq .lineEnd <|
    .opt (.seq (.opt (.one (· = '\r'))) (.one (· = '\n')))

/-- `re.subn(placeholder, output, text, count=1)`: the result, if there is a match. The template is
parsed in any case. -/
def subn (pattern : Regex) (output text : Text) : Option (Option Text) := do
  let template ← parseTemplate output
  return (pattern.search text).map fun (start, stop) =>
    text.take start ++ expandTemplate ((text.take stop).drop start) template ++ text.drop stop

/-- The text `--write` leaves in a file, unless an exception is raised. -/
def write (srcText name output : Text) : Option Text := do
  let text := readText srcText
  match ← subn (placeholder name) output text with
  | some result => return result
  | none => return text ++ '\n' :: output

/-! ## What is to be written -/

/-- A line break in front of `after`. -/
inductive LineBreak : Text → Text → Prop where
  | none : LineBreak [] []
  | lf (after : Text) : LineBreak ['\n'] after
  | crlf (after : Text) : LineBreak ['\r', '\n'] after
  | cr (after : Text) (h : after.head? ≠ some '\n') : LineBreak ['\r'] after

/-- The text between `before` and `rest` stands on a line of its own. -/
structure Alone (before rest : Text) : Prop where
  starts : before = [] ∨ before.getLast? = some '\n' ∨ before.getLast? = some '\r'
  ends : rest = [] ∨ rest.head? = some '\n' ∨ rest.head? = some '\r'

/-- The first line of a text that is `line`, with its line break. -/
structure FirstLine (line text before brk after : Text) : Prop where
  text_eq : text = before ++ line ++ brk ++ after
  alone : Alone before (brk ++ after)
  lineBreak : LineBreak brk after
  first : ∀ before' rest, text = before' ++ line ++ rest → Alone before' rest →
    before.length ≤ before'.length

/-- The output is in the place of the first placeholder, or at the end where there is none. -/
def Inserted (srcText name output result : Text) : Prop :=
  (∃ before brk after, FirstLine (placeholderLine name) srcText before brk after ∧
      result = before ++ output ++ after) ∨
    (∀ before brk after, ¬ FirstLine (placeholderLine name) srcText before brk after) ∧
      result = srcText ++ '\n' :: output

/-! ## The pattern -/

/-- The pattern matches at `i`. -/
structure Matches (line t : Text) (i : Nat) : Prop where
  starts : i = 0 ∨ t[i - 1]? = some '\n'
  here : line <+: t.drop i
  ends : i + line.length = t.length ∨ t[i + line.length]? = some '\n'

theorem ends_placeholder {name t : Text} {i : Nat} (hi : i ≤ t.length) :
    (Matches (placeholderLine name) t i ∧ (Regex.ends t (placeholder name) i).head? =
        some (i + (placeholderLine name).length +
          if t[i + (placeholderLine name).length]? = some '\n' then 1 else 0)) ∨
      ¬ Matches (placeholderLine name) t i ∧ Regex.ends t (placeholder name) i = [] := by
  generalize hline : placeholderLine name = line
  have hword : Regex.ends t (.word (String.ofList line)) i = if line <+: t.drop i then [i + line.length] else [] := by
    rw [Regex.ends_word t _ i hi, String.toList_ofList]
  by_cases hstart : i = 0 ∨ t[i - 1]? = some '\n'
  · by_cases hhere : line <+: t.drop i
    · by_cases hend : i + line.length = t.length ∨ t[i + line.length]? = some '\n'
      · refine .inl ⟨⟨hstart, hhere, hend⟩, ?_⟩
        by_cases hnl : t[i + line.length]? = some '\n'
        · simp [placeholder, Regex.ends, hline, hword, hstart, hhere, hnl]
        · have hsize := hend.resolve_right hnl
          simp [placeholder, Regex.ends, hline, hword, hstart, hhere, hsize]
      · refine .inr ⟨fun h => hend h.ends, ?_⟩
        simp [placeholder, Regex.ends, hline, hword, hstart, hhere, hend]
    · refine .inr ⟨fun h => hhere h.here, ?_⟩
      simp [placeholder, Regex.ends, hline, hword, hstart, hhere]
  · refine .inr ⟨fun h => hstart h.starts, ?_⟩
    simp [placeholder, Regex.ends, hstart]

theorem getElem?_behind (before line tail : Text) :
    (before ++ (line ++ tail))[before.length + line.length]? = tail.head? := by
  rw [← List.append_assoc, ← List.length_append, List.getElem?_append_right le_rfl, Nat.sub_self,
    ← List.head?_eq_getElem?]

/-- A match as a way to cut the text. -/
theorem matches_iff {line t : Text} {i : Nat} (hi : i ≤ t.length) : Matches line t i ↔
    ∃ before tail, t = before ++ (line ++ tail) ∧ before.length = i ∧
      (before = [] ∨ before.getLast? = some '\n') ∧ (tail = [] ∨ tail.head? = some '\n') := by
  constructor
  · rintro ⟨hstart, ⟨tail, htail⟩, hend⟩
    have hlength : (t.take i).length = i := by rw [List.length_take, Nat.min_eq_left hi]
    have htext : t = t.take i ++ (line ++ tail) := by rw [htail, List.take_append_drop]
    refine ⟨t.take i, tail, htext, hlength, ?_, ?_⟩
    · rcases Nat.eq_zero_or_pos i with rfl | hpos
      · exact .inl rfl
      · right
        rw [List.getLast?_eq_getElem?, hlength, List.getElem?_take_of_lt (by omega)]
        exact hstart.resolve_left hpos.ne'
    · rcases hend with hend | hend
      · left
        have hsize := congrArg List.length htext
        rw [List.length_append, List.length_append, hlength] at hsize
        exact List.eq_nil_of_length_eq_zero (by omega)
      · right
        have hbehind := getElem?_behind (t.take i) line tail
        rwa [← htext, hlength, hend, eq_comm] at hbehind
  · rintro ⟨before, tail, rfl, rfl, hstart, hend⟩
    refine ⟨?_, ⟨tail, by simp⟩, ?_⟩
    · rcases hstart with rfl | hstart
      · exact .inl rfl
      · right
        rw [List.getLast?_eq_getElem?] at hstart
        rw [List.getElem?_append_left, hstart]
        exact (List.getElem?_eq_some_iff.mp hstart).1
    · rw [getElem?_behind]
      rcases hend with rfl | hend
      · exact .inl (by simp)
      · exact .inr hend

/-- A text around its first match: the line, with the newline behind it. -/
structure Found (line text before matched after : Text) : Prop where
  text_eq : text = before ++ matched ++ after
  matched_eq : matched = line ∧ after = [] ∨ matched = line ++ ['\n']
  starts : before = [] ∨ before.getLast? = some '\n'
  first : ∀ k < before.length, ¬ Matches line text k

theorem search_some {name text : Text} {start stop : Nat}
    (h : (placeholder name).search text = some (start, stop)) :
    ∃ before matched after, start = before.length ∧ stop = before.length + matched.length ∧
      Found (placeholderLine name) text before matched after := by
  obtain ⟨hle, hstop, hfirst⟩ := Regex.search_eq_some.mp h
  have hmin : ∀ k < start, ¬ Matches (placeholderLine name) text k := by
    intro k hk hmatch
    rcases @ends_placeholder name _ _ (hk.le.trans hle) with ⟨-, hends⟩ | ⟨hno, -⟩
    · rw [hfirst k hk] at hends
      cases hends
    · exact hno hmatch
  rcases @ends_placeholder name _ _ hle with ⟨hmatch, hends⟩ | ⟨-, hends⟩
  · rw [hstop] at hends
    obtain ⟨before, tail, rfl, rfl, hstart, hend⟩ := (matches_iff hle).mp hmatch
    rw [getElem?_behind, Option.some.injEq] at hends
    rcases hend with rfl | hend
    · refine ⟨before, placeholderLine name, [], rfl, hends, ?_, .inl ⟨rfl, rfl⟩, hstart, hmin⟩
      rw [List.append_assoc]
    · obtain ⟨after, rfl⟩ := List.head?_eq_some_iff.mp hend
      refine ⟨before, placeholderLine name ++ ['\n'], after, rfl, ?_, ?_, .inr rfl, hstart, hmin⟩
      · rw [hends, List.length_append, ← Nat.add_assoc]
        rfl
      · simp only [List.append_assoc, List.singleton_append]
  · rw [hends] at hstop
    cases hstop

theorem search_none {name text : Text} (h : (placeholder name).search text = none) :
    ∀ i ≤ text.length, ¬ Matches (placeholderLine name) text i := by
  intro i hi hmatch
  rcases @ends_placeholder name _ _ hi with ⟨-, hends⟩ | ⟨hno, -⟩
  · rw [Regex.search_eq_none.mp h i hi] at hends
    cases hends
  · exact hno hmatch

theorem cut_start (before matched after : Text) :
    (before ++ matched ++ after).take before.length = before := by
  rw [List.append_assoc, List.take_left]

theorem cut_matched (before matched after : Text) :
    ((before ++ matched ++ after).take (before.length + matched.length)).drop before.length =
      matched := by
  rw [← List.length_append, List.take_left, List.drop_left]

theorem cut_after (before matched after : Text) :
    (before ++ matched ++ after).drop (before.length + matched.length) = after := by
  rw [← List.length_append, List.drop_left]

theorem write_eq {srcText name output : Text} {template : List Segment}
    (h : parseTemplate output = some template) : write srcText name output =
      some (match (placeholder name).search (readText srcText) with
        | some (start, stop) => (readText srcText).take start ++
            expandTemplate (((readText srcText).take stop).drop start) template ++
              (readText srcText).drop stop
        | none => readText srcText ++ '\n' :: output) := by
  simp only [write, subn, h, Option.bind_eq_bind, Option.bind_some, Option.pure_def]
  cases (placeholder name).search (readText srcText) <;> rfl

/-- What is written into the file. -/
theorem write_cases {srcText name output result : Text} (h : write srcText name output = some result) :
    ∃ template, parseTemplate output = some template ∧
      ((∃ before matched after, Found (placeholderLine name) (readText srcText) before matched after ∧
          result = before ++ expandTemplate matched template ++ after) ∨
        (∀ i ≤ (readText srcText).length, ¬ Matches (placeholderLine name) (readText srcText) i) ∧
          result = readText srcText ++ '\n' :: output) := by
  cases hparse : parseTemplate output with
  | none => simp [write, subn, hparse] at h
  | some template =>
    rw [write_eq hparse] at h
    refine ⟨template, rfl, ?_⟩
    cases hsearch : (placeholder name).search (readText srcText) with
    | none =>
      rw [hsearch] at h
      exact .inr ⟨search_none hsearch, (Option.some.inj h).symm⟩
    | some span =>
      obtain ⟨start, stop⟩ := span
      obtain ⟨before, matched, after, rfl, rfl, hfound⟩ := search_some hsearch
      rw [hsearch] at h
      refine .inl ⟨before, matched, after, hfound, (Option.some.inj h).symm.trans ?_⟩
      simp only [hfound.text_eq, cut_start, cut_matched, cut_after]

/-! ## Reading -/

theorem readText_cons {c : Char} (rest : Text) (hc : c ≠ '\r') :
    readText (c :: rest) = c :: readText rest := by
  rw [readText.eq_def]
  split <;> simp_all

theorem readText_append {a : Text} (ha : '\r' ∉ a) (b : Text) : readText (a ++ b) = a ++ readText b := by
  induction a with
  | nil => rfl
  | cons c a ih =>
    rw [List.mem_cons, not_or] at ha
    rw [List.cons_append, readText_cons _ (Ne.symm ha.1), ih ha.2, List.cons_append]

theorem readText_self {t : Text} (h : '\r' ∉ t) : readText t = t := by
  simpa [readText] using readText_append h []

theorem readText_cr {t : Text} (h : t.head? ≠ some '\n') : readText ('\r' :: t) = '\n' :: readText t := by
  rw [readText.eq_def]
  split
  · contradiction
  · rename_i rest heq
    obtain ⟨-, rfl⟩ := List.cons.inj heq
    exact absurd rfl h
  · rename_i c rest _ heq
    obtain ⟨rfl, rfl⟩ := List.cons.inj heq
    rfl

theorem readText_lineBreak {brk after : Text} (h : LineBreak brk after) (hafter : '\r' ∉ after) :
    brk = [] ∧ after = [] ∨ brk.head? ≠ none ∧ readText (brk ++ after) = '\n' :: after := by
  cases h with
  | none => exact .inl ⟨rfl, rfl⟩
  | lf =>
    refine .inr ⟨by simp, ?_⟩
    rw [List.singleton_append, readText_cons after (by decide), readText_self hafter]
  | crlf =>
    refine .inr ⟨by simp, ?_⟩
    rw [List.cons_append, List.singleton_append, readText, readText_self hafter]
  | cr _ hhead =>
    refine .inr ⟨by simp, ?_⟩
    rw [List.singleton_append, readText_cr hhead, readText_self hafter]

/-- Reading takes the carriage returns away and nothing else that is seen. -/
theorem visible_readText (t : Text) : visible (readText t) + t.count '\r' = visible t := by
  induction t using readText.induct with
  | case1 => rfl
  | case2 rest ih =>
    rw [readText, visible_cons, visible_cons, visible_cons, ← ih]
    simp
    omega
  | case3 c rest h ih =>
    rw [readText.eq_3 c rest h, visible_cons, visible_cons, ← ih]
    by_cases hc : c = '\r'
    · simp [hc]
      omega
    · simp [hc]
      omega

theorem count_readText {d : Char} (hd : d ≠ '\r') (hn : d ≠ '\n') (t : Text) :
    (readText t).count d = t.count d := by
  induction t using readText.induct with
  | case1 => rfl
  | case2 rest ih =>
    rw [readText, List.count_cons_of_ne hn.symm, List.count_cons_of_ne hd.symm,
      List.count_cons_of_ne hn.symm, ih]
  | case3 c rest h ih =>
    rw [readText.eq_3 c rest h, List.count_cons, List.count_cons, ih]
    by_cases hc : c = '\r'
    · simp [hc, hd.symm, hn.symm]
    · simp [hc]

theorem cr_not_mem_readText (t : Text) : '\r' ∉ readText t := by
  induction t using readText.induct with
  | case1 => exact List.not_mem_nil
  | case2 rest ih =>
    rw [readText]
    rw [List.mem_cons, not_or]
    exact ⟨by decide, ih⟩
  | case3 c rest h ih =>
    rw [readText.eq_3 c rest h, List.mem_cons, not_or]
    refine ⟨?_, ih⟩
    split
    · decide
    · rename_i hc
      exact Ne.symm hc

/-! ## When the output goes in as it is -/

/-- The only carriage returns belong to the placeholder's line break, and the template stands for
itself, or is at least one where there is no placeholder. -/
def Unharmed (srcText name output : Text) : Prop :=
  (∃ before brk after, FirstLine (placeholderLine name) srcText before brk after ∧
      '\r' ∉ before ++ placeholderLine name ++ after ∧ verbatim output = true) ∨
    (∀ before brk after, ¬ FirstLine (placeholderLine name) srcText before brk after) ∧
      '\r' ∉ srcText ∧ (parseTemplate output).isSome

theorem count_placeholderLine (name : Text) : 0 < (placeholderLine name).count '/' := by
  unfold placeholderLine
  rw [toList_literal rfl]
  simp

theorem visible_placeholderLine (name : Text) : 5 ≤ visible (placeholderLine name) := by
  unfold placeholderLine
  rw [toList_literal rfl]
  simp [visible_cons]

theorem LineBreak.visible_eq {brk after : Text} (h : LineBreak brk after) :
    visible brk = brk.count '\r' ∧ brk.count '/' = 0 := by
  cases h <;> decide

section
variable {line text before matched after : Text}

theorem Found.count_matched (h : Found line text before matched after) :
    matched.count '/' = line.count '/' ∧ visible matched = visible line := by
  rcases h.matched_eq with ⟨rfl, -⟩ | rfl
  · exact ⟨rfl, rfl⟩
  · rw [List.count_append, visible_append]
    exact ⟨rfl, rfl⟩

theorem Found.count_eq (h : Found line text before matched after) :
    before.count '/' + line.count '/' + after.count '/' = text.count '/' ∧
      visible before + visible line + visible after = visible text := by
  rw [h.text_eq, List.count_append, List.count_append, visible_append, visible_append,
    h.count_matched.1, h.count_matched.2]
  exact ⟨rfl, rfl⟩

theorem matches_before {before rest : Text} (hstart : before = [] ∨ before.getLast? = some '\n')
    (hend : rest = [] ∨ rest.head? = some '\n') (htext : text = before ++ (line ++ rest)) :
    before.length ≤ text.length ∧ Matches line text before.length := by
  have hle : before.length ≤ text.length := by
    rw [htext, List.length_append]
    omega
  exact ⟨hle, (matches_iff hle).mpr ⟨before, rest, htext, rfl, hstart, hend⟩⟩

theorem Alone.of_no_cr {rest : Text} (h : Alone before rest) (hbefore : '\r' ∉ before)
    (hrest : '\r' ∉ rest) :
    (before = [] ∨ before.getLast? = some '\n') ∧ (rest = [] ∨ rest.head? = some '\n') := by
  refine ⟨?_, ?_⟩
  · rcases h.starts with h | h | h
    · exact .inl h
    · exact .inr h
    · exact absurd (List.mem_of_getLast? h) hbefore
  · rcases h.ends with h | h | h
    · exact .inl h
    · exact .inr h
    · exact absurd (List.mem_of_head? h) hrest

/-- In a text without carriage returns the pattern finds the first line. -/
theorem Found.firstLine (h : Found line text before matched after) (hcr : '\r' ∉ text) :
    ∃ brk, FirstLine line text before brk after := by
  have hfirst : ∀ before' rest, text = before' ++ line ++ rest → Alone before' rest →
      before.length ≤ before'.length := by
    intro before' rest htext halone
    rw [htext, List.mem_append, List.mem_append, not_or, not_or] at hcr
    obtain ⟨hstart, hend⟩ := halone.of_no_cr hcr.1.1 hcr.2
    by_contra hlt
    exact h.first _ (by omega)
      (matches_before hstart hend (by rw [htext, List.append_assoc])).2
  have hstarts : before = [] ∨ before.getLast? = some '\n' ∨ before.getLast? = some '\r' :=
    h.starts.imp_right .inl
  rcases h.matched_eq with ⟨hmatched, rfl⟩ | hmatched
  · exact ⟨[], by rw [h.text_eq, hmatched, List.append_nil, List.append_nil], ⟨hstarts, .inl rfl⟩, .none, hfirst⟩
  · refine ⟨['\n'], ?_, ⟨hstarts, .inr (.inl rfl)⟩, .lf _, hfirst⟩
    rw [h.text_eq, hmatched, List.append_assoc, List.append_assoc, List.append_assoc,
      List.append_assoc]

/-- The line of a match, and what follows it. -/
theorem Found.tail (h : Found line text before matched after) : ∃ tail,
    text = before ++ line ++ tail ∧ (tail = [] ∧ after = [] ∨ tail = '\n' :: after) := by
  rcases h.matched_eq with ⟨hmatched, hafter⟩ | hmatched
  · exact ⟨[], by rw [h.text_eq, hmatched, hafter], .inl ⟨rfl, hafter⟩⟩
  · refine ⟨'\n' :: after, ?_, .inr rfl⟩
    rw [h.text_eq, hmatched]
    simp only [List.append_assoc, List.singleton_append]

/-- Where the carriage returns are those of its line break, the first line is what the pattern
finds. -/
theorem FirstLine.found {brk : Text} (h : FirstLine line text before brk after)
    (hcr : '\r' ∉ before ++ line ++ after) :
    (∃ i ≤ (readText text).length, Matches line (readText text) i) ∧
      ∀ {b m a : Text}, Found line (readText text) b m a → b = before ∧ a = after := by
  rw [List.mem_append, not_or] at hcr
  have htext : text = (before ++ line) ++ (brk ++ after) := by
    rw [h.text_eq, List.append_assoc (before ++ line)]
  obtain ⟨rest, hread, hrest⟩ : ∃ rest, readText text = before ++ line ++ rest ∧
      (rest = [] ∧ after = [] ∨ rest = '\n' :: after) := by
    refine ⟨readText (brk ++ after), ?_, ?_⟩
    · conv_lhs => rw [htext]
      exact readText_append hcr.1 _
    · rcases readText_lineBreak h.lineBreak hcr.2 with ⟨hbrk, hafter⟩ | ⟨-, hread⟩
      · exact .inl ⟨by rw [hbrk, hafter]; rfl, hafter⟩
      · exact .inr hread
  rw [List.mem_append, not_or] at hcr
  have hmatch : before.length ≤ (readText text).length ∧
      Matches line (readText text) before.length := by
    refine @matches_before line _ _ rest ?_ ?_ (by rw [hread, List.append_assoc])
    · rcases h.alone.starts with h | h | h
      · exact .inl h
      · exact .inr h
      · exact absurd (List.mem_of_getLast? h) hcr.1.1
    · rcases hrest with ⟨hnil, -⟩ | hcons
      · exact .inl hnil
      · exact .inr (by rw [hcons]; rfl)
  refine ⟨⟨_, hmatch⟩, ?_⟩
  intro b m a hfound
  obtain ⟨tail, htail, hshape⟩ := hfound.tail
  rw [hread] at htail
  have hle : b.length ≤ before.length := by
    by_contra hlt
    exact hfound.first _ (by omega) hmatch.2
  have hge : before.length ≤ b.length := by
    by_contra hlt
    rcases List.append_eq_append_iff.mp htail with ⟨mid, hmid, -⟩ | ⟨mid, hmid, hmore⟩
    · have := congrArg List.length hmid
      simp only [List.length_append] at this
      omega
    · -- the line found stands in front of the end of the first line, so the text has it as well
      have hlength := congrArg List.length hmid
      simp only [List.length_append] at hlength
      obtain ⟨c, mid, rfl⟩ := List.exists_cons_of_ne_nil
        (List.ne_nil_of_length_pos (show 0 < mid.length by omega))
      have hc : c = '\n' := by
        rcases hshape with ⟨hnil, -⟩ | hcons
        · rw [hnil] at hmore
          cases hmore
        · rw [hcons] at hmore
          exact (List.cons.inj hmore).1.symm
      refine absurd (h.first b (c :: mid ++ (brk ++ after)) ?_ ⟨?_, ?_⟩) hlt
      · rw [htext, hmid, List.append_assoc]
      · exact hfound.starts.imp_right .inl
      · exact .inr (.inl (by rw [hc]; rfl))
  obtain ⟨hbefore, htails⟩ := List.append_inj
    ((List.append_assoc _ _ _).symm.trans (htail.trans (List.append_assoc _ _ _)))
    (Nat.le_antisymm hge hle)
  have hsame : rest = tail := List.append_cancel_left htails
  refine ⟨hbefore.symm, ?_⟩
  rcases hshape with ⟨hnil, ha⟩ | hcons <;> rcases hrest with ⟨hnil', hafter⟩ | hcons'
  · rw [ha, hafter]
  · rw [hsame, hnil] at hcons'
    cases hcons'
  · rw [hsame, hcons] at hnil'
    cases hnil'
  · rw [hsame, hcons] at hcons'
    exact (List.cons.inj hcons').2

end

section
variable {srcText name output : Text}

theorem unharmed_of_write {result : Text} (h : write srcText name output = some result)
    (hinserted : Inserted srcText name output result) : Unharmed srcText name output := by
  have hslash := count_placeholderLine name
  have hline := visible_placeholderLine name
  have hcount := count_readText (d := '/') (by decide) (by decide) srcText
  have hvisible := visible_readText srcText
  obtain ⟨template, hparse, hcode⟩ := write_cases h
  obtain ⟨hsource, hsound⟩ := parseTemplate_spec hparse
  rcases hinserted with ⟨before, brk, after, hfirst, hresult⟩ | ⟨hnone, hresult⟩
  · -- what the text loses is the line
    have hbrk := hfirst.lineBreak.visible_eq
    have hcount' := congrArg (List.count '/') hfirst.text_eq
    have hvisible' := congrArg visible hfirst.text_eq
    have hcr := congrArg (List.count '\r') hfirst.text_eq
    simp only [List.count_append, visible_append] at hcount' hvisible' hcr
    rcases hcode with ⟨b, m, a, hfound, hcode⟩ | ⟨-, hcode⟩
    · have hsame := hcode.symm.trans hresult
      have hcounts := congrArg (List.count '/') hsame
      have hvisibles := congrArg visible hsame
      simp only [List.count_append, visible_append] at hcounts hvisibles
      have hmore := @count_expandTemplate _ m hsound
      have hless := @visible_expandTemplate _ m hsound
      rw [hsource] at hmore hless
      have hfoundCount := hfound.count_eq
      have hgroups : groups template = 0 := by
        have hzero : groups template * m.count '/' = 0 := by omega
        rw [hfound.count_matched.1] at hzero
        exact (Nat.mul_eq_zero.mp hzero).resolve_right hslash.ne'
      rw [hgroups] at hless
      have hself := @self_of_visible _ m hsound hgroups (by rw [hsource]; omega)
      refine .inl ⟨before, brk, after, hfirst, ?_, verbatim_iff.mpr ⟨template, hparse, hself⟩⟩
      rw [← List.count_eq_zero, List.count_append, List.count_append]
      omega
    · have hsame := congrArg (List.count '/') (hcode.symm.trans hresult)
      simp only [List.count_append, List.count_cons] at hsame
      omega
  · rcases hcode with ⟨b, m, a, hfound, hcode⟩ | ⟨-, hcode⟩
    · have hsame := hcode.symm.trans hresult
      have hcounts := congrArg (List.count '/') hsame
      have hvisibles := congrArg visible hsame
      simp only [List.count_append, visible_append, List.count_cons, visible_cons] at hcounts hvisibles
      have hmore := @count_expandTemplate _ m hsound
      have hless := @visible_expandTemplate _ m hsound
      rw [hsource] at hmore hless
      have hfoundCount := hfound.count_eq
      rw [hfound.count_matched.1] at hmore
      rw [hfound.count_matched.2] at hless
      -- one copy of the line at most, which is not enough for the text that has gone
      have hone : groups template * (placeholderLine name).count '/' ≤
          1 * (placeholderLine name).count '/' := by
        simp at hcounts
        omega
      rcases Nat.le_one_iff_eq_zero_or_eq_one.mp (Nat.le_of_mul_le_mul_right hone hslash) with hg | hg
      · rw [hg] at hless
        simp at hvisibles
        omega
      · rw [hg] at hless
        simp at hvisibles
        omega
    · have hread : readText srcText = srcText := List.append_cancel_right (hcode.symm.trans hresult)
      refine .inr ⟨hnone, ?_, by rw [hparse]; rfl⟩
      rw [← hread]
      exact cr_not_mem_readText srcText

/-- The file is as it should be just when no carriage return is lost and the template stands for
itself. -/
theorem write_inserted_iff :
    (∃ result, write srcText name output = some result ∧ Inserted srcText name output result) ↔
      Unharmed srcText name output := by
  constructor
  · rintro ⟨result, hwrite, hinserted⟩
    exact unharmed_of_write hwrite hinserted
  · rintro (⟨before, brk, after, hfirst, hcr, hverbatim⟩ | ⟨hnone, hcr, hparse⟩)
    · obtain ⟨template, hparse, hself⟩ := verbatim_iff.mp hverbatim
      obtain ⟨⟨i, hi, hmatch⟩, hfound⟩ := hfirst.found hcr
      have hwrite := @write_eq srcText name _ _ hparse
      refine ⟨_, hwrite, .inl ⟨before, brk, after, hfirst, ?_⟩⟩
      obtain ⟨template', hparse', ⟨b, m, a, hbma, hresult⟩ | ⟨hno, -⟩⟩ := write_cases hwrite
      · rw [hparse] at hparse'
        obtain rfl := Option.some.inj hparse'
        obtain ⟨rfl, rfl⟩ := hfound hbma
        rw [hresult, expandTemplate_self hself, (parseTemplate_spec hparse).1]
      · exact absurd hmatch (hno i hi)
    · obtain ⟨template, hparse⟩ := Option.isSome_iff_exists.mp hparse
      have hwrite := @write_eq srcText name _ _ hparse
      refine ⟨_, hwrite, .inr ⟨hnone, ?_⟩⟩
      obtain ⟨template, -, ⟨b, m, a, hfound, -⟩ | ⟨-, hresult⟩⟩ := write_cases hwrite
      · rw [readText_self hcr] at hfound
        obtain ⟨brk, hfirst⟩ := hfound.firstLine hcr
        exact absurd hfirst (hnone _ _ _)
      · rw [hresult, readText_self hcr]

/-- The newline of a C string in the output is not written as it is. -/
theorem escape_not_inserted : ¬ ∃ result,
    write "/// #f\n".toList "f".toList "char* s = \"\\n\";\n".toList = some result ∧
      Inserted "/// #f\n".toList "f".toList "char* s = \"\\n\";\n".toList result := by
  rintro ⟨result, hwrite, hinserted⟩
  rcases unharmed_of_write hwrite hinserted with ⟨-, -, -, -, -, hverbatim⟩ | ⟨hnone, -⟩
  · exact absurd hverbatim (by decide +kernel)
  · refine hnone [] ['\n'] [] ⟨by decide +kernel, ⟨.inl rfl, .inr (.inl rfl)⟩, .lf [], ?_⟩
    exact fun _ _ _ _ => Nat.zero_le _

end

end MeleeHarness.Decomp
