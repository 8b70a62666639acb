import MeleeHarness.Lib.Text

/-!
# Templates of a substitution

A template for a pattern without groups is cut into segments. Most segments stand for themselves;
an escape stands for a character or for the matched text, and some escapes are errors.

* `parseTemplate_spec`: the segments make up the template, each one a known kind;
* `verbatim_iff`: the templates that stand for themselves.
-/

namespace MeleeHarness.Lib

/-- A part of a template and what it stands for: a text, or (`none`) what is matched. -/
structure Segment where
  source : Text
  stands : Option Text
  deriving DecidableEq, Repr

namespace Segment

def isOctal (c : Char) : Bool := '0' ≤ c && c ≤ '7'

def octalValue (ds : Text) : Nat := ds.foldl (fun n d => n * 8 + (d.toNat - 48)) 0

/-- The letters that stand for a character. -/
def knownEscape : Char → Option Nat
  | 'a' => some 7
  | 'b' => some 8
  | 'f' => some 12
  | 'n' => some 10
  | 'r' => some 13
  | 't' => some 9
  | 'v' => some 11
  | '\\' => some 92
  | _ => none

/-- `\g<name>`, behind `\g`. The only group there is has the number 0. -/
def group : Text → Option (Segment × Text)
  | '<' :: rest =>
    let name := rest.takeWhile (· = '0')
    match rest.drop name.length with
    | '>' :: after =>
      if name = [] then none else some (⟨'\\' :: 'g' :: '<' :: (name ++ ['>']), none⟩, after)
    | _ => none
  | _ => none

/-- An octal escape of three digits; a number of one or two digits is that of a group. -/
def octal (c : Char) : Text → Option (Segment × Text)
  | d :: e :: rest =>
    if isOctal c ∧ isOctal d ∧ isOctal e ∧ octalValue [c, d, e] ≤ 255 then
      some (⟨['\\', c, d, e], some [Char.ofNat (octalValue [c, d, e])]⟩, rest)
    else none
  | _ => none

/-- An escape, behind its backslash. -/
def escape : Text → Option (Segment × Text)
  | [] => none
  | c :: rest =>
    if c = 'g' then group rest
    else if c = '0' then
      let more := (rest.take 2).takeWhile isOctal
      some (⟨'\\' :: c :: more, some [Char.ofNat (octalValue more)]⟩, rest.drop more.length)
    else if c.isDigit then octal c rest
    else
      match knownEscape c with
      | some n => some (⟨['\\', c], some [Char.ofNat n]⟩, rest)
      | none => if c.isAlpha then none else some (⟨['\\', c], some ['\\', c]⟩, rest)

/-- The first segment of a template. -/
def next : Text → Option (Segment × Text)
  | [] => none
  | c :: rest => if c = '\\' then escape rest else some (⟨[c], some [c]⟩, rest)

end Segment

/-- The segments of a template; each takes one unit of fuel. -/
def segments : Nat → Text → Option (List Segment)
  | _, [] => some []
  | 0, _ :: _ => none
  | fuel + 1, t => do
    let (segment, rest) ← Segment.next t
    return segment :: (← segments fuel rest)

def parseTemplate (template : Text) : Option (List Segment) := segments template.length template

/-- The template with the matched text filled in. -/
def expandTemplate (matched : Text) (template : List Segment) : Text :=
  template.flatMap fun segment => segment.stands.getD matched

/-- Every backslash escapes a character that is neither a letter nor a digit nor a backslash. -/
def verbatim : Text → Bool
  | [] => true
  | ['\\'] => false
  | '\\' :: c :: rest => !c.isAlphanum && c ≠ '\\' && verbatim rest
  | _ :: rest => verbatim rest

/-- A segment stands for itself, or it is an escape without newlines and slashes that is longer
than what it stands for. -/
structure Segment.Sound (segment : Segment) : Prop where
  nonempty : segment.source ≠ []
  stands : segment.stands = some segment.source ∨
    (∀ c ∈ segment.source, c ≠ '\n' ∧ c ≠ '/') ∧
      (segment.stands = none ∧ 5 ≤ segment.source.length ∨
        ∃ text, segment.stands = some text ∧ text.length < segment.source.length)

namespace Segment

theorem isOctal_plain {c : Char} (h : isOctal c = true) : c ≠ '\n' ∧ c ≠ '/' := by
  constructor <;> rintro rfl <;> exact absurd h (by decide)

theorem knownEscape_plain {c : Char} {n : Nat} (h : knownEscape c = some n) : c ≠ '\n' ∧ c ≠ '/' := by
  constructor <;> rintro rfl <;> cases h

theorem backslash_plain : '\\' ≠ '\n' ∧ '\\' ≠ '/' := by decide

theorem group_spec {t rest : Text} {segment : Segment} (h : group t = some (segment, rest)) :
    segment.source ++ rest = '\\' :: 'g' :: t ∧ segment.Sound ∧ segment.stands = none := by
  unfold group at h
  split at h
  · rename_i tail
    dsimp only at h
    split at h
    · rename_i after hdrop
      split at h
      · cases h
      · rename_i hname
        obtain ⟨rfl, rfl⟩ := Prod.mk.inj (Option.some.inj h)
        have htail : tail.takeWhile (· = '0') ++ '>' :: after = tail := by
          rw [← hdrop]
          exact List.prefix_iff_eq_append.mp (List.takeWhile_prefix _)
        refine ⟨by simp [htail], ⟨by simp, .inr ⟨?_, .inl ⟨rfl, ?_⟩⟩⟩, rfl⟩
        · simp only [List.forall_mem_cons, List.forall_mem_append]
          refine ⟨by decide, by decide, by decide, fun c hc => ?_, by decide, by simp⟩
          have hzero : c = '0' := by simpa using List.mem_takeWhile_imp hc
          rw [hzero]
          decide
        · have := List.length_pos_of_ne_nil hname
          simp only [List.length_cons, List.length_append, List.length_nil]
          omega
    · cases h
  · cases h

/-- Behind a backslash, a letter, a digit or a backslash never stands for itself. -/
theorem escape_spec {c : Char} {t rest : Text} {segment : Segment}
    (h : escape (c :: t) = some (segment, rest)) :
    segment.source ++ rest = '\\' :: c :: t ∧ segment.Sound ∧
      (segment.stands = some segment.source → c.isAlphanum = false ∧ c ≠ '\\' ∧
        segment.source = ['\\', c]) := by
  rw [escape] at h
  -- an escape that stands for one character
  have single {source : Text} {d : Char} (hplain : ∀ e ∈ source, e ≠ '\n' ∧ e ≠ '/')
      (hlength : 1 < source.length) : Sound ⟨source, some [d]⟩ ∧ ([d] : Text) ≠ source := by
    refine ⟨⟨List.ne_nil_of_length_pos (Nat.zero_lt_of_lt hlength), .inr ⟨hplain, .inr ⟨[d], rfl, hlength⟩⟩⟩, ?_⟩
    rintro rfl
    exact absurd hlength (lt_irrefl 1)
  split at h
  · rename_i hg
    obtain ⟨hsource, hsound, hstands⟩ := group_spec h
    refine ⟨by rw [hsource, hg], hsound, fun hself => ?_⟩
    rw [hstands] at hself
    cases hself
  · split at h
    · rename_i hzero
      dsimp only at h
      obtain ⟨rfl, rfl⟩ := Prod.mk.inj (Option.some.inj h)
      have hprefix : (t.take 2).takeWhile isOctal <+: t :=
        (List.takeWhile_prefix _).trans (List.take_prefix _ _)
      have hsingle := @single ('\\' :: c :: (t.take 2).takeWhile isOctal)
        (Char.ofNat (octalValue ((t.take 2).takeWhile isOctal)))
        (by
          simp only [List.forall_mem_cons]
          refine ⟨backslash_plain, by rw [hzero]; decide, fun d hd => ?_⟩
          exact isOctal_plain (List.mem_takeWhile_imp hd))
        (by simp)
      refine ⟨?_, hsingle.1, fun hself => absurd (Option.some.inj hself) hsingle.2⟩
      rw [List.cons_append, List.cons_append, List.prefix_iff_eq_append.mp hprefix]
    · split at h
      · unfold octal at h
        split at h
        · split at h
          · rename_i d e tail hoctal
            obtain ⟨rfl, rfl⟩ := Prod.mk.inj (Option.some.inj h)
            have hsingle := @single ['\\', c, d, e] (Char.ofNat (octalValue [c, d, e]))
              (by
                simp only [List.forall_mem_cons]
                exact ⟨backslash_plain, isOctal_plain hoctal.1, isOctal_plain hoctal.2.1,
                  isOctal_plain hoctal.2.2.1, by simp⟩)
              (by simp)
            exact ⟨rfl, hsingle.1, fun hself => absurd (Option.some.inj hself) hsingle.2⟩
          · cases h
        · cases h
      · rename_i hdigit
        split at h
        · rename_i n hn
          obtain ⟨rfl, rfl⟩ := Prod.mk.inj (Option.some.inj h)
          have hsingle := @single ['\\', c] (Char.ofNat n)
            (by
              simp only [List.forall_mem_cons]
              exact ⟨backslash_plain, knownEscape_plain hn, by simp⟩)
            (by simp)
          exact ⟨rfl, hsingle.1, fun hself => absurd (Option.some.inj hself) hsingle.2⟩
        · rename_i hn
          split at h
          · cases h
          · rename_i halpha
            obtain ⟨rfl, rfl⟩ := Prod.mk.inj (Option.some.inj h)
            refine ⟨rfl, ⟨by simp, .inl rfl⟩, fun _ => ⟨?_, ?_, rfl⟩⟩
            · simp [Char.isAlphanum, halpha, hdigit]
            · rintro rfl
              cases hn

/-- Any other character stands for itself with its backslash. -/
theorem escape_verbatim {c : Char} (t : Text) (hc : c.isAlphanum = false) (hne : c ≠ '\\') :
    escape (c :: t) = some (⟨['\\', c], some ['\\', c]⟩, t) := by
  have hletter (d : Char) (hd : d.isAlphanum = true) : c ≠ d := by
    rintro rfl
    rw [hc] at hd
    cases hd
  rw [Char.isAlphanum, Bool.or_eq_false_iff] at hc
  have hknown : knownEscape c = none := by
    unfold knownEscape
    split <;> first | rfl | exact absurd rfl (hletter _ (by decide)) | exact absurd rfl hne
  rw [escape, if_neg (hletter 'g' (by decide)), if_neg (hletter '0' (by decide)), hc.2, hknown, hc.1]
  rfl

theorem next_spec {t rest : Text} {segment : Segment} (h : next t = some (segment, rest)) :
    segment.source ++ rest = t ∧ segment.Sound := by
  unfold next at h
  split at h
  · cases h
  · rename_i c tail
    split at h
    · rename_i hc
      cases tail with
      | nil => cases h
      | cons d tail =>
        obtain ⟨hsource, hsound, -⟩ := escape_spec h
        exact ⟨by rw [hsource, hc], hsound⟩
    · obtain ⟨rfl, rfl⟩ := Prod.mk.inj (Option.some.inj h)
      exact ⟨rfl, by simp, .inl rfl⟩

end Segment

theorem segments_spec {fuel : Nat} {t : Text} {template : List Segment}
    (h : segments fuel t = some template) :
    template.flatMap Segment.source = t ∧ ∀ segment ∈ template, segment.Sound := by
  induction fuel generalizing t template with
  | zero =>
    cases t with
    | nil =>
      obtain rfl := Option.some.inj h
      exact ⟨rfl, by simp⟩
    | cons => cases h
  | succ fuel ih =>
    cases t with
    | nil =>
      obtain rfl := Option.some.inj h
      exact ⟨rfl, by simp⟩
    | cons c t =>
      simp only [segments, Option.bind_eq_bind, Option.bind_eq_some_iff, Option.pure_def,
        Option.some.injEq] at h
      obtain ⟨⟨segment, rest⟩, hnext, tail, htail, rfl⟩ := h
      obtain ⟨hsource, hsound⟩ := Segment.next_spec hnext
      obtain ⟨hrest, hall⟩ := ih htail
      exact ⟨by rw [List.flatMap_cons, hrest, hsource], List.forall_mem_cons.mpr ⟨hsound, hall⟩⟩

/-- The segments make up the template. -/
theorem parseTemplate_spec {t : Text} {template : List Segment} (h : parseTemplate t = some template) :
    template.flatMap Segment.source = t ∧ ∀ segment ∈ template, segment.Sound :=
  segments_spec h

theorem verbatim_cons {c : Char} (t : Text) (hc : c ≠ '\\') : verbatim (c :: t) = verbatim t := by
  rw [verbatim.eq_def]
  split <;> simp_all

theorem segments_cons {fuel : Nat} {c : Char} {t : Text} {template : List Segment} :
    segments (fuel + 1) (c :: t) = some template ↔ ∃ segment rest tail,
      Segment.next (c :: t) = some (segment, rest) ∧ segments fuel rest = some tail ∧
        template = segment :: tail := by
  simp only [segments, Option.bind_eq_bind, Option.bind_eq_some_iff, Option.pure_def,
    Option.some.injEq, Prod.exists]
  constructor
  · rintro ⟨segment, rest, hnext, tail, htail, rfl⟩
    exact ⟨segment, rest, tail, hnext, htail, rfl⟩
  · rintro ⟨segment, rest, tail, hnext, htail, rfl⟩
    exact ⟨segment, rest, hnext, tail, htail, rfl⟩

theorem segments_verbatim {fuel : Nat} {t : Text} (hfuel : t.length ≤ fuel) :
    verbatim t = true ↔ ∃ template, segments fuel t = some template ∧
      ∀ segment ∈ template, segment.stands = some segment.source := by
  induction fuel generalizing t with
  | zero =>
    obtain rfl := List.eq_nil_of_length_eq_zero (Nat.le_zero.mp hfuel)
    exact ⟨fun _ => ⟨[], rfl, by simp⟩, fun _ => rfl⟩
  | succ fuel ih =>
    cases t with
    | nil => exact ⟨fun _ => ⟨[], by rw [segments], by simp⟩, fun _ => rfl⟩
    | cons c t =>
      rw [List.length_cons, Nat.add_le_add_iff_right] at hfuel
      -- the first segment is `source`, if it stands for itself
      have step {source rest : Text} (hrest : rest.length ≤ fuel)
          (hnext : Segment.next (c :: t) = some (⟨source, some source⟩, rest)) :
          verbatim rest = true ↔ ∃ template, segments (fuel + 1) (c :: t) = some template ∧
            ∀ segment ∈ template, segment.stands = some segment.source := by
        rw [ih hrest]
        constructor
        · rintro ⟨tail, htail, hall⟩
          exact ⟨_, segments_cons.mpr ⟨_, _, _, hnext, htail, rfl⟩,
            List.forall_mem_cons.mpr ⟨rfl, hall⟩⟩
        · rintro ⟨template, htemplate, hall⟩
          obtain ⟨segment, rest', tail, hnext', htail, rfl⟩ := segments_cons.mp htemplate
          rw [hnext] at hnext'
          obtain ⟨rfl, rfl⟩ := Prod.mk.inj (Option.some.inj hnext')
          exact ⟨tail, htail, (List.forall_mem_cons.mp hall).2⟩
      by_cases hc : c = '\\'
      · subst hc
        cases t with
        | nil =>
          refine ⟨fun h => absurd h Bool.false_ne_true, ?_⟩
          rintro ⟨template, htemplate, -⟩
          obtain ⟨segment, rest, tail, hnext, -⟩ := segments_cons.mp htemplate
          cases hnext
        | cons d t =>
          have hverbatim : verbatim ('\\' :: d :: t) =
            (!d.isAlphanum && decide (d ≠ '\\') && verbatim t) := rfl
          rw [hverbatim]
          by_cases hd : d.isAlphanum = false ∧ d ≠ '\\'
          · simp only [hd.1, hd.2, Bool.not_false, ne_eq, not_false_eq_true, decide_true,
              Bool.true_and]
            rw [List.length_cons] at hfuel
            exact step (by omega) (Segment.escape_verbatim t hd.1 hd.2)
          · refine ⟨fun h => absurd ?_ hd, ?_⟩
            · simp only [Bool.and_eq_true, Bool.not_eq_true', decide_eq_true_eq] at h
              exact h.1
            · rintro ⟨template, htemplate, hall⟩
              obtain ⟨segment, rest, tail, hnext, -, rfl⟩ := segments_cons.mp htemplate
              obtain ⟨-, -, hself⟩ := Segment.escape_spec hnext
              obtain ⟨halnum, hne, -⟩ := hself (hall segment List.mem_cons_self)
              exact absurd ⟨halnum, hne⟩ hd
      · rw [verbatim_cons t hc]
        exact step hfuel (by rw [Segment.next, if_neg hc])

/-- The templates that stand for themselves, segment by segment. -/
theorem verbatim_iff {t : Text} : verbatim t = true ↔ ∃ template, parseTemplate t = some template ∧
    ∀ segment ∈ template, segment.stands = some segment.source :=
  segments_verbatim le_rfl

/-! ## What an expansion adds and takes away -/

/-- The characters other than newlines. -/
def visible (t : Text) : Nat := t.countP (· ≠ '\n')

theorem visible_append (a b : Text) : visible (a ++ b) = visible a + visible b := List.countP_append

theorem visible_cons (c : Char) (t : Text) :
    visible (c :: t) = visible t + if c = '\n' then 0 else 1 := by
  rw [visible, List.countP_cons, ← visible]
  by_cases hc : c = '\n' <;> simp [hc]

theorem visible_le (t : Text) : visible t ≤ t.length := List.countP_le_length

theorem visible_eq {t : Text} (h : ∀ c ∈ t, c ≠ '\n') : visible t = t.length :=
  List.countP_eq_length.mpr fun c hc => decide_eq_true (h c hc)

/-- How often the matched text stands in a template. -/
def groups (template : List Segment) : Nat := template.countP fun segment => segment.stands = none

section
variable {template : List Segment} {matched : Text}

theorem expandTemplate_cons (segment : Segment) : expandTemplate matched (segment :: template) =
    segment.stands.getD matched ++ expandTemplate matched template := List.flatMap_cons

theorem expandTemplate_self (h : ∀ segment ∈ template, segment.stands = some segment.source) :
    expandTemplate matched template = template.flatMap Segment.source := by
  induction template with
  | nil => rfl
  | cons segment template ih =>
    rw [List.forall_mem_cons] at h
    rw [expandTemplate_cons, h.1, ih h.2, List.flatMap_cons]
    rfl

/-- No slash of a template is lost, and each copy of the matched text brings its own. -/
theorem count_expandTemplate (h : ∀ segment ∈ template, segment.Sound) :
    (template.flatMap Segment.source).count '/' + groups template * matched.count '/' ≤
      (expandTemplate matched template).count '/' := by
  induction template with
  | nil => simp [groups, expandTemplate]
  | cons segment template ih =>
    rw [List.forall_mem_cons] at h
    have ih := ih h.2
    rw [expandTemplate_cons, List.flatMap_cons, List.count_append, List.count_append, groups,
      List.countP_cons]
    rw [groups] at ih
    rcases h.1.stands with hself | ⟨hplain, hchanged⟩
    · simp only [hself, reduceCtorEq, decide_false, Bool.false_eq_true, ite_false, Nat.add_zero,
        Option.getD_some]
      omega
    · have hzero : segment.source.count '/' = 0 :=
        List.count_eq_zero.mpr fun hmem => (hplain '/' hmem).2 rfl
      rcases hchanged with ⟨hnone, -⟩ | ⟨text, htext, -⟩
      · simp only [hnone, decide_true, ite_true, Option.getD_none, hzero, Nat.add_mul, Nat.one_mul]
        omega
      · simp only [htext, reduceCtorEq, decide_false, Bool.false_eq_true, ite_false, hzero,
          Nat.add_zero, Option.getD_some]
        omega

/-- An expansion is not longer than its template but for the copies of the matched text. -/
theorem visible_expandTemplate (h : ∀ segment ∈ template, segment.Sound) :
    visible (expandTemplate matched template) + groups template * 5 ≤
      visible (template.flatMap Segment.source) + groups template * visible matched := by
  induction template with
  | nil => simp [groups, expandTemplate]
  | cons segment template ih =>
    rw [List.forall_mem_cons] at h
    have ih := ih h.2
    rw [expandTemplate_cons, List.flatMap_cons, visible_append, visible_append, groups,
      List.countP_cons]
    rw [groups] at ih
    rcases h.1.stands with hself | ⟨hplain, hchanged⟩
    · simp only [hself, reduceCtorEq, decide_false, Bool.false_eq_true, ite_false, Nat.add_zero,
        Option.getD_some]
      omega
    · have hlength : visible segment.source = segment.source.length :=
        visible_eq fun c hc => (hplain c hc).1
      rcases hchanged with ⟨hnone, hfive⟩ | ⟨text, htext, hshort⟩
      · simp only [hnone, decide_true, ite_true, Option.getD_none, Nat.add_mul, Nat.one_mul]
        omega
      · have := visible_le text
        simp only [htext, reduceCtorEq, decide_false, Bool.false_eq_true, ite_false, Nat.add_zero,
          Option.getD_some]
        omega

/-- Without a copy of the matched text, an expansion as long as its template is the template. -/
theorem self_of_visible (h : ∀ segment ∈ template, segment.Sound) (hgroups : groups template = 0)
    (hle : visible (template.flatMap Segment.source) ≤ visible (expandTemplate matched template)) :
    ∀ segment ∈ template, segment.stands = some segment.source := by
  induction template with
  | nil => simp
  | cons segment template ih =>
    rw [List.forall_mem_cons] at h ⊢
    rw [groups, List.countP_cons, Nat.add_eq_zero_iff] at hgroups
    have htail := @visible_expandTemplate _ matched h.2
    rw [groups, hgroups.1, Nat.zero_mul, Nat.zero_mul] at htail
    rw [expandTemplate_cons, List.flatMap_cons, visible_append, visible_append] at hle
    rcases h.1.stands with hself | ⟨hplain, ⟨hnone, -⟩ | ⟨text, htext, hshort⟩⟩
    · rw [hself, Option.getD_some] at hle
      exact ⟨hself, ih h.2 hgroups.1 (by omega)⟩
    · rw [hnone] at hgroups
      exact absurd hgroups.2 (by decide)
    · have hlength : visible segment.source = segment.source.length :=
        visible_eq fun c hc => (hplain c hc).1
      have := visible_le text
      rw [htext, Option.getD_some] at hle
      omega

end

end MeleeHarness.Lib
