import MeleeHarness.Lib.C.Evaluate
import MeleeHarness.SrcMutate.Conditions

/-!
# Members through pointers

`p_struct_ref` writes `a->f` as `(*(a)).f` and `(*p).f` as `p->f`.

* `arrow_keeps`, `arrow_back`: the first is always the same member, and the way back
  only leaves parentheses;
* `star_keeps_iff`: the second is, if `p` binds as tightly as `->` and does not run
  into the text before it.
-/

namespace MeleeHarness.SrcMutate

open Lib Lib.C

def star : Token := .binary (.arith .mul)

def isComment : Element → Bool
  | .comment _ => true
  | .token _ | .white _ => false

def pStructRef (site : Site) : Option (List Element) :=
  match site.expr with
  | .node (.arrow _) [a] =>
    match parts [a.print.length, 1, 1] site.text with
    | [arg, _, fld] => some ([.token .lparen, .token star, .token .lparen] ++ arg.text ++
        [.token .rparen, .token .rparen, .token .dot] ++ fld.text)
    | _ => none
  | .node (.field _) [.node .parenthesized [.node k [p]]] =>
    if k = .deref ∨ k = .addressOf then
      match parts [1, 1, p.print.length, 1, 1, 1] site.text with
      -- the first named child of the parentheses may be a comment
      | [_, op, ptr, _, _, fld] =>
        if op.gap.any isComment then none else some (ptr.text ++ [.token .arrow] ++ fld.text)
      | _ => none
    else none
  | _ => none

/-! ## The text of an access -/

section
variable {site : Site} {f : Name}

theorem arrow_parts {a : Expr} (h : site.expr = .node (.arrow f) [a]) :
    ∃ l g g', parts [a.print.length, 1, 1] site.text =
        [⟨[], l⟩, ⟨g, [.token .arrow]⟩, ⟨g', [.token (.name f)]⟩] ∧
      site.text = l ++ (g ++ .token .arrow :: (g' ++ [.token (.name f)])) ∧
      tokens l = a.print ∧ Tight l := by
  have hspelled := site.spelled
  rw [h] at hspelled
  change tokens site.text = a.print ++ [.arrow, .name f] at hspelled
  obtain ⟨l, g, g', r, hparts, htext, hl, ⟨hr, hrt⟩, -, -⟩ := parts_joined site.tight hspelled
    (print_ne_nil (left_written (h ▸ site.expr_written.2)))
  obtain rfl := tight_singleton hrt hr
  exact ⟨l, g, g', hparts, htext, hl⟩

theorem star_parts {p : Expr}
    (h : site.expr = .node (.field f) [.node .parenthesized [.node .deref [p]]]) :
    ∃ g ptr g₁ g₂ g₃ g₄, parts [1, 1, p.print.length, 1, 1, 1] site.text =
        [⟨[], [.token .lparen]⟩, ⟨g, [.token star]⟩, ⟨g₁, ptr⟩, ⟨g₂, [.token .rparen]⟩,
          ⟨g₃, [.token .dot]⟩, ⟨g₄, [.token (.name f)]⟩] ∧
      tokens ptr = p.print ∧ Tight ptr ∧ Apart ptr := by
  have hspelled := site.spelled
  rw [h] at hspelled
  change tokens site.text = .lparen :: (star :: p.print ++ [.rparen]) ++ [.dot, .name f] at hspelled
  have hflat : tokens site.text =
      [[.lparen], [star], p.print, [.rparen], [.dot], [.name f]].flatten := by
    simp [hspelled]
  obtain ⟨hjoin, hparts⟩ := parts_spec site.tight.last hflat
  have hfirst := parts_first site.tight hspelled 1 [1, p.print.length, 1, 1, 1]
  change joinParts (parts [1, 1, p.print.length, 1, 1, 1] site.text) = site.text at hjoin
  change List.Forall₂ _ (parts [1, 1, p.print.length, 1, 1, 1] site.text) _ at hparts
  generalize parts [1, 1, p.print.length, 1, 1, 1] site.text = ps at hfirst hjoin hparts
  obtain _ | ⟨⟨h₁, t₁, -⟩, _ | ⟨⟨h₂, t₂, -⟩, _ | ⟨⟨h₃, t₃, -⟩, _ | ⟨⟨h₄, t₄, -⟩,
    _ | ⟨⟨h₅, t₅, -⟩, _ | ⟨⟨h₆, t₆, -⟩, _ | _⟩⟩⟩⟩⟩⟩ := hparts
  rename_i p₁ p₂ p₃ p₄ p₅ p₆
  obtain ⟨g, text⟩ := p₁
  obtain rfl : g = [] := Option.some.inj hfirst
  obtain ⟨g₂, text₂⟩ := p₂
  obtain ⟨g₃, ptr⟩ := p₃
  obtain ⟨g₄, text₄⟩ := p₄
  obtain ⟨g₅, text₅⟩ := p₅
  obtain ⟨g₆, text₆⟩ := p₆
  obtain rfl := tight_singleton t₁ h₁
  obtain rfl := tight_singleton t₂ h₂
  obtain rfl := tight_singleton t₄ h₄
  obtain rfl := tight_singleton t₅ h₅
  obtain rfl := tight_singleton t₆ h₆
  refine ⟨g₂, ptr, g₃, g₄, g₅, g₆, rfl, h₃, t₃, ?_⟩
  have hapart := site.apart_text
  rw [← hjoin] at hapart
  simp only [joinParts, List.flatMap_cons, apart_append] at hapart
  exact hapart.2.1.2.1.1.2.1

/-! ## The same member -/

/-- Both are the same place, with the same effects, on every machine. -/
def SameMember (e e' : Expr) : Prop := ∀ M s p s', Denotes M e s p s' ↔ Denotes M e' s p s'

def IsAccess (f : Name) (e : Expr) : Prop := ∃ q, e = .node (.arrow f) [q] ∨ e = .node (.field f) [q]

/-- With the new text the node reads as an access of the member that it was. -/
def Keeps (site : Site) (f : Name) (new : List Element) : Prop :=
  ∃ e, site.ReadsAs new (plug site.parents e) ∧ IsAccess f e ∧ SameMember e site.expr

theorem sameMember_star (a : Expr) : SameMember
    (.node (.field f) [.node .parenthesized [.node .deref [a]]]) (.node (.arrow f) [a]) :=
  fun _ _ _ _ => denotes_member_iff

theorem sameMember_parenthesized (a : Expr) :
    SameMember (.node (.arrow f) [.node .parenthesized [a]]) (.node (.arrow f) [a]) := by
  intro M s p s'
  rw [denotes_arrow_iff, denotes_arrow_iff]
  simp only [steps_parenthesized_iff]

/-- The tree that `a->f` is written as. -/
def starred (f : Name) (a : Expr) : Expr :=
  .node (.field f) [.node .parenthesized [.node .deref [.node .parenthesized [a]]]]

theorem starred_same (a : Expr) : SameMember (starred f a) (.node (.arrow f) [a]) :=
  fun M s p s' => (sameMember_star _ M s p s').trans (sameMember_parenthesized a M s p s')

theorem starred_written {a : Expr} (h : a.written = true) : (starred f a).written = true := by
  have hparen : (Expr.node .parenthesized [a]).written = true := written_parenthesized.mpr h
  have hderef : (Expr.node .deref [.node .parenthesized [a]]).written = true :=
    written_one.mpr ⟨rfl, (by decide : Level.cast ≤ Level.primary), hparen⟩
  exact written_one.mpr ⟨rfl, (by decide : Level.postfixed ≤ Level.primary),
    written_parenthesized.mpr hderef⟩

/-- The text of `starred`. -/
def starredText (f : Name) (l : List Element) : List Element :=
  [.token .lparen, .token star, .token .lparen] ++ l ++
    [.token .rparen, .token .rparen, .token .dot] ++ [.token (.name f)]

theorem starredText_tokens {a : Expr} {l : List Element} (h : tokens l = a.print) :
    tokens (starredText f l) = (starred f a).print := by
  rw [starredText, tokens_append, tokens_append, tokens_append, h]
  simp [starred, Expr.print, Expr.printAll, Kind.arrange, star]

theorem starredText_tight (l : List Element) : Tight (starredText f l) := by
  constructor
  · intro x hx
    obtain rfl := Option.some.inj hx
    rfl
  · intro x hx
    rw [starredText, List.getLast?_concat] at hx
    obtain rfl := Option.some.inj hx
    rfl

theorem starredText_apart {a : Expr} {l : List Element} (hl : Apart l) (hlt : Tight l)
    (h : tokens l = a.print) (ha : a.written = true) : Apart (starredText f l) := by
  have hinner := apart_parenthesized hl hlt h ha
  have hsplit : starredText f l = [.token .lparen, .token star] ++
      (.token .lparen :: (l ++ [.token .rparen])) ++ [.token .rparen, .token .dot, .token (.name f)] := by
    simp [starredText]
  rw [hsplit, apart_append, apart_append]
  refine ⟨⟨.cons_cons rfl (.singleton _), hinner, ?_⟩,
    .cons_cons rfl (.cons_cons rfl (.singleton _)), ?_⟩
  · intro x hx y hy
    obtain rfl := Option.some.inj hx
    obtain rfl := Option.some.inj hy
    rfl
  · intro x hx y _
    rw [← List.cons_append, ← List.append_assoc, List.getLast?_concat] at hx
    obtain rfl := Option.some.inj hx
    exact apart_rparen y

/-! ## Forward and back -/

theorem arrow_reads {a : Expr} (h : site.expr = .node (.arrow f) [a]) :
    ∃ l, pStructRef site = some (starredText f l) ∧ tokens l = a.print ∧ Tight l ∧
      site.ReadsAs (starredText f l) (plug site.parents (starred f a)) := by
  obtain ⟨l, g, g', hparts, htext, hl, hlt⟩ := arrow_parts h
  have hwritten : a.written = true := left_written (h ▸ site.expr_written.2)
  have hapart := site.apart_text
  rw [htext, apart_append] at hapart
  refine ⟨l, ?_, hl, hlt, Site.readsAs_plug (starredText_tokens hl) ?_ (starred_written hwritten)
    (Site.apart_ending (starredText_apart hapart.1 hlt hl hwritten) ?_ ?_)⟩
  · simp only [pStructRef, h, hparts]
    rfl
  · rw [h]
    exact Nat.le_refl Level.postfixed
  · intro x _ y hy
    obtain rfl := Option.some.inj hy
    exact apart_before_lparen x
  · rw [htext, starredText, List.getLast?_concat, ← List.cons_append, ← List.append_assoc,
      ← List.append_assoc, List.getLast?_concat]

theorem arrow_keeps {a : Expr} {new : List Element} (h : site.expr = .node (.arrow f) [a])
    (hnew : pStructRef site = some new) : Keeps site f new := by
  obtain ⟨l, hpass, -, -, hreads⟩ := arrow_reads h
  obtain rfl := Option.some.inj (hpass.symm.trans hnew)
  refine ⟨starred f a, hreads, ⟨_, .inr rfl⟩, ?_⟩
  rw [h]
  exact starred_same a

theorem fuses_arrow {t : Token} (h : t.ends = true) : t.fuses .arrow = false := by
  cases t with
  | update op => cases op <;> rfl
  | literal | name | sizeofType | rparen | rbracket => rfl
  | keyword | type | sizeof | lparen | lbracket | lbrace | rbrace | semicolon | dot | arrow | comma
  | question | colon | binary | assign | tilde | bang => cases h

theorem arrowText_apart {p : Expr} {ptr : List Element} (hp : Apart ptr) (hpt : Tight ptr)
    (h : tokens ptr = p.print) (hwritten : p.written = true) :
    Apart (ptr ++ [.token .arrow] ++ [.token (.name f)]) := by
  obtain ⟨rest, t, rfl, ht⟩ := ends_of_spelled h hpt hwritten
  rw [List.append_assoc, apart_append]
  refine ⟨hp, .cons_cons rfl (.singleton _), ?_⟩
  intro x hx y hy
  rw [List.getLast?_concat] at hx
  obtain rfl := Option.some.inj hx
  obtain rfl := Option.some.inj hy
  rw [Element.apart, fuses_arrow ht]
  rfl

theorem name_last {e : Expr} (h : site.expr = .node (.field f) [e]) :
    site.text.getLast? = some (.token (.name f)) := by
  have hspelled := site.spelled
  rw [h] at hspelled
  change tokens site.text = e.print ++ [.dot, .name f] at hspelled
  rw [← List.singleton_append, ← List.append_assoc] at hspelled
  obtain ⟨rest, hrest, -⟩ := site.tight.last_eq hspelled
  rw [hrest, List.getLast?_concat]

theorem pointer_written {p : Expr}
    (h : site.expr = .node (.field f) [.node .parenthesized [.node .deref [p]]]) :
    p.written = true := by
  have hsite := h ▸ site.expr_written.2
  rw [written_one, written_parenthesized, written_one] at hsite
  exact hsite.2.2.2.2

/-- `(*p).f` as `p->f`: the text of `p` must not run into what is before it. -/
theorem star_reads {p : Expr} {new : List Element}
    (h : site.expr = .node (.field f) [.node .parenthesized [.node .deref [p]]])
    (hnew : pStructRef site = some new) {ptr : Part}
    (hptr : (parts [1, 1, p.print.length, 1, 1, 1] site.text)[2]? = some ptr) :
    tokens new = (Expr.node (.arrow f) [p]).print ∧
      (Apart (site.head ++ site.before ++ ptr.text) ↔
        Apart (site.head ++ site.edited new ++ site.tail)) := by
  obtain ⟨g, text, g₁, g₂, g₃, g₄, hparts, hspelled, htight, hapart⟩ := star_parts h
  rw [hparts] at hptr
  obtain rfl := Option.some.inj hptr
  have hnew' : new = text ++ [.token .arrow] ++ [.token (.name f)] := by
    simp only [pStructRef, h, hparts, true_or, if_true] at hnew
    split at hnew
    · cases hnew
    · exact (Option.some.inj hnew).symm
  have hwritten := pointer_written h
  have hne : text ≠ [] := by
    rintro rfl
    exact print_ne_nil hwritten hspelled.symm
  subst hnew'
  constructor
  · rw [tokens_append, tokens_append, hspelled]
    simp [Expr.print, Expr.printAll, Kind.arrange]
  · constructor
    · intro hfree
      rw [apart_append] at hfree
      apply Site.apart_ending (arrowText_apart hapart htight hspelled hwritten)
      · rw [List.append_assoc, List.head?_append_of_ne_nil _ hne]
        exact hfree.2.2
      · rw [List.getLast?_concat]
        exact (name_last h).symm
    · intro hfree
      rw [Site.apart_split, List.append_assoc text, ← List.append_assoc (site.head ++ site.before),
        apart_append, apart_append] at hfree
      exact hfree.1.1

/-- An access of `f` that ends in `->f` is one through a pointer. -/
theorem access_print {e p : Expr} (he : IsAccess f e) (hwritten : e.written = true)
    (hp : p.written = true) (hprint : e.print = (Expr.node (.arrow f) [p]).print) :
    Level.postfixed ≤ p.level := by
  obtain ⟨q, rfl | rfl⟩ := he
  · change q.print ++ [.arrow, .name f] = p.print ++ [.arrow, .name f] at hprint
    rw [written_one] at hwritten
    rw [← print_inj hwritten.2.2 hp (List.append_cancel_right hprint)]
    exact hwritten.2.1
  · change q.print ++ [.dot, .name f] = p.print ++ [.arrow, .name f] at hprint
    have hlast := (List.append_inj' hprint rfl).2
    cases hlast

theorem star_readsAs {p : Expr} {new : List Element}
    (h : site.expr = .node (.field f) [.node .parenthesized [.node .deref [p]]])
    (hnew : pStructRef site = some new) {ptr : Part}
    (hptr : (parts [1, 1, p.print.length, 1, 1, 1] site.text)[2]? = some ptr)
    (hlevel : Level.postfixed ≤ p.level) (hapart : Apart (site.head ++ site.before ++ ptr.text)) :
    site.ReadsAs new (plug site.parents (.node (.arrow f) [p])) := by
  obtain ⟨hspelled, hfree⟩ := star_reads h hnew hptr
  refine Site.readsAs_plug hspelled ?_ (written_one.mpr ⟨rfl, hlevel, pointer_written h⟩)
    (hfree.mp hapart)
  rw [h]
  exact Nat.le_refl Level.postfixed

/-- `p->f` is the member that `(*p).f` was exactly if `p` stays one operand and one text. -/
theorem star_keeps_iff {p : Expr} {new : List Element}
    (h : site.expr = .node (.field f) [.node .parenthesized [.node .deref [p]]])
    (hnew : pStructRef site = some new) {ptr : Part}
    (hptr : (parts [1, 1, p.print.length, 1, 1, 1] site.text)[2]? = some ptr) :
    Keeps site f new ↔
      Level.postfixed ≤ p.level ∧ Apart (site.head ++ site.before ++ ptr.text) := by
  obtain ⟨hspelled, hfree⟩ := star_reads h hnew hptr
  constructor
  · rintro ⟨e, hreads, haccess, -⟩
    have he := ((written_plug_iff site.written).mp hreads.written).2
    have hprint : tokens site.before ++ tokens new ++ tokens site.after =
        tokens site.before ++ e.print ++ tokens site.after := by
      rw [← site.surrounds e, ← hreads.spelled, Site.edited, tokens_append, tokens_append]
    rw [List.append_cancel_right_eq, List.append_cancel_left_eq, hspelled] at hprint
    exact ⟨access_print haccess he (pointer_written h) hprint.symm, hfree.mpr hreads.apart⟩
  · rintro ⟨hlevel, hapart⟩
    refine ⟨.node (.arrow f) [p], star_readsAs h hnew hptr hlevel hapart, ⟨p, .inl rfl⟩, ?_⟩
    rw [h]
    exact fun M s q s' => (sameMember_star p M s q s').symm

/-- The site of the new text leads back to the old tree in parentheses. -/
theorem arrow_back {a : Expr} {new : List Element} (h : site.expr = .node (.arrow f) [a])
    (hnew : pStructRef site = some new) :
    ∃ back : Site, back.head = site.head ∧ back.tail = site.tail ∧ back.parents = site.parents ∧
      back.edited back.text = site.edited new ∧
      ∃ new' e', pStructRef back = some new' ∧ back.ReadsAs new' e' ∧
        e'.unparen = site.whole.unparen := by
  obtain ⟨l, hpass, hl, -, hreads⟩ := arrow_reads h
  obtain rfl := Option.some.inj (hpass.symm.trans hnew)
  let back := site.replace hreads (starredText_tokens hl) (starredText_tight l)
  have hback : back.expr = .node (.field f) [.node .parenthesized [.node .deref
    [.node .parenthesized [a]]]] := rfl
  obtain ⟨g, text, g₁, g₂, g₃, g₄, hparts, hspelled, htight, hapart⟩ := star_parts hback
  -- the pass leaves no gap before the star
  have hgap : g = [] := by
    have hop : (parts [1, 1, (Expr.node .parenthesized [a]).print.length, 1, 1, 1] back.text)[1]?.map
        Part.gap = some [] := rfl
    rw [hparts] at hop
    exact Option.some.inj hop
  subst hgap
  have hpassback : pStructRef back = some (text ++ [.token .arrow] ++ [.token (.name f)]) := by
    simp only [pStructRef, hback, hparts, true_or, if_true]
    rfl
  refine ⟨back, rfl, rfl, rfl, rfl, _, plug site.parents (.node (.arrow f) [.node .parenthesized [a]]),
    hpassback, ?_, ?_⟩
  · apply star_readsAs hback hpassback (by rw [hparts]; rfl)
      (by decide : Level.postfixed ≤ Level.primary)
    have hlparen : tokens text = .lparen :: (a.print ++ [.rparen]) := hspelled
    obtain ⟨rest, hrest, -⟩ := htight.head_eq hlparen
    rw [apart_append]
    refine ⟨?_, hapart, ?_⟩
    · have hsite := site.apart
      rw [List.append_assoc site.before, ← List.append_assoc site.head, List.append_assoc,
        apart_append] at hsite
      exact hsite.1
    · intro x _ y hy
      rw [hrest] at hy
      obtain rfl := Option.some.inj hy
      exact apart_before_lparen x
  · apply unparen_plug
    rw [h]
    simp [Expr.unparen, Expr.unparenAll]

end

/-- **Members.** `a->f` is always rewritten to the same member, and back to the same tree
up to parentheses; `(*p).f` is exactly if `p` binds as tightly as `->` and its text does
not run into what is before it. -/
theorem structRef_member (site : Site) {new : List Element} (hnew : pStructRef site = some new) :
    (∀ f a, site.expr = .node (.arrow f) [a] → Keeps site f new ∧
      ∃ back : Site, back.head = site.head ∧ back.tail = site.tail ∧
        back.parents = site.parents ∧ back.edited back.text = site.edited new ∧
        ∃ new' e', pStructRef back = some new' ∧ back.ReadsAs new' e' ∧
          e'.unparen = site.whole.unparen) ∧
    ∀ f p ptr, site.expr = .node (.field f) [.node .parenthesized [.node .deref [p]]] →
      (parts [1, 1, p.print.length, 1, 1, 1] site.text)[2]? = some ptr →
      (Keeps site f new ↔
        Level.postfixed ≤ p.level ∧ Apart (site.head ++ site.before ++ ptr.text)) := by
  constructor
  · intro f a h
    exact ⟨arrow_keeps h hnew, arrow_back h hnew⟩
  · intro f p ptr h hptr
    exact star_keeps_iff h hnew hptr

/-- `(*p).x;` -/
def memberSite : Site where
  head := []
  before := []
  text := [.token .lparen, .token star, .token (.name ['p']), .token .rparen, .token .dot,
    .token (.name ['x'])]
  after := []
  tail := [.token .semicolon]
  parents := []
  expr := .node (.field ['x']) [.node .parenthesized [.node .deref [.ident ['p']]]]
  written := by decide
  surrounds := fun e => (List.append_nil e.print).symm
  spelled := rfl
  tight := by constructor <;> decide
  apart := by decide

theorem member_arrow :
    Keeps memberSite ['x'] [.token (.name ['p']), .token .arrow, .token (.name ['x'])] :=
  ((structRef_member memberSite rfl).2 ['x'] (.ident ['p']) ⟨[], [.token (.name ['p'])]⟩ rfl
    rfl).mpr ⟨by decide, by decide⟩

/-- `(**p).x;` -/
def twiceSite : Site where
  head := []
  before := []
  text := [.token .lparen, .token star, .token star, .token (.name ['p']), .token .rparen,
    .token .dot, .token (.name ['x'])]
  after := []
  tail := [.token .semicolon]
  parents := []
  expr := .node (.field ['x']) [.node .parenthesized [.node .deref [.node .deref [.ident ['p']]]]]
  written := by decide
  surrounds := fun e => (List.append_nil e.print).symm
  spelled := rfl
  tight := by constructor <;> decide
  apart := by decide

/-- `(**p).x` becomes `*p->x`, which is no member of what `p` points to. -/
theorem star_under_arrow : ∃ site new f e,
    site.expr = .node (.field f) [.node .parenthesized [.node .deref [e]]] ∧
    pStructRef site = some new ∧ ¬Keeps site f new := by
  refine ⟨twiceSite, [.token star, .token (.name ['p']), .token .arrow, .token (.name ['x'])],
    ['x'], .node .deref [.ident ['p']], rfl, rfl, ?_⟩
  have hexpr : twiceSite.expr = .node (.field ['x'])
      [.node .parenthesized [.node .deref [.node .deref [.ident ['p']]]]] := rfl
  intro hkeeps
  exact absurd ((star_keeps_iff hexpr rfl rfl).mp hkeeps).1 (by decide)

end MeleeHarness.SrcMutate
