import MeleeHarness.SrcMutate.StructRef
import Mathlib.Data.List.Infix

/-!
# Accessors of game objects

`p_gobj_accessor` writes a call such as `GET_ITEM(x)` as `((Item*) x->user_data)` and
back.

* `expand_reads`: the expansion is a cast in parentheses, whatever is around the call;
* `gobjAccessor_restores`: the way back from it leads to the call.
-/

namespace MeleeHarness.SrcMutate

open Lib Lib.C

structure GobjAccessor where
  mac : Name
  typ : Text
  fld : Name
  deriving DecidableEq, Repr

def userData : Name := "user_data".toList

def hsdObj : Name := "hsd_obj".toList

def gobjAccessorMacros : List GobjAccessor :=
  [⟨"GET_ITEM".toList, "Item*".toList, userData⟩,
    ⟨"GET_FIGHTER".toList, "Fighter*".toList, userData⟩,
    ⟨"GET_GROUND".toList, "Ground*".toList, userData⟩,
    ⟨"GET_EFFECT".toList, "EF_Effect*".toList, userData⟩,
    ⟨"GET_TOY".toList, "Toy*".toList, userData⟩,
    ⟨"GET_JOBJ".toList, "HSD_JObj*".toList, hsdObj⟩,
    ⟨"GET_COBJ".toList, "HSD_CObj*".toList, hsdObj⟩,
    ⟨"GET_LOBJ".toList, "HSD_LObj*".toList, hsdObj⟩,
    ⟨"GET_FOG".toList, "HSD_Fog*".toList, hsdObj⟩]

def gobjAccessorInlines : List (Name × Name) :=
  [("HSD_GObjGetUserData".toList, userData), ("HSD_GObjGetHSDObj".toList, hsdObj)]

def userDataMacroByGobjType : List (Text × Name) :=
  [("Item_GObj".toList, "GET_ITEM".toList), ("Fighter_GObj".toList, "GET_FIGHTER".toList),
    ("Ground_GObj".toList, "GET_GROUND".toList)]

/-- `(T) ` before the argument, in the parentheses that are put around it all. -/
def castOpening (typ : Text) : List Element :=
  [.token .lparen, .token .lparen, .token (.type typ), .token .rparen, .white ' ']

def fieldText (arg : List Element) (fld : Name) : List Element :=
  arg ++ [.token .arrow, .token (.name fld)]

def callText (f : Name) (arg : List Element) : List Element :=
  .token (.name f) :: .token .lparen :: (arg ++ [.token .rparen])

/-- The site is a call: what is written in its place. -/
def gobjCallToField (site : Site) : Option (List Element) :=
  match site.expr with
  | .node .call [.ident f, a] =>
    match parts [1, 1, a.print.length, 1] site.text with
    | [_, _, arg, _] =>
      match gobjAccessorMacros.find? (·.mac = f) with
      | some m =>
        some (castOpening m.typ ++ fieldText (parenArg a arg.text) m.fld ++ [.token .rparen])
      | none => (gobjAccessorInlines.lookup f).map (fieldText (parenArg a arg.text))
    | _ => none
  | _ => none

/-- The macro whose type is that of the declaration that the access initializes. -/
def userDataMacroFromDecl (declared : Option Text) : Option Name := do
  let t ← declared
  let m ← gobjAccessorMacros.find? fun m => m.fld = userData ∧ m.typ.rdropWhile (· = '*') = t
  return m.mac

/-- The macro for an access that is not cast; `clang` is the type of its argument. -/
def bareMacro (clang declared : Option Text) (fld : Name) : Option Name :=
  if fld = hsdObj then some "GET_JOBJ".toList
  else
    match clang.bind fun t => userDataMacroByGobjType.find? (·.1 <:+: t) with
    | some (_, mac) => some mac
    | none => userDataMacroFromDecl declared

/-- A text for a node and so many tokens on either side of it. -/
structure Widened where
  left : Nat
  right : Nat
  text : List Element

/-- The macro that casts the field to this type, and what its call takes the place of:
the cast, and the parentheses that it stands in. -/
def castToMacro (typ : Text) (outer : List Frame) (fld : Name) (arg : List Element) :
    Option Widened := do
  let m ← gobjAccessorMacros.find? fun m =>
    m.fld = fld ∧ typ.filter (· ≠ ' ') = m.typ.filter (· ≠ ' ')
  match outer with
  | ⟨.parenthesized, _, _⟩ :: _ => return ⟨4, 1, callText m.mac arg⟩
  | _ => return ⟨3, 0, callText m.mac arg⟩

def gobjFieldToMacro (clang declared : Option Text) (site : Site) : Option Widened :=
  match site.expr with
  | .node (.arrow fld) [a] =>
    if fld ∉ [userData, hsdObj] then none
    else
      match parts [a.print.length, 1, 1] site.text with
      | [arg, _, _] =>
        match site.parents with
        -- a cast is no place to store to or to take the address of
        | ⟨.assignment _, [], _⟩ :: _ | ⟨.addressOf, _, _⟩ :: _ | ⟨.deref, _, _⟩ :: _ => none
        | ⟨.cast typ, _, _⟩ :: outer => castToMacro typ outer fld arg.text
        | _ => (bareMacro clang declared fld).map fun mac => ⟨0, 0, callText mac arg.text⟩
      | _ => none
  | _ => none

/-- The text of the whole expression with the edit made. -/
def Widened.apply (w : Widened) (site : Site) : List Element :=
  (dropTokens w.left site.before.reverse).reverse ++ w.text ++ dropTokens w.right site.after

/-- What the pass may make of the expression that the node is part of. -/
def pGobjAccessor (clang declared : Option Text) (site : Site) : Option (List Element) :=
  match nodeType site.expr with
  | .callExpression => (gobjCallToField site).map site.edited
  | .fieldExpression => (gobjFieldToMacro clang declared site).map (·.apply site)
  | _ => none

/-! ## The tables -/

theorem find_mac : ∀ m ∈ gobjAccessorMacros,
    gobjAccessorMacros.find? (·.mac = m.mac) = some m := by
  decide

/-- No two macros cast the same field to the same type. -/
theorem find_cast : ∀ m ∈ gobjAccessorMacros, gobjAccessorMacros.find? (fun m' =>
    m'.fld = m.fld ∧ m.typ.filter (· ≠ ' ') = m'.typ.filter (· ≠ ' ')) = some m := by
  decide

theorem fld_known : ∀ m ∈ gobjAccessorMacros, m.fld ∈ [userData, hsdObj] := by
  decide

/-! ## The argument -/

def Bare (a : Expr) : Prop :=
  nodeType a ∈ [.identifier, .parenthesizedExpression, .callExpression, .fieldExpression]

instance (a : Expr) : Decidable (Bare a) := List.instDecidableMemOfLawfulBEq _ _

/-- What `parenArg` makes of the tree. -/
def parenExpr (a : Expr) : Expr := if Bare a then a else .node .parenthesized [a]

section
variable {a : Expr} {arg : List Element}

theorem parenExpr_written (h : a.written = true) :
    (parenExpr a).written = true ∧ Level.postfixed ≤ (parenExpr a).level := by
  rw [parenExpr]
  split
  · rename_i hbare
    exact ⟨h, bare_level hbare⟩
  · exact ⟨written_parenthesized.mpr h, (by decide : Level.postfixed ≤ Level.primary)⟩

theorem parenArg_bare (h : Bare a) (arg : List Element) : parenArg a arg = arg := if_pos h

theorem parenArg_other (h : ¬Bare a) (arg : List Element) :
    parenArg a arg = .token .lparen :: (arg ++ [.token .rparen]) := if_neg h

theorem parenArg_tokens (h : tokens arg = a.print) : tokens (parenArg a arg) = (parenExpr a).print := by
  by_cases hbare : Bare a
  · rw [parenArg_bare hbare, parenExpr, if_pos hbare, h]
  · rw [parenArg_other hbare, parenExpr, if_neg hbare, tokens_token, tokens_append, h]
    rfl

theorem parenArg_tight (h : Tight arg) : Tight (parenArg a arg) := by
  rw [parenArg]
  split
  · exact h
  · constructor
    · intro x hx
      obtain rfl := Option.some.inj hx
      rfl
    · intro x hx
      rw [← List.cons_append, List.getLast?_concat] at hx
      obtain rfl := Option.some.inj hx
      rfl

theorem parenArg_apart (hapart : Apart arg) (htight : Tight arg) (h : tokens arg = a.print)
    (ha : a.written = true) : Apart (parenArg a arg) := by
  rw [parenArg]
  split
  · exact hapart
  · exact apart_parenthesized hapart htight h ha

end

/-! ## There and back -/

/-- The cast and the parentheses that the field stands in. -/
def castFrames (typ : Text) : List Frame := [⟨.cast typ, [], []⟩, parens]

/-- The field of the expansion, in the text with `new` in place of the call. -/
structure FieldOf (site : Site) (new : List Element) (typ : Text) (back : Site) : Prop where
  head : back.head = site.head
  tail : back.tail = site.tail
  parents : back.parents = castFrames typ ++ site.parents
  text : back.edited back.text = site.edited new

section
variable {site : Site} {m : GobjAccessor} {a : Expr} {arg : List Element}

/-- What is known of the text of a call without gaps. -/
theorem call_argument (hexpr : site.expr = .node .call [.ident m.mac, a])
    (htext : site.text = callText m.mac arg) :
    tokens arg = a.print ∧ a.written = true ∧ Apart arg := by
  refine ⟨?_, ?_, ?_⟩
  · have hspelled := site.spelled
    rw [hexpr, htext, callText, tokens_token, tokens_token, tokens_append] at hspelled
    change .name m.mac :: .lparen :: (tokens arg ++ [.rparen]) =
      .name m.mac :: .lparen :: (a.print ++ [.rparen]) at hspelled
    simpa using hspelled
  · have hwritten := hexpr ▸ site.expr_written.2
    rw [written_two] at hwritten
    exact hwritten.2.2.2
  · have hapart := site.apart_text
    rw [htext, callText, apart_cons, apart_cons, apart_append] at hapart
    exact hapart.2.2.1

theorem expand_eq (hm : m ∈ gobjAccessorMacros) (hexpr : site.expr = .node .call [.ident m.mac, a])
    (htext : site.text = callText m.mac arg) (harg : Tight arg) :
    gobjCallToField site =
      some (castOpening m.typ ++ fieldText (parenArg a arg) m.fld ++ [.token .rparen]) := by
  obtain ⟨htokens, hwritten, -⟩ := call_argument hexpr htext
  have hne : tokens arg ≠ [] := htokens ▸ print_ne_nil hwritten
  have hparts : parts [1, 1, a.print.length, 1] site.text = [⟨[], [.token (.name m.mac)]⟩,
      ⟨[], [.token .lparen]⟩, ⟨[], arg⟩, ⟨[], [.token .rparen]⟩] := by
    have hrest := parts_cons harg hne [1] [.token .rparen]
    rw [htext, ← htokens]
    simp [callText, parts, takeTokens, dropTokens, Element.blank, Element.token?] at hrest ⊢
    exact hrest
  simp only [gobjCallToField, hexpr, hparts, find_mac m hm]

/-- The tree of the expansion. -/
def expanded (m : GobjAccessor) (a : Expr) : Expr :=
  plug (castFrames m.typ) (.node (.arrow m.fld) [parenExpr a])

theorem expanded_written (ha : a.written = true) : (expanded m a).written = true := by
  obtain ⟨hwritten, hlevel⟩ := parenExpr_written ha
  have harrow : (Expr.node (.arrow m.fld) [parenExpr a]).written = true :=
    written_one.mpr ⟨rfl, hlevel, hwritten⟩
  exact written_parenthesized.mpr
    (written_one.mpr ⟨rfl, (by decide : Level.cast ≤ Level.postfixed), harrow⟩)

theorem expand_apart (ha : a.written = true) (htokens : tokens arg = a.print) (harg : Tight arg)
    (hapart : Apart arg) :
    Apart (castOpening m.typ ++ fieldText (parenArg a arg) m.fld ++ [.token .rparen]) := by
  have hfield : Apart (fieldText (parenArg a arg) m.fld) := by
    have hlist := arrowText_apart (f := m.fld) (parenArg_apart hapart harg htokens ha)
      (parenArg_tight harg) (parenArg_tokens htokens) (parenExpr_written ha).1
    rwa [List.append_assoc] at hlist
  rw [apart_append, apart_append]
  refine ⟨⟨?_, hfield, ?_⟩, .singleton _, ?_⟩
  · exact .cons_cons rfl (.cons_cons rfl (.cons_cons rfl (.cons_cons rfl (.singleton _))))
  · intro x hx y _
    obtain rfl := Option.some.inj hx
    rfl
  · intro x hx y hy
    rw [fieldText, ← List.append_assoc, List.getLast?_append_of_ne_nil _ (by simp)] at hx
    obtain rfl := Option.some.inj hx
    obtain rfl := Option.some.inj hy
    rfl

/-- Whatever is around the call, the expansion is one operand in its place. -/
theorem expand_reads (hexpr : site.expr = .node .call [.ident m.mac, a])
    (htext : site.text = callText m.mac arg) (harg : Tight arg) :
    site.ReadsAs (castOpening m.typ ++ fieldText (parenArg a arg) m.fld ++ [.token .rparen])
      (plug site.parents (expanded m a)) := by
  obtain ⟨htokens, ha, hapart⟩ := call_argument hexpr htext
  refine Site.readsAs_plug ?_ ?_ (expanded_written ha)
    (Site.apart_ending (expand_apart ha htokens harg hapart) ?_ ?_)
  · rw [tokens_append, tokens_append, fieldText, tokens_append, parenArg_tokens htokens]
    simp [expanded, castFrames, parens, plug, castOpening, Expr.print, Expr.printAll, Kind.arrange]
  · rw [hexpr]
    exact (by decide : Level.postfixed ≤ Level.primary)
  · intro x _ y hy
    obtain rfl := Option.some.inj hy
    exact apart_before_lparen x
  · rw [List.getLast?_concat, htext, callText, ← List.cons_append, ← List.cons_append,
      List.getLast?_concat]

/-- The field of the expansion as a site. -/
def backSite (site : Site) (m : GobjAccessor) (a : Expr) (arg : List Element)
    (hexpr : site.expr = .node .call [.ident m.mac, a]) (htext : site.text = callText m.mac arg)
    (harg : Tight arg) : Site where
  head := site.head
  before := site.before ++ castOpening m.typ
  text := fieldText (parenArg a arg) m.fld
  after := .token .rparen :: site.after
  tail := site.tail
  parents := castFrames m.typ ++ site.parents
  expr := .node (.arrow m.fld) [parenExpr a]
  written := (expand_reads hexpr htext harg).written
  surrounds e := by
    change (plug site.parents (plug (castFrames m.typ) e)).print = _
    rw [site.surrounds, tokens_append, tokens_token]
    simp [castFrames, parens, plug, castOpening, Expr.print, Expr.printAll, Kind.arrange]
  spelled := by
    rw [fieldText, tokens_append, parenArg_tokens (call_argument hexpr htext).1]
    rfl
  tight := by
    obtain ⟨htokens, ha, -⟩ := call_argument hexpr htext
    have hne : tokens (parenArg a arg) ≠ [] :=
      parenArg_tokens htokens ▸ print_ne_nil (parenExpr_written ha).1
    have htail : Tight [Element.token (.name m.fld)] := by constructor <;> simp [Element.blank, Element.token?]
    have htight := tight_around (parenArg_tight harg) hne htail (by simp) [.token .arrow]
    rwa [List.append_assoc] at htight
  apart := by
    have hapart := (expand_reads hexpr htext harg).apart
    simpa [Site.edited] using hapart

theorem backSite_fieldOf (hexpr : site.expr = .node .call [.ident m.mac, a])
    (htext : site.text = callText m.mac arg) (harg : Tight arg) :
    FieldOf site (castOpening m.typ ++ fieldText (parenArg a arg) m.fld ++ [.token .rparen]) m.typ
      (backSite site m a arg hexpr htext harg) where
  head := rfl
  tail := rfl
  parents := rfl
  text := by simp [Site.edited, backSite]

theorem backSite_restores (hm : m ∈ gobjAccessorMacros)
    (hexpr : site.expr = .node .call [.ident m.mac, a]) (htext : site.text = callText m.mac arg)
    (harg : Tight arg) (clang declared : Option Text) :
    pGobjAccessor clang declared (backSite site m a arg hexpr htext harg) =
      some (site.edited (callText m.mac (parenArg a arg))) := by
  obtain ⟨htokens, ha, -⟩ := call_argument hexpr htext
  have hprint := parenArg_tokens htokens
  have hne : tokens (parenArg a arg) ≠ [] := hprint ▸ print_ne_nil (parenExpr_written ha).1
  have hparts : parts [(parenExpr a).print.length, 1, 1] (fieldText (parenArg a arg) m.fld) =
      [⟨[], parenArg a arg⟩, ⟨[], [.token .arrow]⟩, ⟨[], [.token (.name m.fld)]⟩] := by
    rw [← hprint, fieldText, parts_cons (parenArg_tight harg) hne]
    rfl
  have hback : gobjFieldToMacro clang declared (backSite site m a arg hexpr htext harg) =
      some ⟨4, 1, callText m.mac (parenArg a arg)⟩ := by
    simp only [gobjFieldToMacro, backSite, hparts, fld_known m hm, not_true_eq_false, if_false,
      castFrames, List.cons_append, castToMacro, find_cast m hm]
    rfl
  have hswallow : (dropTokens 4 (site.before ++ castOpening m.typ).reverse).reverse = site.before := by
    simp [castOpening, dropTokens]
  change (gobjFieldToMacro clang declared _).map _ = _
  rw [hback, Option.map_some, Widened.apply]
  simp only [backSite, hswallow, dropTokens]
  rfl

end

/-- **There and back.** A call of a macro with nothing around its argument is expanded to
a field in a cast in parentheses, and the pass makes of that field the call it was, with
parentheses around the argument only if it is no name, call, field or parentheses. -/
theorem gobjAccessor_restores (site : Site) {m : GobjAccessor} (hm : m ∈ gobjAccessorMacros)
    {a : Expr} {arg : List Element} (hexpr : site.expr = .node .call [.ident m.mac, a])
    (htext : site.text = callText m.mac arg) (harg : Tight arg) (clang declared : Option Text) :
    ∃ new, pGobjAccessor clang declared site = some (site.edited new) ∧
      (∃ back, FieldOf site new m.typ back) ∧
      ∀ back, FieldOf site new m.typ back → ∀ clang' declared', ∃ restored,
        pGobjAccessor clang' declared' back = some restored ∧
        (Bare a → restored = site.edited site.text) ∧
        (¬Bare a → restored =
          site.edited (callText m.mac (.token .lparen :: (arg ++ [.token .rparen])))) := by
  have hfield := backSite_fieldOf hexpr htext harg
  refine ⟨_, ?_, ⟨_, hfield⟩, ?_⟩
  · have hcall : nodeType site.expr = .callExpression := by rw [hexpr]; rfl
    simp only [pGobjAccessor, hcall, expand_eq hm hexpr htext harg, Option.map_some]
  · intro back hback clang' declared'
    obtain rfl := Site.unique (hback.head.trans hfield.head.symm) (hback.tail.trans hfield.tail.symm)
      (hback.parents.trans hfield.parents.symm) (hback.text.trans hfield.text.symm)
    refine ⟨_, backSite_restores hm hexpr htext harg clang' declared', ?_, ?_⟩
    · intro hbare
      rw [parenArg_bare hbare, htext]
    · intro hbare
      rw [parenArg_other hbare]

/-- `f(GET_ITEM(g));` -/
def itemSite : Site where
  head := []
  before := [.token (.name ['f']), .token .lparen]
  text := callText "GET_ITEM".toList [.token (.name ['g'])]
  after := [.token .rparen]
  tail := [.token .semicolon]
  parents := [⟨.call, [.ident ['f']], []⟩]
  expr := .node .call [.ident "GET_ITEM".toList, .ident ['g']]
  written := by decide
  surrounds := fun _ => rfl
  spelled := rfl
  tight := by constructor <;> decide
  apart := by decide

theorem item_restored : ∃ new, pGobjAccessor none none itemSite = some (itemSite.edited new) ∧
    (∃ back, FieldOf itemSite new "Item*".toList back) ∧
    ∀ back, FieldOf itemSite new "Item*".toList back → ∀ clang declared, ∃ restored,
      pGobjAccessor clang declared back = some restored ∧
      (Bare (.ident ['g']) → restored = itemSite.edited itemSite.text) ∧
      (¬Bare (.ident ['g']) → restored = itemSite.edited (callText "GET_ITEM".toList
        (.token .lparen :: ([.token (.name ['g'])] ++ [.token .rparen])))) :=
  gobjAccessor_restores itemSite (m := ⟨"GET_ITEM".toList, "Item*".toList, userData⟩) (by decide)
    rfl rfl (by constructor <;> decide) none none

end MeleeHarness.SrcMutate
