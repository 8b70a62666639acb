import MeleeHarness.SrcMutate.ParseTree

/-!
# Where the code of a unit begins

`prefix_split` cuts a unit where its first item stands that is neither a directive nor a
comment. What is before it is compiled once.

`prefixPure_iff`: only directives and comments are before it exactly if no group of a
conditional directive there has anything else in it.
-/

namespace MeleeHarness.SrcMutate.Cst

open Lib

def NodeType.name? : NodeType → Option Text
  | .other name => some name
  | _ => none

/-- `type.startswith("preproc_") or type == "comment"` -/
def isDirective (s : Place) : Bool :=
  s.type?.any fun type => type = .comment ∨ type.name?.any ("preproc_".toList.isPrefixOf ·)

def prefixSplit (root : Tree) : Nat :=
  match (top root).spot.namedChildren.find? (!isDirective ·) with
  | some ch => ch.start
  | none => root.size

/-! ## Groups -/

def groupTypes : List NodeType :=
  ["preproc_if", "preproc_ifdef", "preproc_else", "preproc_elif", "preproc_elifdef"].map fun s =>
    .other s.toList

/-- What stands in a group, and is not its condition. -/
def groupItems (group : Place) : List Place :=
  group.namedChildren.filter fun c =>
    c.tree.label ∉ [some (.other "name".toList), some (.other "condition".toList)]

/-- At every level, what is before the cut is a directive or a comment. -/
structure PrefixPure (root : Tree) : Prop where
  items : ∀ c ∈ (top root).spot.namedChildren, c.start < prefixSplit root → isDirective c = true
  nested : ∀ m, Under (top root) m → isA groupTypes m.spot = true → ∀ c ∈ groupItems m.spot,
    c.start < prefixSplit root → isDirective c = true

/-- The directives and comments that come first. -/
def leading (root : Tree) : List Place := (top root).spot.namedChildren.takeWhile isDirective

section
variable {root : Tree}

theorem namedChildren_ordered (s : Place) : s.namedChildren.Pairwise fun a b => a.stop ≤ b.start :=
  (Spot.spotsFrom_ordered s.start s.tree.children).filter _

/-- The cut is behind the directives that come first, and before all else. -/
theorem cut_spec {kids : List Place} {size : Nat} (hordered : kids.Pairwise fun a b => a.stop ≤ b.start)
    (hsize : ∀ c ∈ kids, c.stop ≤ size) :
    (∀ c ∈ kids.takeWhile isDirective,
        c.stop ≤ ((kids.find? (!isDirective ·)).map Spot.start).getD size) ∧
      ∀ c ∈ kids, c.start < ((kids.find? (!isDirective ·)).map Spot.start).getD size →
        c ∈ kids.takeWhile isDirective := by
  induction kids with
  | nil => simp
  | cons k kids ih =>
    obtain ⟨hk, hkids⟩ := List.pairwise_cons.mp hordered
    obtain ⟨hbefore, hafter⟩ := ih hkids fun c hc => hsize c (List.mem_cons_of_mem k hc)
    cases hdirective : isDirective k with
    | true =>
      rw [List.find?_cons_of_neg (by simp [hdirective]), List.takeWhile_cons_of_pos hdirective]
      constructor
      · intro c hc
        rcases List.mem_cons.mp hc with rfl | hc
        · cases hfind : kids.find? (!isDirective ·) with
          | none => exact hsize c List.mem_cons_self
          | some d => exact hk d (List.mem_of_find?_eq_some hfind)
        · exact hbefore c hc
      · intro c hc hlt
        rcases List.mem_cons.mp hc with rfl | hc
        · exact List.mem_cons_self
        · exact List.mem_cons_of_mem k (hafter c hc hlt)
    | false =>
      rw [List.find?_cons_of_pos (by simp [hdirective]), List.takeWhile_cons_of_neg (by simp [hdirective])]
      refine ⟨fun c hc => (by cases hc), ?_⟩
      intro c hc hlt
      change c.start < k.start at hlt
      rcases List.mem_cons.mp hc with rfl | hc
      · exact absurd hlt (Nat.lt_irrefl _)
      · have hstop := hk c hc
        have hstart : k.start ≤ k.stop := Nat.le_add_right _ _
        omega

theorem split_spec (root : Tree) : (∀ c ∈ leading root, c.stop ≤ prefixSplit root) ∧
    ∀ c ∈ (top root).spot.namedChildren, c.start < prefixSplit root → c ∈ leading root := by
  have hcut : prefixSplit root =
      ((((top root).spot.namedChildren.find? (!isDirective ·)).map Spot.start).getD root.size) := by
    rw [prefixSplit]
    cases (top root).spot.namedChildren.find? (!isDirective ·) <;> rfl
  rw [hcut]
  refine cut_spec (namedChildren_ordered (top root).spot) fun c hc => ?_
  have hbounds := (Spot.children_bounds (Spot.namedChildren_mem hc)).2
  change c.stop ≤ 0 + root.size at hbounds
  omega

/-- Before the cut there is nothing but directives and comments exactly if no group that
comes first has anything else in it. -/
theorem prefixPure_iff (root : Tree) (hsolid : root.solid = true) : PrefixPure root ↔
    ∀ c ∈ leading root, ∀ m, Under ⟨[⟨0, root⟩], c⟩ m → isA groupTypes m.spot = true →
      ∀ d ∈ groupItems m.spot, isDirective d = true := by
  obtain ⟨hbefore, hleading⟩ := split_spec root
  constructor
  · intro hpure c hc m hm hgroup d hd
    have hchild : c ∈ (top root).spot.namedChildren := (List.takeWhile_sublist _).subset hc
    have hroot : Under (top root) m := (Under.child .self hchild).trans hm
    have hnamed := List.mem_of_mem_filter hd
    refine hpure.nested m hroot hgroup d hd ?_
    -- it has text, and is in what comes first
    have hpos := Spot.start_lt_stop ((Under.child hroot hnamed).solid hsolid) (List.mem_filter.mp hnamed).2
    have hm' := hm.bounds.2
    have hd' := (Spot.children_bounds (Spot.namedChildren_mem hnamed)).2
    have hstop := hbefore c hc
    change m.spot.stop ≤ c.stop at hm'
    change d.start < d.stop at hpos
    omega
  · intro hgroups
    have hdirective : ∀ c ∈ leading root, isDirective c = true := fun c hc => List.mem_takeWhile_imp hc
    refine ⟨fun c hc hlt => hdirective c (hleading c hc hlt), ?_⟩
    intro m hm hgroup d hd hlt
    have hnamed := List.mem_of_mem_filter hd
    rcases under_iff.mp hm with rfl | ⟨c, hc, hunder⟩
    · exact hdirective d (hleading d hnamed hlt)
    · refine hgroups c (hleading c hc ?_) m hunder hgroup d hd
      have hm' := hunder.bounds.1
      have hd' := (Spot.children_bounds (Spot.namedChildren_mem hnamed)).1
      change c.start ≤ m.spot.start at hm'
      omega

end

/-! ## A unit with a conditional -/

def directive (type : String) (text : String) : Tree := .token none (.other type.toList) true (ascii text)

/-- `#ifdef A`, an item and `#endif` -/
def ifdefTree (item : Tree) : Tree :=
  .node none (.other "preproc_ifdef".toList) [mark "#ifdef", .gap (ascii " "),
    ident (some (.other "name".toList)) "A", .gap (ascii "\n"), item, mark "#endif"]

/-- `int x;` on a line -/
def intLine : Tree :=
  .node none .declaration [.token (some .type) .primitiveType true (ascii "int"), .gap (ascii " "),
    ident (some .declarator) "x", mark ";", .gap (ascii "\n")]

def conditionalUnit (item : Tree) : Tree :=
  .node none .translationUnit [ifdefTree item, .gap (ascii "\n"), intLine]

theorem include_pure : PrefixPure (conditionalUnit (directive "preproc_include" "#include \"a.h\"\n")) := by
  refine (prefixPure_iff _ (by decide +kernel)).mpr ?_
  intro c hc m hm
  have hall : ∀ c ∈ leading (conditionalUnit (directive "preproc_include" "#include \"a.h\"\n")),
      ∀ m ∈ Located.iterSubtree
        ⟨[⟨0, conditionalUnit (directive "preproc_include" "#include \"a.h\"\n")⟩], c⟩,
      isA groupTypes m.spot = true → ∀ d ∈ groupItems m.spot, isDirective d = true := by decide +kernel
  exact hall c hc m (mem_iterSubtree.mpr hm)

/-- A declaration under `#ifdef` is cut off with the headers. -/
theorem conditional_declaration_cut : ∃ root : Tree, root.solid = true ∧ ¬PrefixPure root := by
  refine ⟨conditionalUnit intLine, by decide +kernel, fun hpure => ?_⟩
  have hgroup : ∃ m ∈ (top (conditionalUnit intLine)).iterSubtree, isA groupTypes m.spot = true ∧
      ∃ c ∈ groupItems m.spot, c.start < prefixSplit (conditionalUnit intLine) ∧ isDirective c = false := by
    decide +kernel
  obtain ⟨m, hm, htype, c, hc, hlt, hnot⟩ := hgroup
  rw [hpure.nested m (mem_iterSubtree.mp hm) htype c hc hlt] at hnot
  cases hnot

end MeleeHarness.SrcMutate.Cst
