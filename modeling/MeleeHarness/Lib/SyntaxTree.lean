import MeleeHarness.Lib.Bytes
import Mathlib.Data.List.Pairwise

/-!
# Parse trees that keep their text

A tree of nodes over tokens and the gaps between them. The text is what stands at the
leaves, so a node has a place in the text of the whole tree.

* `mem_walk_iff`: a walk comes to all named nodes, each with the nodes above it;
* `Under.leftmost`: only nodes at the left edge begin where the whole tree does.
-/

namespace MeleeHarness.Lib

/-- A node or token may be a field of the node above it. -/
inductive SyntaxTree (κ φ : Type) where
  | gap (text : Bytes)
  | token (label : Option φ) (type : κ) (named : Bool) (text : Bytes)
  | node (label : Option φ) (type : κ) (children : List (SyntaxTree κ φ))

namespace SyntaxTree
variable {κ φ : Type}

def label : SyntaxTree κ φ → Option φ
  | .gap _ => none
  | .token label _ _ _ | .node label _ _ => label

def type? : SyntaxTree κ φ → Option κ
  | .gap _ => none
  | .token _ type _ _ | .node _ type _ => some type

def isNamed : SyntaxTree κ φ → Bool
  | .gap _ => false
  | .token _ _ named _ => named
  | .node _ _ _ => true

def children : SyntaxTree κ φ → List (SyntaxTree κ φ)
  | .node _ _ children => children
  | .gap _ | .token _ _ _ _ => []

mutual

def text : SyntaxTree κ φ → Bytes
  | .gap text | .token _ _ _ text => text
  | .node _ _ children => textAll children

def textAll : List (SyntaxTree κ φ) → Bytes
  | [] => []
  | t :: rest => t.text ++ textAll rest

end

def size (t : SyntaxTree κ φ) : Nat := t.text.length

mutual

/-- No token and no node is without text. -/
def solid : SyntaxTree κ φ → Bool
  | .gap _ => true
  | .token _ _ _ text => !text.isEmpty
  | .node _ _ children => !(textAll children).isEmpty && solidAll children

def solidAll : List (SyntaxTree κ φ) → Bool
  | [] => true
  | t :: rest => t.solid && solidAll rest

end

mutual

/-- The nodes at the left edge, from the top down. -/
def leftmost : SyntaxTree κ φ → List (SyntaxTree κ φ)
  | .gap _ => []
  | .token label type named text => [.token label type named text]
  | .node label type children => .node label type children :: leftmostOf children

def leftmostOf : List (SyntaxTree κ φ) → List (SyntaxTree κ φ)
  | [] => []
  | .gap _ :: rest => leftmostOf rest
  | t :: _ => t.leftmost

end

theorem textAll_append (a b : List (SyntaxTree κ φ)) :
    textAll (a ++ b) = textAll a ++ textAll b := by
  induction a with
  | nil => rfl
  | cons t a ih => rw [List.cons_append, textAll, textAll, ih, List.append_assoc]

theorem solidAll_iff {ts : List (SyntaxTree κ φ)} : solidAll ts = true ↔ ∀ t ∈ ts, t.solid = true := by
  induction ts with
  | nil => simp [solidAll]
  | cons t ts ih => simp [solidAll, ih]

/-- Only a gap may be empty. -/
theorem solid_text {t : SyntaxTree κ φ} (h : t.solid = true) (htext : t.text = []) :
    ∃ text, t = .gap text := by
  cases t with
  | gap text => exact ⟨text, rfl⟩
  | token label type named bytes =>
    rw [SyntaxTree.text] at htext
    simp [solid, htext] at h
  | node label type children =>
    rw [SyntaxTree.text] at htext
    simp [solid, htext] at h

end SyntaxTree

/-! ## Places -/

/-- A tree and where its text begins. -/
structure Spot (κ φ : Type) where
  start : Nat
  tree : SyntaxTree κ φ

namespace Spot
variable {κ φ : Type}

def stop (s : Spot κ φ) : Nat := s.start + s.tree.size

def span (s : Spot κ φ) : Nat × Nat := (s.start, s.stop)

def text (s : Spot κ φ) : Bytes := s.tree.text

def type? (s : Spot κ φ) : Option κ := s.tree.type?

/-- The places of trees that follow each other. -/
def spotsFrom (pos : Nat) : List (SyntaxTree κ φ) → List (Spot κ φ)
  | [] => []
  | t :: rest => ⟨pos, t⟩ :: spotsFrom (pos + t.size) rest

def children (s : Spot κ φ) : List (Spot κ φ) := spotsFrom s.start s.tree.children

def namedChildren (s : Spot κ φ) : List (Spot κ φ) := s.children.filter (·.tree.isNamed)

def field [DecidableEq φ] (s : Spot κ φ) (f : φ) : Option (Spot κ φ) :=
  s.children.find? (·.tree.label = some f)

def onlyNamed (s : Spot κ φ) : Option (Spot κ φ) := s.namedChildren.head?

theorem mem_spotsFrom_iff {pos : Nat} {ts : List (SyntaxTree κ φ)} {s : Spot κ φ} :
    s ∈ spotsFrom pos ts ↔ ∃ pre post, ts = pre ++ s.tree :: post ∧
      s.start = pos + (SyntaxTree.textAll pre).length := by
  induction ts generalizing pos with
  | nil => simp [spotsFrom]
  | cons t ts ih =>
    rw [spotsFrom, List.mem_cons, ih]
    constructor
    · rintro (rfl | ⟨pre, post, rfl, hstart⟩)
      · exact ⟨[], ts, rfl, rfl⟩
      · refine ⟨t :: pre, post, rfl, ?_⟩
        rw [hstart, SyntaxTree.textAll, List.length_append, SyntaxTree.size, Nat.add_assoc]
    · rintro ⟨pre, post, hts, hstart⟩
      cases pre with
      | nil =>
        obtain ⟨rfl, -⟩ := List.cons.inj hts
        left
        cases s
        simpa [SyntaxTree.textAll] using hstart
      | cons u pre =>
        obtain ⟨rfl, rfl⟩ := List.cons.inj hts
        refine .inr ⟨pre, post, rfl, ?_⟩
        rw [hstart, SyntaxTree.textAll, List.length_append, SyntaxTree.size, Nat.add_assoc]

theorem spotsFrom_tree (pos : Nat) (ts : List (SyntaxTree κ φ)) :
    (spotsFrom pos ts).map Spot.tree = ts := by
  induction ts generalizing pos with
  | nil => rfl
  | cons t ts ih => rw [spotsFrom, List.map_cons, ih]

theorem exists_mem_spotsFrom (pos : Nat) {ts : List (SyntaxTree κ φ)} {t : SyntaxTree κ φ}
    (h : t ∈ ts) : ∃ s ∈ spotsFrom pos ts, s.tree = t := by
  rw [← spotsFrom_tree pos ts] at h
  exact List.mem_map.mp h

theorem find_spotsFrom (p : SyntaxTree κ φ → Bool) (pos : Nat) (ts : List (SyntaxTree κ φ)) :
    ((spotsFrom pos ts).find? fun s => p s.tree).map Spot.tree = ts.find? p := by
  conv_rhs => rw [← spotsFrom_tree pos ts, List.find?_map]
  rfl

theorem filter_spotsFrom (p : SyntaxTree κ φ → Bool) (pos : Nat) (ts : List (SyntaxTree κ φ)) :
    ((spotsFrom pos ts).filter fun s => p s.tree).map Spot.tree = ts.filter p := by
  conv_rhs => rw [← spotsFrom_tree pos ts, List.filter_map]
  rfl

theorem field_tree [DecidableEq φ] (s : Spot κ φ) (f : φ) :
    (s.field f).map Spot.tree = s.tree.children.find? (·.label = some f) :=
  find_spotsFrom (fun t => t.label = some f) s.start s.tree.children

/-- A child is part of the text. -/
theorem children_text {s c : Spot κ φ} (h : c ∈ s.children) :
    ∃ before after, s.text = before ++ c.text ++ after ∧ c.start = s.start + before.length := by
  obtain ⟨pre, post, hchildren, hstart⟩ := mem_spotsFrom_iff.mp h
  obtain ⟨start, t⟩ := s
  cases t with
  | gap | token => cases pre <;> cases hchildren
  | node label type ts =>
    refine ⟨SyntaxTree.textAll pre, SyntaxTree.textAll post, ?_, hstart⟩
    change SyntaxTree.textAll ts = _
    rw [show ts = pre ++ c.tree :: post from hchildren, SyntaxTree.textAll_append,
      SyntaxTree.textAll, List.append_assoc]
    rfl

theorem children_bounds {s c : Spot κ φ} (h : c ∈ s.children) :
    s.start ≤ c.start ∧ c.stop ≤ s.stop := by
  obtain ⟨before, after, htext, hstart⟩ := children_text h
  have hsize := congrArg List.length htext
  simp only [text, List.length_append] at hsize
  simp only [stop, SyntaxTree.size]
  omega

theorem tree_mem {s c : Spot κ φ} (h : c ∈ s.children) : c.tree ∈ s.tree.children := by
  rw [← spotsFrom_tree s.start s.tree.children]
  exact List.mem_map_of_mem h

theorem field_mem [DecidableEq φ] {s c : Spot κ φ} {f : φ} (h : s.field f = some c) :
    c ∈ s.children := List.mem_of_find?_eq_some h

theorem namedChildren_mem {s c : Spot κ φ} (h : c ∈ s.namedChildren) : c ∈ s.children :=
  List.mem_of_mem_filter h

/-- Of two trees that follow each other the first ends before the second begins. -/
theorem spotsFrom_ordered (pos : Nat) (ts : List (SyntaxTree κ φ)) :
    (spotsFrom pos ts).Pairwise fun a b => a.stop ≤ b.start := by
  induction ts generalizing pos with
  | nil => exact .nil
  | cons t ts ih =>
    refine .cons ?_ (ih _)
    intro b hb
    obtain ⟨pre, post, -, hstart⟩ := mem_spotsFrom_iff.mp hb
    rw [hstart]
    exact Nat.le_add_right _ _

/-- Two children are apart. -/
theorem children_apart {s a b : Spot κ φ} (ha : a ∈ s.children) (hb : b ∈ s.children) (hne : a ≠ b) :
    a.stop ≤ b.start ∨ b.stop ≤ a.start := by
  have : Std.Symm fun a b : Spot κ φ => a.stop ≤ b.start ∨ b.stop ≤ a.start :=
    ⟨fun _ _ hab => hab.symm⟩
  have hapart : s.children.Pairwise fun a b => a.stop ≤ b.start ∨ b.stop ≤ a.start :=
    (spotsFrom_ordered s.start s.tree.children).imp fun hab => .inl hab
  exact hapart.forall ha hb hne

theorem children_solid {s c : Spot κ φ} (h : c ∈ s.children) (hs : s.tree.solid = true) :
    c.tree.solid = true := by
  obtain ⟨pre, post, hchildren, -⟩ := mem_spotsFrom_iff.mp h
  obtain ⟨start, t⟩ := s
  cases t with
  | gap | token => cases pre <;> cases hchildren
  | node label type ts =>
    obtain rfl : ts = pre ++ c.tree :: post := hchildren
    rw [SyntaxTree.solid, Bool.and_eq_true, SyntaxTree.solidAll_iff] at hs
    exact hs.2 _ (by simp)

end Spot

/-! ## Walks -/

/-- A place and the places of the nodes above it, from the inside out. -/
structure Located (κ φ : Type) where
  parents : List (Spot κ φ)
  spot : Spot κ φ

namespace SyntaxTree
variable {κ φ : Type}

mutual

/-- A tree and all named nodes in it, the last child's first. -/
def walk (parents : List (Spot κ φ)) (pos : Nat) : SyntaxTree κ φ → List (Located κ φ)
  | .node label type children =>
    ⟨parents, pos, .node label type children⟩ ::
      walkAll (⟨pos, .node label type children⟩ :: parents) pos children
  | t => [⟨parents, pos, t⟩]

def walkAll (parents : List (Spot κ φ)) (pos : Nat) : List (SyntaxTree κ φ) → List (Located κ φ)
  | [] => []
  | t :: rest =>
    walkAll parents (pos + t.size) rest ++ if t.isNamed then walk parents pos t else []

end

end SyntaxTree

/-- The node and all named nodes below it. -/
def Located.iterSubtree {κ φ : Type} (ℓ : Located κ φ) : List (Located κ φ) :=
  ℓ.spot.tree.walk ℓ.parents ℓ.spot.start

/-- A named node below another, or that node itself, with the nodes above it. -/
inductive Under {κ φ : Type} (top : Located κ φ) : Located κ φ → Prop
  | self : Under top top
  | child {ℓ : Located κ φ} {c : Spot κ φ} :
      Under top ℓ → c ∈ ℓ.spot.namedChildren → Under top ⟨ℓ.spot :: ℓ.parents, c⟩

section
variable {κ φ : Type} {top ℓ : Located κ φ}

theorem Under.trans {m : Located κ φ} (h : Under top m) (h' : Under m ℓ) : Under top ℓ := by
  induction h' with
  | self => exact h
  | child _ hc ih => exact .child ih hc

theorem mem_walkAll_iff {parents : List (Spot κ φ)} {pos : Nat} {ts : List (SyntaxTree κ φ)} :
    ℓ ∈ SyntaxTree.walkAll parents pos ts ↔
      ∃ c ∈ Spot.spotsFrom pos ts, c.tree.isNamed = true ∧ ℓ ∈ c.tree.walk parents c.start := by
  induction ts generalizing pos with
  | nil => simp [SyntaxTree.walkAll, Spot.spotsFrom]
  | cons t ts ih =>
    rw [SyntaxTree.walkAll, List.mem_append, ih, Spot.spotsFrom]
    simp only [List.mem_cons, exists_eq_or_imp]
    rw [or_comm]
    apply or_congr_left
    by_cases hnamed : t.isNamed = true
    · simp [hnamed]
    · simp [hnamed]

/-- What is below a node is the node or below one of its named children. -/
theorem under_iff : Under top ℓ ↔ ℓ = top ∨
    ∃ c ∈ top.spot.namedChildren, Under ⟨top.spot :: top.parents, c⟩ ℓ := by
  constructor
  · intro h
    induction h with
    | self => exact .inl rfl
    | @child m c hm hc ih =>
      rcases ih with rfl | ⟨d, hd, hunder⟩
      · exact .inr ⟨c, hc, .self⟩
      · exact .inr ⟨d, hd, .child hunder hc⟩
  · rintro (rfl | ⟨c, hc, hunder⟩)
    · exact .self
    · exact (Under.child .self hc).trans hunder

theorem under_leaf (h : top.spot.tree.children = []) : Under top ℓ ↔ ℓ = top := by
  rw [under_iff, Spot.namedChildren, Spot.children, h]
  simp [Spot.spotsFrom]

end

/-- A walk comes to all named nodes below. -/
theorem mem_walk_iff {κ φ : Type} (t : SyntaxTree κ φ) : ∀ {parents : List (Spot κ φ)} {pos : Nat}
    {ℓ : Located κ φ}, ℓ ∈ t.walk parents pos ↔ Under ⟨parents, pos, t⟩ ℓ := by
  refine @SyntaxTree.rec κ φ
    (fun t => ∀ {parents : List (Spot κ φ)} {pos : Nat} {ℓ : Located κ φ},
      ℓ ∈ t.walk parents pos ↔ Under ⟨parents, pos, t⟩ ℓ)
    (fun ts => ∀ t ∈ ts, ∀ {parents : List (Spot κ φ)} {pos : Nat} {ℓ : Located κ φ},
      ℓ ∈ t.walk parents pos ↔ Under ⟨parents, pos, t⟩ ℓ) ?_ ?_ ?_ ?_ ?_ t
  · intro text parents pos ℓ
    rw [SyntaxTree.walk, under_leaf rfl, List.mem_singleton]
    rintro _ _ _ ⟨⟩
  · intro label type named text parents pos ℓ
    rw [SyntaxTree.walk, under_leaf rfl, List.mem_singleton]
    rintro _ _ _ ⟨⟩
  · intro label type ts ih parents pos ℓ
    rw [SyntaxTree.walk, List.mem_cons, mem_walkAll_iff, under_iff]
    apply or_congr_right
    constructor
    · rintro ⟨c, hc, hnamed, hℓ⟩
      obtain ⟨pre, post, hts, -⟩ := Spot.mem_spotsFrom_iff.mp hc
      exact ⟨c, List.mem_filter.mpr ⟨hc, hnamed⟩, (ih c.tree (by simp [hts])).mp hℓ⟩
    · rintro ⟨c, hc, hunder⟩
      obtain ⟨hc, hnamed⟩ := List.mem_filter.mp hc
      obtain ⟨pre, post, hts, -⟩ := Spot.mem_spotsFrom_iff.mp hc
      have hmem : c.tree ∈ ts := by
        change ts = _ at hts
        simp [hts]
      exact ⟨c, hc, hnamed, (ih c.tree hmem).mpr hunder⟩
  · intro t ht
    cases ht
  · intro t ts ht hts u hu
    rcases List.mem_cons.mp hu with rfl | hu
    · exact ht
    · exact hts u hu

section
variable {κ φ : Type} {top ℓ : Located κ φ}

theorem mem_iterSubtree : ℓ ∈ top.iterSubtree ↔ Under top ℓ := mem_walk_iff _

theorem Under.bounds (h : Under top ℓ) :
    top.spot.start ≤ ℓ.spot.start ∧ ℓ.spot.stop ≤ top.spot.stop := by
  induction h with
  | self => exact ⟨Nat.le_refl _, Nat.le_refl _⟩
  | child _ hc ih =>
    obtain ⟨hstart, hstop⟩ := Spot.children_bounds (Spot.namedChildren_mem hc)
    exact ⟨Nat.le_trans ih.1 hstart, Nat.le_trans hstop ih.2⟩

theorem Under.solid (h : Under top ℓ) (hsolid : top.spot.tree.solid = true) :
    ℓ.spot.tree.solid = true := by
  induction h with
  | self => exact hsolid
  | child _ hc ih => exact Spot.children_solid (Spot.namedChildren_mem hc) ih

/-- A named node has text. -/
theorem Spot.start_lt_stop {s : Spot κ φ} (hsolid : s.tree.solid = true)
    (hnamed : s.tree.isNamed = true) : s.start < s.stop := by
  have hne : s.tree.text ≠ [] := by
    intro hnil
    obtain ⟨text, hgap⟩ := SyntaxTree.solid_text hsolid hnil
    rw [hgap] at hnamed
    cases hnamed
  have hlen := List.length_pos_iff.mpr hne
  rw [Spot.stop, SyntaxTree.size]
  omega

end

/-! ## The left edge -/

namespace SyntaxTree
variable {κ φ : Type}

theorem leftmost_head {t : SyntaxTree κ φ} (h : t.isNamed = true) : t ∈ t.leftmost := by
  cases t with
  | gap => cases h
  | token => simp [leftmost]
  | node => simp [leftmost]

theorem leftmostOf_cons {t : SyntaxTree κ φ} (h : t.isNamed = true) (rest : List (SyntaxTree κ φ)) :
    leftmostOf (t :: rest) = t.leftmost := by
  rw [leftmostOf]
  rintro text rfl
  cases h

theorem leftmostOf_skip {pre : List (SyntaxTree κ φ)} (hsolid : solidAll pre = true)
    (h : textAll pre = []) (ts : List (SyntaxTree κ φ)) : leftmostOf (pre ++ ts) = leftmostOf ts := by
  induction pre with
  | nil => rfl
  | cons t pre ih =>
    rw [solidAll, Bool.and_eq_true] at hsolid
    rw [textAll, List.append_eq_nil_iff] at h
    obtain ⟨text, rfl⟩ := solid_text hsolid.1 h.1
    rw [List.cons_append, leftmostOf, ih hsolid.2 h.2]

theorem leftmost_trans (t : SyntaxTree κ φ) : ∀ {u v : SyntaxTree κ φ}, u ∈ t.leftmost →
    v ∈ u.leftmost → v ∈ t.leftmost := by
  refine @SyntaxTree.rec κ φ
    (fun t => ∀ {u v : SyntaxTree κ φ}, u ∈ t.leftmost → v ∈ u.leftmost → v ∈ t.leftmost)
    (fun ts => ∀ {u v : SyntaxTree κ φ}, u ∈ leftmostOf ts → v ∈ u.leftmost → v ∈ leftmostOf ts)
    ?_ ?_ ?_ ?_ ?_ t
  · intro text u v hu
    cases hu
  · intro label type named text u v hu hv
    rw [leftmost, List.mem_singleton] at hu
    rwa [← hu]
  · intro label type ts ih u v hu hv
    rw [leftmost, List.mem_cons] at hu
    rcases hu with rfl | hu
    · exact hv
    · rw [leftmost, List.mem_cons]
      exact .inr (ih hu hv)
  · intro u v hu
    cases hu
  · intro t ts ht hts u v hu hv
    cases t with
    | gap => exact hts hu hv
    | token => exact ht hu hv
    | node => exact ht hu hv

end SyntaxTree

/-- A node that begins where the whole tree does is at its left edge. -/
theorem Under.leftmost {κ φ : Type} {top ℓ : Located κ φ} (h : Under top ℓ)
    (hsolid : top.spot.tree.solid = true) (hnamed : top.spot.tree.isNamed = true)
    (hstart : ℓ.spot.start = top.spot.start) : ℓ.spot.tree ∈ top.spot.tree.leftmost := by
  induction h with
  | self => exact SyntaxTree.leftmost_head hnamed
  | @child m c hm hc ih =>
    obtain ⟨hchild, hnamedc⟩ := List.mem_filter.mp hc
    have hbounds := hm.bounds
    have hcbounds := Spot.children_bounds hchild
    have hmstart : m.spot.start = top.spot.start := by
      change c.start = _ at hstart
      omega
    refine SyntaxTree.leftmost_trans _ (ih hmstart) ?_
    obtain ⟨pre, post, hchildren, hcstart⟩ := Spot.mem_spotsFrom_iff.mp hchild
    have hnil : SyntaxTree.textAll pre = [] := by
      change c.start = _ at hstart
      exact List.eq_nil_of_length_eq_zero (by omega)
    have hmsolid := hm.solid hsolid
    obtain ⟨parents, start, t⟩ := m
    cases t with
    | gap | token => cases pre <;> cases hchildren
    | node label type ts =>
      obtain rfl : ts = pre ++ c.tree :: post := hchildren
      rw [SyntaxTree.solid, Bool.and_eq_true, SyntaxTree.solidAll_iff] at hmsolid
      have hpre : SyntaxTree.solidAll pre = true :=
        SyntaxTree.solidAll_iff.mpr fun t ht => hmsolid.2 t (by simp [ht])
      change c.tree ∈ SyntaxTree.leftmost (.node label type (pre ++ c.tree :: post))
      rw [SyntaxTree.leftmost, SyntaxTree.leftmostOf_skip hpre hnil,
        SyntaxTree.leftmostOf_cons hnamedc]
      exact List.mem_cons_of_mem _ (SyntaxTree.leftmost_head hnamedc)

end MeleeHarness.Lib
