import MeleeHarness.Lib.Splice
import MeleeHarness.Permute.Narrow

/-!
# Dropping casts

The simplify stage computes the edits of a pass once and tries them from the last
start to the first. A cast in the operand of another starts behind it, so it is
tried first; once it has been dropped, the outer cast's edit is stale.

* `laminar_subtree`: the nodes of a syntax tree are apart or nested;
* `dropAccepted_take`: what was dropped so far leaves the text before it alone;
* `trial_drops_cast`: a trial drops its cast, if no cast inside it has been
  dropped before.
-/

namespace MeleeHarness.Permute

open MeleeHarness.Lib

/-- The text of a trial. -/
def castTrial (current : Bytes) (edit : CastEdit) : Bytes :=
  current.take edit.start ++ edit.replacement ++ current.drop edit.stop

/-- What the decisions so far have made of the text. -/
def dropAccepted (start : Bytes) (tried : List (CastEdit × Bool)) : Bytes :=
  tried.foldl (fun current edit => if edit.2 then castTrial current edit.1 else current) start

/-! ## Spans of a syntax tree -/

mutual

/-- Named children stand inside their node, in order, and behind the parenthesis
that a cast or a parenthesized expression opens with; a node's value is one of them. -/
def Node.WellSpanned : Node → Prop
  | .mk type startByte endByte _ value namedChildren =>
    startByte ≤ endByte ∧
    (∀ v, value = some v → ∃ c ∈ namedChildren, (c.startByte, c.endByte) = v) ∧
    ChildrenSpanned endByte (if type = .other then startByte else startByte + 1) namedChildren

def Node.ChildrenSpanned (stop : Nat) : Nat → List Node → Prop
  | pos, [] => pos ≤ stop
  | pos, c :: rest => pos ≤ c.startByte ∧ c.WellSpanned ∧ ChildrenSpanned stop c.endByte rest

end

/-- `x` stands inside `y`, behind its opening parenthesis if it has one. -/
def Node.Nested (x y : Node) : Prop :=
  y.startByte ≤ x.startByte ∧ x.endByte ≤ y.endByte ∧ (y.type ≠ .other → y.startByte < x.startByte)

def Node.Laminar (x y : Node) : Prop :=
  x = y ∨ x.endByte ≤ y.startByte ∨ y.endByte ≤ x.startByte ∨ x.Nested y ∨ y.Nested x

theorem startByte_le : ∀ {t : Node}, t.WellSpanned → t.startByte ≤ t.endByte
  | .mk .., hwell => hwell.1

theorem children_le {stop pos : Nat} {children : List Node}
    (h : Node.ChildrenSpanned stop pos children) : pos ≤ stop := by
  induction children generalizing pos with
  | nil => exact h
  | cons c rest ih =>
    obtain ⟨hpos, hwell, hrest⟩ := h
    exact hpos.trans ((startByte_le hwell).trans (ih hrest))

mutual

theorem subtree_inside {parent q : Option Node} {x : Node} :
    ∀ {t : Node}, t.WellSpanned → (x, q) ∈ t.iterSubtree parent → x = t ∨ x.Nested t
  | .mk type startByte endByte startRow value namedChildren, hwell, hx => by
    rw [Node.iterSubtree, List.mem_cons] at hx
    rcases hx with hx | hx
    · exact .inl (Prod.mk.inj hx).1
    · obtain ⟨-, -, hchildren⟩ := hwell
      obtain ⟨hpos, hstop⟩ := children_inside hchildren hx
      have hstart : startByte ≤ x.startByte := by split at hpos <;> omega
      refine .inr ⟨hstart, hstop, ?_⟩
      · intro hopens
        rw [Node.type] at hopens
        rw [if_neg hopens] at hpos
        exact hpos

theorem children_inside {parent q : Option Node} {x : Node} {stop : Nat} :
    ∀ {pos : Nat} {children : List Node}, Node.ChildrenSpanned stop pos children →
      (x, q) ∈ Node.iterChildren parent children → pos ≤ x.startByte ∧ x.endByte ≤ stop
  | _, [], _, hx => by cases hx
  | pos, c :: rest, hspanned, hx => by
    obtain ⟨hpos, hwell, hrest⟩ := hspanned
    have hc := startByte_le hwell
    rw [Node.iterChildren, List.mem_append] at hx
    rcases hx with hx | hx
    · obtain ⟨hstart, hstop⟩ := children_inside hrest hx
      exact ⟨by omega, hstop⟩
    · have hend := children_le hrest
      rcases subtree_inside hwell hx with rfl | ⟨hstart, hstop, -⟩
      · exact ⟨hpos, hend⟩
      · exact ⟨by omega, by omega⟩

end

mutual

theorem laminar_subtree {parent q r : Option Node} {x y : Node} :
    ∀ {t : Node}, t.WellSpanned → (x, q) ∈ t.iterSubtree parent → (y, r) ∈ t.iterSubtree parent →
      x.Laminar y
  | .mk type startByte endByte startRow value namedChildren, hwell, hx, hy => by
    have hinx := subtree_inside hwell hx
    have hiny := subtree_inside hwell hy
    rw [Node.iterSubtree, List.mem_cons] at hx hy
    rcases hx with hx | hx
    · obtain ⟨rfl, -⟩ := Prod.mk.inj hx
      rcases hiny with rfl | hiny
      · exact .inl rfl
      · exact .inr (.inr (.inr (.inr hiny)))
    · rcases hy with hy | hy
      · obtain ⟨rfl, -⟩ := Prod.mk.inj hy
        rcases hinx with rfl | hinx
        · exact .inl rfl
        · exact .inr (.inr (.inr (.inl hinx)))
      · exact laminar_children hwell.2.2 hx hy

theorem laminar_children {parent q r : Option Node} {x y : Node} {stop : Nat} :
    ∀ {pos : Nat} {children : List Node}, Node.ChildrenSpanned stop pos children →
      (x, q) ∈ Node.iterChildren parent children → (y, r) ∈ Node.iterChildren parent children →
      x.Laminar y
  | _, [], _, hx, _ => by cases hx
  | pos, c :: rest, hspanned, hx, hy => by
    obtain ⟨-, hwell, hrest⟩ := hspanned
    -- a node of the first child ends before every node of the later ones starts
    have before {u v : Node} {o o' : Option Node} (hu : (u, o) ∈ c.iterSubtree parent)
        (hv : (v, o') ∈ Node.iterChildren parent rest) : u.endByte ≤ v.startByte := by
      have hv := (children_inside hrest hv).1
      rcases subtree_inside hwell hu with rfl | ⟨-, hstop, -⟩
      · exact hv
      · exact hstop.trans hv
    rw [Node.iterChildren, List.mem_append] at hx hy
    rcases hx with hx | hx
    · rcases hy with hy | hy
      · exact laminar_children hrest hx hy
      · exact .inr (.inr (.inl (before hy hx)))
    · rcases hy with hy | hy
      · exact .inr (.inl (before hx hy))
      · exact laminar_subtree hwell hx hy

end

mutual

theorem subtree_wellSpanned {parent q : Option Node} {x : Node} :
    ∀ {t : Node}, t.WellSpanned → (x, q) ∈ t.iterSubtree parent → x.WellSpanned
  | .mk type startByte endByte startRow value namedChildren, hwell, hx => by
    rw [Node.iterSubtree, List.mem_cons] at hx
    rcases hx with hx | hx
    · obtain ⟨rfl, -⟩ := Prod.mk.inj hx
      exact hwell
    · exact children_wellSpanned hwell.2.2 hx

theorem children_wellSpanned {parent q : Option Node} {x : Node} {stop : Nat} :
    ∀ {pos : Nat} {children : List Node}, Node.ChildrenSpanned stop pos children →
      (x, q) ∈ Node.iterChildren parent children → x.WellSpanned
  | _, [], _, hx => by cases hx
  | pos, c :: rest, hspanned, hx => by
    obtain ⟨-, hwell, hrest⟩ := hspanned
    rw [Node.iterChildren, List.mem_append] at hx
    rcases hx with hx | hx
    · exact children_wellSpanned hrest hx
    · exact subtree_wellSpanned hwell hx

end

mutual

/-- The parent that a node is listed with is listed itself, and the node stands
inside it. -/
theorem subtree_parent {parent : Option Node} {x p : Node} :
    ∀ {t : Node}, t.WellSpanned → (x, some p) ∈ t.iterSubtree parent →
      parent = some p ∨ (∃ q, (p, q) ∈ t.iterSubtree parent) ∧
        p.startByte ≤ x.startByte ∧ x.endByte ≤ p.endByte
  | .mk type startByte endByte startRow value namedChildren, hwell, hx => by
    have hin := subtree_inside hwell hx
    rw [Node.iterSubtree] at hx ⊢
    rcases List.mem_cons.mp hx with hx | hx
    · exact .inl (Prod.mk.inj hx).2.symm
    · rcases children_parent hwell.2.2 hx with hp | ⟨⟨q, hq⟩, hspan⟩
      · obtain rfl := Option.some.inj hp
        refine .inr ⟨⟨parent, List.mem_cons_self⟩, ?_⟩
        rcases hin with rfl | ⟨hstart, hstop, -⟩
        · exact ⟨le_refl _, le_refl _⟩
        · exact ⟨hstart, hstop⟩
      · exact .inr ⟨⟨q, List.mem_cons_of_mem _ hq⟩, hspan⟩

theorem children_parent {parent : Option Node} {x p : Node} {stop : Nat} :
    ∀ {pos : Nat} {children : List Node}, Node.ChildrenSpanned stop pos children →
      (x, some p) ∈ Node.iterChildren parent children →
      parent = some p ∨ (∃ q, (p, q) ∈ Node.iterChildren parent children) ∧
        p.startByte ≤ x.startByte ∧ x.endByte ≤ p.endByte
  | _, [], _, hx => by cases hx
  | pos, c :: rest, hspanned, hx => by
    obtain ⟨-, hwell, hrest⟩ := hspanned
    rw [Node.iterChildren] at hx ⊢
    rcases List.mem_append.mp hx with hx | hx
    · rcases children_parent hrest hx with hp | ⟨⟨q, hq⟩, hspan⟩
      · exact .inl hp
      · exact .inr ⟨⟨q, List.mem_append_left _ hq⟩, hspan⟩
    · rcases subtree_parent hwell hx with hp | ⟨⟨q, hq⟩, hspan⟩
      · exact .inl hp
      · exact .inr ⟨⟨q, List.mem_append_right _ hq⟩, hspan⟩

end

theorem mem_iterChildren {parent : Option Node} {c : Node} {children : List Node}
    (h : c ∈ children) : (c, parent) ∈ Node.iterChildren parent children := by
  induction children with
  | nil => cases h
  | cons d rest ih =>
    rw [Node.iterChildren, List.mem_append]
    rcases List.mem_cons.mp h with rfl | h
    · obtain ⟨type, startByte, endByte, startRow, value, namedChildren⟩ := c
      rw [Node.iterSubtree]
      exact .inr List.mem_cons_self
    · exact .inl (ih h)

/-- A cast or a parenthesized expression is not empty. -/
theorem startByte_lt : ∀ {t : Node}, t.WellSpanned → t.type ≠ .other → t.startByte < t.endByte
  | .mk type startByte endByte _ _ _, ⟨_, _, hchildren⟩, hopens => by
    have h := children_le hchildren
    rw [Node.type] at hopens
    rw [if_neg hopens] at h
    exact h

/-! ## The edits of a pass -/

/-- The node whose text is replaced: the parenthesis around the cast, or the cast. -/
def castTarget (n : Node) (parent : Option Node) : Node :=
  (parent.filter (·.type = .parenthesizedExpression)).getD n

/-- A cast of the tree, with the span of its operand. -/
structure IsCast (tree n : Node) (parent : Option Node) (vs ve : Nat) : Prop where
  mem : (n, parent) ∈ tree.iterSubtree none
  type : n.type = .castExpression
  value : n.value = some (vs, ve)

theorem IsCast.value_inside {tree n : Node} {parent : Option Node} {vs ve : Nat}
    (hwell : tree.WellSpanned) (h : IsCast tree n parent vs ve) :
    n.startByte ≤ vs ∧ vs ≤ ve ∧ ve ≤ n.endByte := by
  have hn := subtree_wellSpanned hwell h.mem
  have hvalue := h.value
  obtain ⟨type, startByte, endByte, startRow, value, namedChildren⟩ := n
  obtain ⟨-, hval, hchildren⟩ := hn
  obtain ⟨c, hc, hspan⟩ := hval _ hvalue
  obtain ⟨rfl, rfl⟩ := Prod.mk.inj hspan
  have hmem : (c, none) ∈ Node.iterChildren none namedChildren := mem_iterChildren hc
  obtain ⟨hpos, hstop⟩ := children_inside hchildren hmem
  have hc := startByte_le (children_wellSpanned hchildren hmem)
  have hstart : startByte ≤ c.startByte := by split at hpos <;> omega
  exact ⟨hstart, hc, hstop⟩

theorem IsCast.parent_inside {tree n p : Node} {vs ve : Nat} (hwell : tree.WellSpanned)
    (h : IsCast tree n (some p) vs ve) :
    (∃ q, (p, q) ∈ tree.iterSubtree none) ∧ p.startByte ≤ n.startByte ∧ n.endByte ≤ p.endByte := by
  rcases subtree_parent hwell h.mem with hnone | hin
  · cases hnone
  · exact hin

/-- The target of a cast is a node of the tree with its operand inside. -/
theorem IsCast.target {tree n : Node} {parent : Option Node} {vs ve : Nat}
    (hwell : tree.WellSpanned) (h : IsCast tree n parent vs ve) :
    (∃ q, (castTarget n parent, q) ∈ tree.iterSubtree none) ∧
      (castTarget n parent).type ≠ .other ∧
      (castTarget n parent).startByte ≤ vs ∧ vs ≤ ve ∧ ve ≤ (castTarget n parent).endByte := by
  have hvalue := h.value_inside hwell
  have hself : (∃ q, (n, q) ∈ tree.iterSubtree none) ∧ n.type ≠ .other ∧
      n.startByte ≤ vs ∧ vs ≤ ve ∧ ve ≤ n.endByte :=
    ⟨⟨parent, h.mem⟩, by simp [h.type], hvalue⟩
  cases parent with
  | none => exact hself
  | some p =>
    by_cases hp : p.type = .parenthesizedExpression
    · have htarget : castTarget n (some p) = p := by simp [castTarget, Option.filter, hp]
      rw [htarget]
      obtain ⟨hmem, hstart, hstop⟩ := h.parent_inside hwell
      refine ⟨hmem, by simp [hp], ?_⟩
      omega
    · have htarget : castTarget n (some p) = n := by simp [castTarget, Option.filter, hp]
      rw [htarget]
      exact hself

variable {env : Narrower} {base start : Bytes}

theorem mem_simplifyCastEdits {edit : CastEdit} (h : edit ∈ simplifyCastEdits env base start) :
    ∃ n parent vs ve, IsCast (env.parse start) n parent vs ve ∧
      edit.start = (castTarget n parent).startByte ∧ edit.stop = (castTarget n parent).endByte ∧
      edit.replacement = (start.take ve).drop vs := by
  simp only [simplifyCastEdits] at h
  split at h
  · cases h
  · rw [List.mem_insertionSort, List.mem_filterMap] at h
    obtain ⟨⟨n, parent⟩, hmem, hedit⟩ := h
    simp only [castEdit?] at hedit
    split at hedit
    · cases hedit
    · rename_i hcast
      rw [not_or, not_not, not_not] at hcast
      obtain ⟨⟨vs, ve⟩, hvalue, hedit⟩ := Option.map_eq_some_iff.mp hedit
      refine ⟨n, parent, vs, ve, ⟨hmem, hcast.1, hvalue⟩, ?_⟩
      rw [← hedit]
      exact ⟨rfl, rfl, rfl⟩

/-- Edits are tried from the last start to the first. -/
theorem tried_start_le {tried later : List CastEdit} {edit a : CastEdit}
    (h : (simplifyCastEdits env base start).reverse = tried ++ edit :: later) (ha : a ∈ tried) :
    edit.start ≤ a.start := by
  have hsorted : (simplifyCastEdits env base start).Pairwise fun a b => a.start ≤ b.start := by
    simp only [simplifyCastEdits]
    split
    · exact .nil
    · exact stableSort_sorted (fun e : CastEdit => e.start) _
  have hrev := List.pairwise_reverse.mpr hsorted
  rw [h, List.pairwise_append] at hrev
  exact hrev.2.2 a ha edit List.mem_cons_self

/-- `a` stands inside the span that `edit` replaces. -/
def CastEdit.Within (a edit : CastEdit) : Prop := edit.start ≤ a.start ∧ a.stop ≤ edit.stop

/-- An edit tried before this one stands inside it or behind it. -/
theorem tried_within_or_behind (hwell : (env.parse start).WellSpanned)
    {tried later : List CastEdit} {edit a : CastEdit}
    (h : (simplifyCastEdits env base start).reverse = tried ++ edit :: later) (ha : a ∈ tried) :
    a.Within edit ∨ edit.stop ≤ a.start := by
  have hle := tried_start_le h ha
  have hedits : ∀ e ∈ tried ++ edit :: later, e ∈ simplifyCastEdits env base start := by
    intro e he
    rw [← h] at he
    exact List.mem_reverse.mp he
  obtain ⟨n, parent, vs, ve, hcast, hstart, hstop, -⟩ := mem_simplifyCastEdits
    (hedits edit (by simp))
  obtain ⟨m, parent', vs', ve', hcast', hstart', hstop', -⟩ := mem_simplifyCastEdits
    (hedits a (List.mem_append_left _ ha))
  obtain ⟨⟨q, hq⟩, -⟩ := hcast.target hwell
  obtain ⟨⟨q', hq'⟩, hopens', -⟩ := hcast'.target hwell
  have hlt := startByte_lt (subtree_wellSpanned hwell hq') hopens'
  rw [CastEdit.Within, hstart, hstop, hstart', hstop']
  rw [hstart, hstart'] at hle
  rcases laminar_subtree hwell hq' hq with heq | hbefore | hbehind | hin | hout
  · rw [heq]
    exact .inl ⟨le_refl _, le_refl _⟩
  · omega
  · exact .inr hbehind
  · exact .inl ⟨hin.1, hin.2.1⟩
  · have := hout.2.2 hopens'
    omega

/-- What was dropped at `pos` or behind leaves the text before it as it was. -/
theorem dropAccepted_take {tried : List (CastEdit × Bool)} {pos : Nat}
    (hbehind : ∀ a, (a, true) ∈ tried → pos ≤ a.start) (hpos : pos ≤ start.length) :
    (dropAccepted start tried).take pos = start.take pos ∧
      pos ≤ (dropAccepted start tried).length := by
  induction tried generalizing start with
  | nil => exact ⟨rfl, hpos⟩
  | cons head tried ih =>
    obtain ⟨a, accepted⟩ := head
    have hrest := fun b hb => hbehind b (List.mem_cons_of_mem _ hb)
    cases accepted with
    | false => exact ih hrest hpos
    | true =>
      have ha := hbehind a List.mem_cons_self
      have hlen : pos ≤ (start.take a.start).length := by
        rw [List.length_take]
        omega
      have htake : (castTrial start a).take pos = start.take pos := by
        rw [castTrial, List.append_assoc, List.take_append_of_le_length hlen, List.take_take,
          Nat.min_eq_left ha]
      have htrial : pos ≤ (castTrial start a).length := by
        rw [castTrial, List.length_append, List.length_append]
        omega
      obtain ⟨hsame, hle⟩ := ih hrest htrial
      exact ⟨hsame.trans htake, hle⟩

/-! ## Trials -/

/-- The span of a cast: a parenthesis that encloses the cast and nothing else belongs to it. -/
def castSpan (n : Node) (parent : Option Node) : Node :=
  (parent.filter fun p => p.type = .parenthesizedExpression ∧ p.namedChildren.length = 1).getD n

/-- One cast of the tree still stands in `current` where it stood in `start`, and `trial` is
`current` with its span replaced by its operand. -/
def DropsCast (tree : Node) (start current trial : Bytes) : Prop :=
  ∃ n parent vs ve, IsCast tree n parent vs ve ∧ (castSpan n parent).endByte ≤ current.length ∧
    (current.take (castSpan n parent).endByte).drop (castSpan n parent).startByte =
      (start.take (castSpan n parent).endByte).drop (castSpan n parent).startByte ∧
    trial = current.take (castSpan n parent).startByte ++ (current.take ve).drop vs ++
      current.drop (castSpan n parent).endByte

/-- If the edit replaces a parenthesis, the cast is all that stands in it: no comment. -/
def CastEdit.Sole (tree : Node) (edit : CastEdit) : Prop :=
  ∀ p q, (p, q) ∈ tree.iterSubtree none → p.type = .parenthesizedExpression →
    p.startByte = edit.start → p.endByte = edit.stop → p.namedChildren.length = 1

theorem IsCast.span_eq {tree n : Node} {parent : Option Node} {vs ve : Nat} (hwell : tree.WellSpanned)
    (h : IsCast tree n parent vs ve) {edit : CastEdit} (hsole : edit.Sole tree)
    (hstart : edit.start = (castTarget n parent).startByte)
    (hstop : edit.stop = (castTarget n parent).endByte) : castSpan n parent = castTarget n parent := by
  cases parent with
  | none => rfl
  | some p =>
    by_cases hp : p.type = .parenthesizedExpression
    · have htarget : castTarget n (some p) = p := by simp [castTarget, Option.filter, hp]
      rw [htarget] at hstart hstop
      obtain ⟨⟨q, hq⟩, -⟩ := h.parent_inside hwell
      have hone := hsole p q hq hp hstart.symm hstop.symm
      rw [htarget]
      simp [castSpan, Option.filter, hp, hone]
    · simp [castSpan, castTarget, Option.filter, hp]

/-- The operand stands inside the span. -/
theorem IsCast.span {tree n : Node} {parent : Option Node} {vs ve : Nat} (hwell : tree.WellSpanned)
    (h : IsCast tree n parent vs ve) :
    (castSpan n parent).startByte ≤ vs ∧ vs ≤ ve ∧ ve ≤ (castSpan n parent).endByte := by
  have hvalue := h.value_inside hwell
  cases parent with
  | none => exact hvalue
  | some p =>
    by_cases hp : p.type = .parenthesizedExpression ∧ p.namedChildren.length = 1
    · have hspan : castSpan n (some p) = p := by simp [castSpan, Option.filter, hp]
      rw [hspan]
      obtain ⟨-, hstart, hstop⟩ := h.parent_inside hwell
      omega
    · have hspan : castSpan n (some p) = n := by
        rw [castSpan, Option.filter_some, if_neg (by simpa using hp)]
        rfl
      rw [hspan]
      exact hvalue

theorem DropsCast.sublist {tree : Node} (hwell : tree.WellSpanned) {current trial : Bytes}
    (h : DropsCast tree start current trial) : trial.Sublist current := by
  obtain ⟨n, parent, vs, ve, hcast, -, -, rfl⟩ := h
  obtain ⟨hstart, hle, hstop⟩ := hcast.span hwell
  generalize (castSpan n parent).startByte = first at *
  generalize (castSpan n parent).endByte = last at *
  have hmiddle : ((current.take ve).drop vs).Sublist ((current.take last).drop first) := by
    have htake : (current.take ve).Sublist (current.take last) := List.take_sublist_take_left hstop
    exact (htake.drop vs).trans (List.drop_sublist_drop_left _ hstart)
  have hsplit : current = current.take first ++ (current.take last).drop first ++
      current.drop last := by
    have htake : current.take first ++ (current.take last).drop first = current.take last := by
      have h := List.take_append_drop first (current.take last)
      rwa [List.take_take, Nat.min_eq_left (by omega)] at h
    rw [htake, List.take_append_drop]
  conv_rhs => rw [hsplit]
  exact ((List.Sublist.refl _).append hmiddle).append (List.Sublist.refl _)

theorem castTrial_dropsCast (hwell : (env.parse start).WellSpanned)
    (hfits : (env.parse start).endByte ≤ start.length) {tried later : List CastEdit}
    {edit : CastEdit}
    (h : (simplifyCastEdits env base start).reverse = tried ++ edit :: later)
    (hsole : edit.Sole (env.parse start)) {accept : List Bool}
    (hclear : ∀ a, (a, true) ∈ tried.zip accept → ¬a.Within edit) :
    DropsCast (env.parse start) start (dropAccepted start (tried.zip accept))
      (castTrial (dropAccepted start (tried.zip accept)) edit) := by
  have hmem : edit ∈ simplifyCastEdits env base start := by
    rw [← List.mem_reverse, h]
    simp
  obtain ⟨n, parent, vs, ve, hcast, hstart, hstop, hreplacement⟩ := mem_simplifyCastEdits hmem
  obtain ⟨⟨q, hq⟩, -, hvs, hle, hve⟩ := hcast.target hwell
  have hend : edit.stop ≤ start.length := by
    rw [hstop]
    rcases subtree_inside hwell hq with heq | ⟨-, hin, -⟩
    · rw [heq]
      exact hfits
    · exact hin.trans hfits
  have hbehind : ∀ a, (a, true) ∈ tried.zip accept → edit.stop ≤ a.start := by
    intro a ha
    rcases tried_within_or_behind hwell h (List.of_mem_zip ha).1 with hin | hbehind
    · exact absurd hin (hclear a ha)
    · exact hbehind
  -- nothing up to the end of the span has changed
  obtain ⟨hsame, hlength⟩ := dropAccepted_take hbehind hend
  have hslice : ((dropAccepted start (tried.zip accept)).take ve).drop vs = (start.take ve).drop vs := by
    have hve : ve ≤ edit.stop := hstop ▸ hve
    have := congrArg (fun t => (t.take ve).drop vs) hsame
    simpa only [List.take_take, Nat.min_eq_left hve] using this
  refine ⟨n, parent, vs, ve, hcast, ?_⟩
  rw [hcast.span_eq hwell hsole hstart hstop, ← hstart, ← hstop, hsame, hslice, castTrial, hreplacement]
  exact ⟨hlength, rfl, rfl⟩

theorem dropCast_current (st : NarrowState) (edit : CastEdit) {st' : NarrowState}
    (h : dropCast env st edit = .ok st') :
    ∃ accepted : Bool, st'.current = if accepted then castTrial st.current edit else st.current := by
  simp only [dropCast, attempt] at h
  split at h
  · cases h
    exact ⟨false, rfl⟩
  · split at h
    · cases h
    · cases h
      exact ⟨false, rfl⟩
    · cases h
      exact ⟨false, rfl⟩
    · split at h
      · cases h
        exact ⟨true, rfl⟩
      · cases h
        exact ⟨false, rfl⟩

/-- What a pass has made of its text before a trial is what some decisions make of it. -/
theorem dropLoop_current {tried : List CastEdit} {st st' : NarrowState}
    (h : tried.foldlM (dropCast env) st = .ok st') :
    ∃ accept : List Bool, accept.length = tried.length ∧
      st'.current = dropAccepted st.current (tried.zip accept) := by
  induction tried generalizing st with
  | nil =>
    cases h
    exact ⟨[], rfl, rfl⟩
  | cons edit tried ih =>
    rw [List.foldlM_cons, bind_ok_iff] at h
    obtain ⟨st₁, hone, hrest⟩ := h
    obtain ⟨accepted, hcurrent⟩ := dropCast_current st edit hone
    obtain ⟨accept, hlen, hlast⟩ := ih hrest
    refine ⟨accepted :: accept, by simp [hlen], ?_⟩
    rw [hlast, hcurrent]
    rfl

/-- **Casts.** A trial of a simplify pass replaces one cast that is still there by
its operand and leaves every other byte as it is, if the cast stands alone in its
parenthesis and no cast that was dropped before it in the pass stands inside it. -/
theorem trial_drops_cast (env : Narrower) (base start : Bytes)
    (hwell : (env.parse start).WellSpanned) (hfits : (env.parse start).endByte ≤ start.length)
    (tried later : List CastEdit) (edit : CastEdit)
    (h : (simplifyCastEdits env base start).reverse = tried ++ edit :: later) :
    (∀ accept : List Bool, edit.Sole (env.parse start) →
      (∀ a, (a, true) ∈ tried.zip accept → ¬a.Within edit) →
        DropsCast (env.parse start) start (dropAccepted start (tried.zip accept))
          (castTrial (dropAccepted start (tried.zip accept)) edit)) ∧
    ∀ st st', st.current = start → tried.foldlM (dropCast env) st = .ok st' →
      ∃ accept : List Bool, accept.length = tried.length ∧
        st'.current = dropAccepted start (tried.zip accept) := by
  refine ⟨fun accept hsole hclear => castTrial_dropsCast hwell hfits h hsole hclear, ?_⟩
  intro st st' hst hrun
  rw [← hst]
  exact dropLoop_current hrun

/-! ## A cast of a cast -/

def nestedBase : Bytes := ascii "int f(int y) { return y; }\n"

def nestedCasts : Bytes := ascii "int f(int y) { return ((int) (long) y); }\n"

def leaf (first last : Nat) : Node := .mk .other first last 0 none []

def nestedTree : Node :=
  .mk .other 0 42 0 none [.mk .other 0 41 0 none [leaf 0 3,
    .mk .other 4 12 0 none [leaf 4 5, .mk .other 5 12 0 none [.mk .other 6 11 0 none [leaf 6 9, leaf 10 11]]],
    .mk .other 13 41 0 none [.mk .other 15 39 0 none [.mk .parenthesizedExpression 22 38 0 none
      [.mk .castExpression 23 37 0 (some (29, 37)) [.mk .other 24 27 0 none [leaf 24 27],
        .mk .castExpression 29 37 0 (some (36, 37)) [.mk .other 30 34 0 none [leaf 30 34], leaf 36 37]]]]]]]

/-- Every trial scores as the best does. -/
def nestedNarrower : Narrower where
  sha256 _ := []
  getOpcodes := replaceAll
  parse _ := nestedTree
  outcome _ _ := .scored ⟨0, 0, 0, 0, true⟩

def innerCast : CastEdit := ⟨29, 37, ascii "y", "drop cast at line 1".toList⟩

def outerCast : CastEdit := ⟨22, 38, ascii "(long) y", "drop cast at line 1".toList⟩

theorem nested_edits :
    (simplifyCastEdits nestedNarrower nestedBase nestedCasts).reverse = [innerCast, outerCast] := by
  decide

theorem nested_wellSpanned : nestedTree.WellSpanned := by
  simp [nestedTree, leaf, Node.WellSpanned, Node.ChildrenSpanned, Node.startByte, Node.endByte]

theorem nested_sole : outerCast.Sole nestedTree := by
  have hall : ∀ x ∈ nestedTree.iterSubtree none, x.1.type = .parenthesizedExpression →
      x.1.startByte = outerCast.start → x.1.endByte = outerCast.stop → x.1.namedChildren.length = 1 := by
    decide
  exact fun p q hp => hall (p, q) hp

/-- Once the inner cast has been dropped, the trial of the outer one brings it back
and cuts off the rest of the function. -/
theorem nested_trial_corrupted :
    castTrial (dropAccepted nestedCasts [(innerCast, true)]) outerCast =
      ascii "int f(int y) \x7b return (long) y" ∧
    ¬DropsCast (nestedNarrower.parse nestedCasts) nestedCasts
      (dropAccepted nestedCasts [(innerCast, true)])
      (castTrial (dropAccepted nestedCasts [(innerCast, true)]) outerCast) := by
  refine ⟨by decide, ?_⟩
  intro h
  -- the letter `l` has left the text with the inner cast
  have hl : 108 ∈ castTrial (dropAccepted nestedCasts [(innerCast, true)]) outerCast := by decide
  have hgone : 108 ∉ dropAccepted nestedCasts [(innerCast, true)] := by decide
  exact hgone ((h.sublist nested_wellSpanned).subset hl)

/-- While the inner cast is there the outer one is dropped alone. -/
theorem nested_outer_dropped :
    (simplifyCastEdits nestedNarrower nestedBase nestedCasts).reverse = [innerCast, outerCast] ∧
    DropsCast (nestedNarrower.parse nestedCasts) nestedCasts nestedCasts
      (ascii "int f(int y) { return (long) y; }\n") := by
  refine ⟨nested_edits, ?_⟩
  have h := (trial_drops_cast nestedNarrower nestedBase nestedCasts nested_wellSpanned (by decide)
    [innerCast] [] outerCast nested_edits).1 [false] nested_sole (by simp)
  exact h

end MeleeHarness.Permute
