import MeleeHarness.Lib.C.Semantics
import Mathlib.Data.List.Forall2

/-!
# The same code with other names

Two pieces of code that differ in the names they use only, in states in which the
names that correspond are bound to the same, or are only read and have the same
contents. Whatever a step of the one does, a step of the other does as well.

* `ERel`: expressions that differ in names only;
* `agree_step`: expressions step together.
-/

namespace MeleeHarness.Lib.C

/-- Which names correspond, and which of them are only read. -/
structure NRel where
  rel : Name → Name → Prop
  ro : Name → Name → Prop

namespace NRel

/-- Where these locals are declared on both sides. -/
def under (Γ : List Name) (n : NRel) : NRel where
  rel y z := y ∈ Γ ∧ z = y ∨ y ∉ Γ ∧ z ∉ Γ ∧ n.rel y z
  ro y z := y ∉ Γ ∧ z ∉ Γ ∧ n.ro y z

def flip (n : NRel) : NRel := ⟨fun x y => n.rel y x, fun x y => n.ro y x⟩

theorem flip_under (Γ : List Name) (n : NRel) : (n.under Γ).flip = n.flip.under Γ := by
  simp only [flip, under, NRel.mk.injEq]
  constructor
  · funext y z
    refine propext ⟨?_, ?_⟩
    · rintro (⟨hz, rfl⟩ | ⟨hz, hy, hrel⟩)
      · exact .inl ⟨hz, rfl⟩
      · exact .inr ⟨hy, hz, hrel⟩
    · rintro (⟨hy, rfl⟩ | ⟨hy, hz, hrel⟩)
      · exact .inl ⟨hy, rfl⟩
      · exact .inr ⟨hz, hy, hrel⟩
  · funext y z
    exact propext ⟨fun ⟨hz, hy, hro⟩ => ⟨hy, hz, hro⟩, fun ⟨hy, hz, hro⟩ => ⟨hz, hy, hro⟩⟩

end NRel

/-- The names in the place that a node stores to or takes the address of. -/
def headBase (children : List Expr) : Option Name := children.head?.bind Expr.placeBase

/-- Expressions that differ in corresponding names only, and store to no name that is
only read, nor take its address. -/
inductive ERel (n : NRel) : Expr → Expr → Prop
  | val (v : Val) : ERel n (.val v) (.val v)
  | ident {x y : Name} : n.rel x y → ERel n (.ident x) (.ident y)
  | node {k : Kind} {xs ys : List Expr} : List.Forall₂ (ERel n) xs ys →
      (k.grabs = true → ∀ x y, headBase xs = some x → headBase ys = some y → ¬n.ro x y) →
      ERel n (.node k xs) (.node k ys)

/-- What a binding holds; a value is held as an object without a type. -/
def content (m : Mem) : Option Binding → Option Obj
  | some (.reg o) => some o
  | some (.mem b) => m b
  | some (.const v) => some ⟨[], scalarCells v⟩
  | none => none

def cells (m : Mem) (b : Option Binding) : Option (Int → Option Val) := (content m b).map Obj.cells

/-- Bindings of two names that correspond. -/
structure Matched (m : Mem) (ro : Prop) (a b : Option Binding) : Prop where
  same : ¬ro → a = b
  copy : ro → cells m a = cells m b

structure Agree (M : Machine) (n : NRel) (s t : State) : Prop where
  mem : s.mem = t.mem
  names : ∀ x y, n.rel x y → Matched s.mem (n.ro x y) (M.look s.locals x) (M.look t.locals y)

/-- Both states change in the same way: in memory, or in the objects of two names
that correspond. -/
inductive Paired (M : Machine) (n : NRel) (s t : State) : State → State → Prop
  | mem (m : Mem) : Paired M n s t ⟨s.locals, m⟩ ⟨t.locals, m⟩
  | reg {x y : Name} {o : Obj} (o' : Obj) : n.rel x y → ¬n.ro x y →
      M.look s.locals x = some (.reg o) →
      Paired M n s t ⟨setReg x o' s.locals, s.mem⟩ ⟨setReg y o' t.locals, t.mem⟩

theorem Paired.refl {M : Machine} {n : NRel} {s t : State} (h : s.mem = t.mem) :
    Paired M n s t s t := by
  obtain ⟨l, m⟩ := s
  obtain ⟨l', m'⟩ := t
  cases h
  exact .mem m

/-! ## Either side first -/

theorem ERel.flip {n : NRel} {e e' : Expr} (h : ERel n e e') : ERel n.flip e' e := by
  induction e generalizing e' with
  | val v =>
    cases h
    exact .val v
  | ident x =>
    cases h with
    | ident hx => exact .ident hx
  | node k xs ih =>
    cases h with
    | @node k xs ys hs hgrab =>
      refine .node ?_ fun hk x y hx hy => hgrab hk y x hy hx
      clear hgrab
      induction hs with
      | nil => exact .nil
      | @cons x y xs ys hxy _ ihs =>
        exact .cons (ih x List.mem_cons_self hxy)
          (ihs fun c hc => ih c (List.mem_cons_of_mem _ hc))

theorem Agree.flip {M : Machine} {n : NRel} {s t : State} (h : Agree M n s t) :
    Agree M n.flip t s where
  mem := h.mem.symm
  names x y hrel := by
    obtain ⟨hsame, hcopy⟩ := h.names y x hrel
    refine ⟨fun hro => (hsame hro).symm, fun hro => ?_⟩
    rw [← h.mem]
    exact (hcopy hro).symm

/-- Both sides of `Paired`, where the names are bound to the same. -/
theorem Paired.flip {M : Machine} {n : NRel} {s t s' t' : State} (agree : Agree M n s t)
    (h : Paired M n s t s' t') : Paired M n.flip t s t' s' := by
  cases h with
  | mem m => exact .mem m
  | reg o' hrel hro hlook => exact .reg o' hrel hro ((agree.names _ _ hrel).same hro ▸ hlook)

theorem forall₂_rename {n : NRel} {σ : Name → Name} {es : List Expr}
    (h : ∀ e ∈ es, ERel n e (e.rename σ)) : List.Forall₂ (ERel n) es (Expr.renameAll σ es) := by
  induction es with
  | nil => exact .nil
  | cons e es ih =>
    exact .cons (h e List.mem_cons_self) (ih fun c hc => h c (List.mem_cons_of_mem _ hc))

/-- An expression corresponds to itself with other names, if these correspond and it
stores to none of those that are only read. -/
theorem ERel.rename {n : NRel} {σ : Name → Name} {e : Expr} (hrel : ∀ x ∈ e.names, n.rel x (σ x))
    (hgrab : ∀ k children, .node k children ∈ e.iterSubtree → k.grabs = true →
      ∀ x, headBase children = some x → ¬n.ro x (σ x)) : ERel n e (e.rename σ) := by
  induction e with
  | val v => exact .val v
  | ident x => exact .ident (hrel x (by simp [Expr.names, Expr.iterSubtree, Expr.ident?]))
  | node k children ih =>
    refine .node (forall₂_rename fun c hc => ih c hc ?_ ?_) fun hk x y hx hy => ?_
    · intro x hx
      obtain ⟨d, hd, hx⟩ := List.mem_filterMap.mp hx
      exact hrel x (List.mem_filterMap.mpr ⟨d, mem_iterSubtree_child hc hd, hx⟩)
    · intro k' children' hnode
      exact hgrab k' children' (mem_iterSubtree_child hc hnode)
    · have hy' : headBase (Expr.renameAll σ children) = some (σ x) := by
        cases children with
        | nil => cases hx
        | cons c rest =>
          have hbase := placeBase_rename σ c
          simp only [headBase, List.head?_cons, Option.bind_some] at hx
          rw [hx] at hbase
          exact hbase
      rw [hy'] at hy
      cases hy
      exact hgrab k children (mem_iterSubtree_self _) hk x hx

theorem rename_id (e : Expr) : e.rename id = e := by
  induction e with
  | val | ident => rfl
  | node k children ih =>
    rw [Expr.rename]
    congr 1
    induction children with
    | nil => rfl
    | cons c rest ihs =>
      rw [Expr.renameAll, ih c List.mem_cons_self,
        ihs fun d hd => ih d (List.mem_cons_of_mem _ hd)]

theorem ERel.diag {n : NRel} {e : Expr} (hrel : ∀ x ∈ e.names, n.rel x x)
    (hgrab : ∀ k children, .node k children ∈ e.iterSubtree → k.grabs = true →
      ∀ x, headBase children = some x → ¬n.ro x x) : ERel n e e := by
  have h := ERel.rename (σ := id) hrel hgrab
  rwa [rename_id] at h

/-! ## Places -/

section
variable {M : Machine} {n : NRel} {s t : State} {e e' : Expr}

theorem ERel.child {k : Kind} (h : ERel n (.node k [e]) e') :
    ∃ c, e' = .node k [c] ∧ ERel n e c := by
  cases h with
  | node hs _ =>
    obtain ⟨c, rest, hc, hrest, rfl⟩ := List.forall₂_cons_left_iff.mp hs
    cases hrest
    exact ⟨c, rfl, hc⟩

theorem ERel.of_val {v : Val} (h : ERel n (.val v) e') : e' = .val v := by
  cases h
  rfl

/-- A place is part of corresponding variables, or of none on either side. -/
theorem ERel.placeBase (h : ERel n e e') :
    (e.placeBase = none ∧ e'.placeBase = none) ∨
      ∃ x y, e.placeBase = some x ∧ e'.placeBase = some y ∧ n.rel x y := by
  induction e using Expr.placeBase.induct generalizing e' with
  | case1 x =>
    cases h with
    | ident hx => exact .inr ⟨_, _, rfl, rfl, hx⟩
  | case2 f e ih =>
    obtain ⟨c, rfl, hc⟩ := h.child
    simpa only [Expr.placeBase] using ih hc
  | case3 e ih =>
    obtain ⟨c, rfl, hc⟩ := h.child
    simpa only [Expr.placeBase] using ih hc
  | case4 e hident hfield hparen =>
    have hnone : e.placeBase = none := by
      rw [Expr.placeBase] <;> assumption
    have hnone' : e'.placeBase = none := by
      cases h with
      | val => rfl
      | ident => exact absurd rfl (hident _)
      | node hs _ =>
        rw [Expr.placeBase]
        · simp
        · rintro f c heq
          cases heq
          obtain ⟨d, rest, -, hrest, rfl⟩ := List.forall₂_cons_right_iff.mp hs
          cases hrest
          exact hfield _ _ rfl
        · rintro c heq
          cases heq
          obtain ⟨d, rest, -, hrest, rfl⟩ := List.forall₂_cons_right_iff.mp hs
          cases hrest
          exact hparen _ rfl
    exact .inl ⟨hnone, hnone'⟩

/-- How far into its variable a place is. -/
def Machine.displacement (M : Machine) : Expr → Int
  | .node (.field f) [e] => displacement M e + M.offset f
  | .node .parenthesized [e] => displacement M e
  | _ => 0

/-- The place in a variable, where its binding is an object. -/
def placeIn (x : Name) (off : Int) : Option Binding → Option Place
  | some (.reg _) => some (.reg x off)
  | some (.mem b) => some (.mem b off)
  | some (.const v) => some (.const v off)
  | none => none

theorem placeOf_base {l : List Scope} {x : Name} (h : e.placeBase = some x) :
    M.placeOf l e = placeIn x (M.displacement e) (M.look l x) := by
  induction e using Expr.placeBase.induct with
  | case1 y =>
    cases h
    rw [Machine.placeOf]
    cases M.look l x with
    | none => rfl
    | some b => cases b <;> rfl
  | case2 f e ih =>
    rw [Expr.placeBase] at h
    rw [Machine.placeOf, ih h, Machine.displacement]
    cases M.look l x with
    | none => rfl
    | some b => cases b <;> rfl
  | case3 e ih =>
    rw [Expr.placeBase] at h
    rw [Machine.placeOf, ih h, Machine.displacement]
  | case4 e hident hfield hparen =>
    rw [Expr.placeBase] at h <;> first | assumption | cases h

theorem ERel.displacement (h : ERel n e e') (M : Machine) {x : Name} (hx : e.placeBase = some x) :
    M.displacement e = M.displacement e' := by
  induction e using Expr.placeBase.induct generalizing e' with
  | case1 y =>
    cases h
    rfl
  | case2 f e ih =>
    obtain ⟨c, rfl, hc⟩ := h.child
    rw [Machine.displacement, Machine.displacement, ih hc hx]
  | case3 e ih =>
    obtain ⟨c, rfl, hc⟩ := h.child
    rw [Machine.displacement, Machine.displacement, ih hc hx]
  | case4 e hident hfield hparen =>
    rw [Expr.placeBase] at hx <;> first | assumption | cases hx

theorem ERel.val? (h : ERel n e e') : e.val? = e'.val? := by
  cases h with
  | val | ident | node => rfl

theorem target_mem {v : Val} {d : Int} {p : Place} (h : v.target d = some p) :
    ∃ b off, p = .mem b off := by
  cases v with
  | ptr b off =>
    cases h
    exact ⟨b, _, rfl⟩
  | int | fn => cases h

/-- A place in no variable is in memory, and the same on both sides. -/
theorem ERel.placeOf_none (h : ERel n e e') (hbase : e.placeBase = none) (l l' : List Scope) :
    M.placeOf l e = M.placeOf l' e' ∧ ∀ p, M.placeOf l e = some p → ∃ b off, p = .mem b off := by
  induction e using Expr.placeBase.induct generalizing e' with
  | case1 x => cases hbase
  | case2 f e ih =>
    obtain ⟨c, rfl, hc⟩ := h.child
    obtain ⟨heq, hmem⟩ := ih hc hbase
    refine ⟨by rw [Machine.placeOf, Machine.placeOf, heq], ?_⟩
    intro p hp
    obtain ⟨q, hq, rfl⟩ := Option.map_eq_some_iff.mp hp
    obtain ⟨b, off, rfl⟩ := hmem q hq
    exact ⟨b, _, rfl⟩
  | case3 e ih =>
    obtain ⟨c, rfl, hc⟩ := h.child
    simpa only [Machine.placeOf] using ih hc hbase
  | case4 e hident hfield hparen =>
    cases h with
    | val => exact ⟨rfl, fun p hp => by cases hp⟩
    | ident => exact absurd rfl (hident _)
    | @node k xs ys hs hgrab =>
      cases k with
      | field f =>
        cases hs with
        | nil => exact ⟨rfl, fun p hp => by cases hp⟩
        | @cons x y _ _ _ hrest =>
          cases hrest with
          | nil => exact absurd rfl (hfield f x)
          | cons => exact ⟨rfl, fun p hp => by cases hp⟩
      | parenthesized =>
        cases hs with
        | nil => exact ⟨rfl, fun p hp => by cases hp⟩
        | @cons x y _ _ _ hrest =>
          cases hrest with
          | nil => exact absurd rfl (hparen x)
          | cons => exact ⟨rfl, fun p hp => by cases hp⟩
      | deref =>
        cases hs with
        | nil => exact ⟨rfl, fun p hp => by cases hp⟩
        | @cons x y _ _ hx hrest =>
          cases hrest with
          | nil =>
              refine ⟨by rw [Machine.placeOf, Machine.placeOf, hx.val?], ?_⟩
              intro p hp
              obtain ⟨v, -, hv⟩ := Option.bind_eq_some_iff.mp hp
              exact target_mem hv
          | cons => exact ⟨rfl, fun p hp => by cases hp⟩
      | arrow f =>
        cases hs with
        | nil => exact ⟨rfl, fun p hp => by cases hp⟩
        | @cons x y _ _ hx hrest =>
          cases hrest with
          | nil =>
              refine ⟨by rw [Machine.placeOf, Machine.placeOf, hx.val?], ?_⟩
              intro p hp
              obtain ⟨v, -, hv⟩ := Option.bind_eq_some_iff.mp hp
              exact target_mem hv
          | cons => exact ⟨rfl, fun p hp => by cases hp⟩
      | subscript =>
        cases hs with
        | nil => exact ⟨rfl, fun p hp => by cases hp⟩
        | cons hx hrest =>
          cases hrest with
          | nil => exact ⟨rfl, fun p hp => by cases hp⟩
          | cons hi hrest =>
            cases hrest with
            | nil =>
              refine ⟨by rw [Machine.placeOf, Machine.placeOf, hx.val?, hi.val?], ?_⟩
              intro p hp
              obtain ⟨d, -, hd⟩ := Option.bind_eq_some_iff.mp hp
              obtain ⟨v, -, hv⟩ := Option.bind_eq_some_iff.mp hd
              exact target_mem hv
            | cons => exact ⟨rfl, fun p hp => by cases hp⟩
      | unary | binary | conditional | comma | assignment | update | addressOf | cast | sizeof
      | call => exact ⟨rfl, fun p hp => by cases hp⟩

/-- What is read at a place in a variable is a scalar of its contents. -/
theorem load_base {x : Name} (hx : e.placeBase = some x) {v : Val} :
    (∃ p, M.placeOf s.locals e = some p ∧ M.load s p = some v) ↔
      ∃ c, cells s.mem (M.look s.locals x) = some c ∧ c (M.displacement e) = some v := by
  rw [placeOf_base hx]
  cases hlook : M.look s.locals x with
  | none => simp [placeIn, cells, content]
  | some b =>
    cases b with
    | reg o => simp [placeIn, cells, content, Machine.load, hlook]
    | mem b => simp [placeIn, cells, content, Machine.load, Option.bind_eq_some_iff]
    | const v => simp [placeIn, cells, content, Machine.load]

theorem Matched.cells {m : Mem} {ro : Prop} {a b : Option Binding} (h : Matched m ro a b) :
    C.cells m a = C.cells m b := by
  by_cases hro : ro
  · exact h.copy hro
  · rw [h.same hro]

/-- Corresponding expressions read the same. -/
theorem ERel.read (h : ERel n e e') (agree : Agree M n s t) {p : Place} {v : Val}
    (hp : M.placeOf s.locals e = some p) (hv : M.load s p = some v) :
    ∃ q, M.placeOf t.locals e' = some q ∧ M.load t q = some v := by
  rcases h.placeBase with ⟨hnone, -⟩ | ⟨x, y, hx, hy, hrel⟩
  · obtain ⟨heq, hmem⟩ := h.placeOf_none hnone s.locals t.locals
    obtain ⟨b, off, rfl⟩ := hmem p hp
    refine ⟨.mem b off, heq ▸ hp, ?_⟩
    rw [Machine.load] at hv ⊢
    rwa [← agree.mem]
  · obtain ⟨c, hc, hcell⟩ := (load_base hx).mp ⟨p, hp, hv⟩
    refine (load_base hy).mpr ⟨c, ?_, ?_⟩
    · rw [← agree.mem, ← (agree.names x y hrel).cells]
      exact hc
    · rw [← h.displacement M hx]
      exact hcell

/-! ## Stores -/

/-- The same place: in memory, or in the objects of names that correspond. -/
inductive PlacePair (M : Machine) (n : NRel) (s t : State) : Place → Place → Prop
  | mem (b : Block) (off : Int) : PlacePair M n s t (.mem b off) (.mem b off)
  | const (v : Val) (off : Int) : PlacePair M n s t (.const v off) (.const v off)
  | reg {x y : Name} {o : Obj} (off : Int) : n.rel x y → ¬n.ro x y →
      M.look s.locals x = some (.reg o) → M.look t.locals y = some (.reg o) →
      PlacePair M n s t (.reg x off) (.reg y off)

/-- Corresponding expressions denote the same place, if it is not of a name that is
only read. -/
theorem ERel.grab (h : ERel n e e') (agree : Agree M n s t)
    (hro : ∀ x y, e.placeBase = some x → e'.placeBase = some y → ¬n.ro x y) {p : Place}
    (hp : M.placeOf s.locals e = some p) :
    ∃ q, M.placeOf t.locals e' = some q ∧ PlacePair M n s t p q := by
  rcases h.placeBase with ⟨hnone, -⟩ | ⟨x, y, hx, hy, hrel⟩
  · obtain ⟨heq, hmem⟩ := h.placeOf_none hnone s.locals t.locals
    obtain ⟨b, off, rfl⟩ := hmem p hp
    exact ⟨_, heq ▸ hp, .mem b off⟩
  · have hsame := (agree.names x y hrel).same (hro x y hx hy)
    rw [placeOf_base hx] at hp
    rw [placeOf_base hy, ← h.displacement M hx, ← hsame]
    cases hlook : M.look s.locals x with
    | none => simp [placeIn, hlook] at hp
    | some b =>
      rw [hlook] at hp
      cases b with
      | reg o =>
        cases hp
        exact ⟨_, rfl, .reg _ hrel (hro x y hx hy) hlook (hsame ▸ hlook)⟩
      | mem b =>
        cases hp
        exact ⟨_, rfl, .mem b _⟩
      | const v =>
        cases hp
        exact ⟨_, rfl, .const v _⟩

theorem PlacePair.load {p q : Place} (h : PlacePair M n s t p q) (hmem : s.mem = t.mem) :
    M.load s p = M.load t q := by
  cases h with
  | mem b off => rw [Machine.load, Machine.load, hmem]
  | const v off => rfl
  | reg off hrel hro hx hy => simp only [Machine.load, hx, hy]

theorem PlacePair.address {p q : Place} (h : PlacePair M n s t p q) : p.address = q.address := by
  cases h with
  | mem | const | reg => rfl

theorem PlacePair.store {p q : Place} (h : PlacePair M n s t p q) (hmem : s.mem = t.mem)
    {v w : Val} {s' : State} (hs : M.store s p v = some (s', w)) :
    ∃ t', M.store t q v = some (t', w) ∧ Paired M n s t s' t' := by
  cases h with
  | mem b off =>
    rw [Machine.store, Option.bind_eq_some_iff] at hs
    obtain ⟨o, ho, hs⟩ := hs
    obtain ⟨⟨o', w'⟩, hstore, hs⟩ := Option.map_eq_some_iff.mp hs
    obtain ⟨rfl, rfl⟩ := Prod.mk.inj hs
    refine ⟨_, ?_, .mem _⟩
    rw [Machine.store, ← hmem, ho]
    simp [hstore]
  | const => cases hs
  | @reg x y o off hrel hro hx hy =>
    rw [Machine.store, hx] at hs
    obtain ⟨⟨o', w'⟩, hstore, hs⟩ := Option.map_eq_some_iff.mp hs
    obtain ⟨rfl, rfl⟩ := Prod.mk.inj hs
    refine ⟨_, ?_, .reg o' hrel hro hx⟩
    rw [Machine.store, hy]
    simp [hstore]

theorem PlacePair.modify {p q : Place} (h : PlacePair M n s t p q) (hmem : s.mem = t.mem)
    {f : Val → Option Val} {old w : Val} {s' : State} (hs : M.modify s p f = some (old, w, s')) :
    ∃ t', M.modify t q f = some (old, w, t') ∧ Paired M n s t s' t' := by
  simp only [Machine.modify, Option.bind_eq_bind, Option.bind_eq_some_iff, Option.pure_def,
    Option.some.injEq, Prod.mk.injEq] at hs
  obtain ⟨old', hload, new, hnew, ⟨s₁, w'⟩, hstore, rfl, rfl, rfl⟩ := hs
  obtain ⟨t', hstore', hpaired⟩ := h.store hmem hstore
  refine ⟨t', ?_, hpaired⟩
  simp [Machine.modify, ← h.load hmem, hload, hnew, hstore']

/-! ## Steps -/

theorem ERel.conditional {a b c d f g : Expr} (ha : ERel n a d) (hb : ERel n b f)
    (hc : ERel n c g) : ERel n (.node .conditional [a, b, c]) (.node .conditional [d, f, g]) :=
  .node (.cons ha (.cons hb (.cons hc .nil))) (by simp [Kind.grabs])

theorem length_one {α : Type} {ys : List α} (h : 1 = ys.length) : ∃ y, ys = [y] := by
  match ys, h with
  | [y], _ => exact ⟨y, rfl⟩

theorem length_two {α : Type} {ys : List α} (h : 2 = ys.length) : ∃ y z, ys = [y, z] := by
  match ys, h with
  | [y, z], _ => exact ⟨y, z, rfl⟩

theorem length_three {α : Type} {ys : List α} (h : 3 = ys.length) : ∃ y z u, ys = [y, z, u] := by
  match ys, h with
  | [y, z, u], _ => exact ⟨y, z, u, rfl⟩

/-- Operands that are as good as others: what a node needs of them is the same, and what it
may leave of them is related. -/
structure Operands (M : Machine) (n : NRel) (s t : State) (R : Expr → Expr → Prop) (k : Kind)
    (xs ys : List Expr) : Prop where
  length : xs.length = ys.length
  left : ∀ i x y, k.use .value i = .value → xs[i]? = some x → ys[i]? = some y → R x y
  vals : ∀ i x y v, k.evaluates i = true → k.use .value i = .value → xs[i]? = some x →
    ys[i]? = some y → x.val? = some v → y.val? = some v
  grab : ∀ x y p, k.grabs = true → xs[0]? = some x → ys[0]? = some y →
    M.placeOf s.locals x = some p → ∃ q, M.placeOf t.locals y = some q ∧ PlacePair M n s t p q

/-- A node is evaluated alike over such operands. -/
theorem Operands.reduce {R : Expr → Expr → Prop} {k : Kind} {xs ys : List Expr} {s' : State}
    (h : Operands M n s t R k xs ys) (hmem : s.mem = t.mem) (hval : ∀ v, R (.val v) (.val v))
    (hflag : ∀ a b, R a b → R (.node .conditional [a, .val (.int 1), .val (.int 0)])
      (.node .conditional [b, .val (.int 1), .val (.int 0)]))
    (hstep : M.reduce s k xs = some (e, s')) :
    ∃ e' t', M.reduce t k ys = some (e', t') ∧ R e e' ∧ Paired M n s t s' t' := by
  have hrefl : Paired M n s t s t := .refl hmem
  have hlength := h.length
  -- one case for each kind of node
  unfold Machine.reduce at hstep
  split at hstep
  case h_12 =>
    cases hstep
    exact ⟨_, t, by simp [Machine.reduce], hval _, hrefl⟩
  case h_14 => cases hstep
  all_goals
    simp only [Option.bind_eq_bind, Option.bind_eq_some_iff, Option.pure_def, Option.some.injEq,
      Prod.mk.injEq] at hstep
  case h_1 x =>
    obtain ⟨y, rfl⟩ := length_one hlength
    obtain ⟨v, hv, w, hw, rfl, rfl⟩ := hstep
    have hy := h.vals 0 x y v rfl rfl rfl rfl hv
    exact ⟨.val w, t, by simp [Machine.reduce, hy, hw], hval w, hrefl⟩
  case h_2 x x' =>
    obtain ⟨y, y', rfl⟩ := length_two hlength
    obtain ⟨v, hv, w, hw, u, hu, rfl, rfl⟩ := hstep
    have hy := h.vals 0 x y v rfl rfl rfl rfl hv
    have hy' := h.vals 1 x' y' w rfl rfl rfl rfl hw
    exact ⟨.val u, t, by simp [Machine.reduce, hy, hy', hu], hval u, hrefl⟩
  case h_3 x x' =>
    obtain ⟨y, y', rfl⟩ := length_two hlength
    obtain ⟨v, hv, b, hb, rfl, rfl⟩ := hstep
    have hy := h.vals 0 x y v rfl rfl rfl rfl hv
    cases b with
    | true =>
      exact ⟨_, t, by simp [Machine.reduce, hy, hb], hflag _ _ (h.left 1 x' y' rfl rfl rfl), hrefl⟩
    | false => exact ⟨_, t, by simp [Machine.reduce, hy, hb], hval _, hrefl⟩
  case h_4 x x' =>
    obtain ⟨y, y', rfl⟩ := length_two hlength
    obtain ⟨v, hv, b, hb, rfl, rfl⟩ := hstep
    have hy := h.vals 0 x y v rfl rfl rfl rfl hv
    cases b with
    | true => exact ⟨_, t, by simp [Machine.reduce, hy, hb], hval _, hrefl⟩
    | false =>
      exact ⟨_, t, by simp [Machine.reduce, hy, hb], hflag _ _ (h.left 1 x' y' rfl rfl rfl), hrefl⟩
  case h_5 x x' x'' =>
    obtain ⟨y, y', y'', rfl⟩ := length_three hlength
    obtain ⟨v, hv, b, hb, rfl, rfl⟩ := hstep
    have hy := h.vals 0 x y v rfl rfl rfl rfl hv
    cases b with
    | true => exact ⟨y', t, by simp [Machine.reduce, hy, hb], h.left 1 x' y' rfl rfl rfl, hrefl⟩
    | false =>
      exact ⟨y'', t, by simp [Machine.reduce, hy, hb], h.left 2 x'' y'' rfl rfl rfl, hrefl⟩
  case h_6 x x' =>
    obtain ⟨y, y', rfl⟩ := length_two hlength
    obtain ⟨v, hv, rfl, rfl⟩ := hstep
    have hy := h.vals 0 x y v rfl rfl rfl rfl hv
    exact ⟨y', t, by simp [Machine.reduce, hy], h.left 1 x' y' rfl rfl rfl, hrefl⟩
  case h_7 x x' =>
    obtain ⟨y, y', rfl⟩ := length_two hlength
    obtain ⟨v, hv, p, hp, ⟨s₁, w⟩, hw, rfl, rfl⟩ := hstep
    have hy' := h.vals 1 x' y' v rfl rfl rfl rfl hv
    obtain ⟨q, hq, hpair⟩ := h.grab x y p rfl rfl rfl hp
    obtain ⟨t', hstore, hpaired⟩ := hpair.store hmem hw
    exact ⟨.val w, t', by simp [Machine.reduce, hy', hq, hstore], hval w, hpaired⟩
  case h_8 op x x' =>
    obtain ⟨y, y', rfl⟩ := length_two hlength
    obtain ⟨v, hv, p, hp, ⟨old, w, s₁⟩, hw, rfl, rfl⟩ := hstep
    have hy' := h.vals 1 x' y' v rfl rfl rfl rfl hv
    obtain ⟨q, hq, hpair⟩ := h.grab x y p rfl rfl rfl hp
    obtain ⟨t', hmodify, hpaired⟩ := hpair.modify hmem hw
    exact ⟨.val w, t', by simp [Machine.reduce, hy', hq, hmodify], hval w, hpaired⟩
  case h_9 before op x =>
    obtain ⟨y, rfl⟩ := length_one hlength
    obtain ⟨p, hp, ⟨old, w, s₁⟩, hw, rfl, rfl⟩ := hstep
    obtain ⟨q, hq, hpair⟩ := h.grab x y p rfl rfl rfl hp
    obtain ⟨t', hmodify, hpaired⟩ := hpair.modify hmem hw
    exact ⟨_, t', by simp [Machine.reduce, hq, hmodify], hval _, hpaired⟩
  case h_10 x =>
    obtain ⟨y, rfl⟩ := length_one hlength
    obtain ⟨p, hp, a, ha, rfl, rfl⟩ := hstep
    obtain ⟨q, hq, hpair⟩ := h.grab x y p rfl rfl rfl hp
    exact ⟨.val a, t, by simp [Machine.reduce, hq, ← hpair.address, ha], hval a, hrefl⟩
  case h_11 ty x =>
    obtain ⟨y, rfl⟩ := length_one hlength
    obtain ⟨v, hv, w, hw, rfl, rfl⟩ := hstep
    have hy := h.vals 0 x y v rfl rfl rfl rfl hv
    exact ⟨.val w, t, by simp [Machine.reduce, hy, hw], hval w, hrefl⟩
  case h_13 x =>
    obtain ⟨y, rfl⟩ := length_one hlength
    obtain ⟨v, hv, rfl, rfl⟩ := hstep
    have hy := h.vals 0 x y v rfl rfl rfl rfl hv
    exact ⟨.val v, t, by simp [Machine.reduce, hy], hval v, hrefl⟩

theorem agree_reduce {k : Kind} {xs ys : List Expr} (hs : List.Forall₂ (ERel n) xs ys)
    (hgrab : k.grabs = true → ∀ x y, headBase xs = some x → headBase ys = some y → ¬n.ro x y)
    (agree : Agree M n s t) {s' : State} (hstep : M.reduce s k xs = some (e, s')) :
    ∃ e' t', M.reduce t k ys = some (e', t') ∧ ERel n e e' ∧ Paired M n s t s' t' := by
  have hall : ∀ (i : Nat) (x y : Expr), xs[i]? = some x → ys[i]? = some y → ERel n x y := by
    intro i x y hx hy
    obtain ⟨hi, rfl⟩ := List.getElem?_eq_some_iff.mp hx
    obtain ⟨hi', rfl⟩ := List.getElem?_eq_some_iff.mp hy
    exact hs.get hi hi'
  have hoperands : Operands M n s t (ERel n) k xs ys := by
    refine ⟨hs.length_eq, fun i x y _ => hall i x y, ?_, ?_⟩
    · intro i x y v _ _ hx hy hv
      rw [← (hall i x y hx hy).val?, hv]
    · intro x y p hk hx hy hp
      refine (hall 0 x y hx hy).grab agree ?_ hp
      intro a b ha hb
      refine hgrab hk a b ?_ ?_
      · rw [headBase, List.head?_eq_getElem?, hx]
        exact ha
      · rw [headBase, List.head?_eq_getElem?, hy]
        exact hb
  exact hoperands.reduce agree.mem .val (fun a b h => h.conditional (.val _) (.val _)) hstep

/-- Evaluating what a place depends on does not change the variable it is part of. -/
theorem step_placeBase {μ : Mode} {s' : State} (h : Step M μ e s e' s') (hμ : μ = .place) :
    e'.placeBase = e.placeBase := by
  induction h with
  | read | reduce | call => cases hμ
  | @inside μ k pre post e e' s s' hdue hstep ih =>
    cases pre with
    | cons x pre =>
      cases k with
      | field | parenthesized | unary | binary | conditional | comma | assignment | update
      | addressOf | deref | arrow | subscript | cast | sizeof | call =>
        cases pre <;> rfl
    | nil =>
      cases post with
      | cons x post =>
        cases k with
        | field | parenthesized | unary | binary | conditional | comma | assignment | update
        | addressOf | deref | arrow | subscript | cast | sizeof | call => rfl
      | nil =>
        cases k with
        | field f => exact ih rfl
        | parenthesized => exact ih hμ
        | unary | binary | conditional | comma | assignment | update | addressOf | deref | arrow
        | subscript | cast | sizeof | call => rfl

theorem forall₂_vals {args : List Val} {ys : List Expr}
    (h : List.Forall₂ (ERel n) (args.map .val) ys) : ys = args.map .val := by
  induction args generalizing ys with
  | nil =>
    cases h
    rfl
  | cons v args ih =>
    obtain ⟨y, rest, hy, hrest, rfl⟩ := List.forall₂_cons_left_iff.mp h
    rw [hy.of_val, ih hrest]
    rfl

theorem forall₂_split {R : Expr → Expr → Prop} {pre post ys : List Expr} {a : Expr}
    (h : List.Forall₂ R (pre ++ a :: post) ys) :
    ∃ pre' b post', ys = pre' ++ b :: post' ∧ List.Forall₂ R pre pre' ∧ R a b ∧
      List.Forall₂ R post post' := by
  induction pre generalizing ys with
  | nil =>
    obtain ⟨b, post', hb, hpost, rfl⟩ := List.forall₂_cons_left_iff.mp h
    exact ⟨[], b, post', rfl, .nil, hb, hpost⟩
  | cons x pre ih =>
    obtain ⟨y, rest, hy, hrest, rfl⟩ := List.forall₂_cons_left_iff.mp h
    obtain ⟨pre', b, post', rfl, hpre, hb, hpost⟩ := ih hrest
    exact ⟨y :: pre', b, post', rfl, .cons hy hpre, hb, hpost⟩

theorem forall₂_join {R : Expr → Expr → Prop} {pre pre' post post' : List Expr} {a b : Expr}
    (hpre : List.Forall₂ R pre pre') (hb : R a b) (hpost : List.Forall₂ R post post') :
    List.Forall₂ R (pre ++ a :: post) (pre' ++ b :: post') := by
  induction hpre with
  | nil => exact .cons hb hpost
  | cons h _ ih => exact .cons h ih

theorem grabs_use {k : Kind} (h : k.grabs = true) (μ : Mode) : k.use μ 0 = .place := by
  cases k with
  | assignment | update | addressOf => rfl
  | field | parenthesized | unary | binary | conditional | comma | deref | arrow | subscript | cast
  | sizeof | call => cases h

/-- Corresponding expressions step together. -/
theorem agree_step {μ : Mode} {s' : State} {f : Expr} (hstep : Step M μ e s e' s')
    (h : ERel n e f) (agree : Agree M n s t) :
    ∃ f' t', Step M μ f t f' t' ∧ ERel n e' f' ∧ Paired M n s t s' t' := by
  induction hstep generalizing f with
  | read hp hv =>
    obtain ⟨q, hq, hload⟩ := h.read agree hp hv
    exact ⟨_, t, .read hq hload, .val _, .refl agree.mem⟩
  | reduce hred =>
    cases h with
    | node hs hgrab =>
      obtain ⟨f', t', hred', hrel, hpaired⟩ := agree_reduce hs hgrab agree hred
      exact ⟨f', t', .reduce hred', hrel, hpaired⟩
  | call hcall =>
    cases h with
    | node hs hgrab =>
      obtain ⟨y, rest, hy, hrest, rfl⟩ := List.forall₂_cons_left_iff.mp hs
      rw [hy.of_val, forall₂_vals hrest]
      rw [agree.mem] at hcall
      exact ⟨_, _, .call hcall, .val _, .mem _⟩
  | @inside μ k pre post e e' s s' hdue hstep ih =>
    cases h with
    | node hs hgrab =>
      obtain ⟨pre', f, post', rfl, hpre, hf, hpost⟩ := forall₂_split hs
      obtain ⟨f', t', hstep', hrel, hpaired⟩ := ih hf agree
      rw [hpre.length_eq] at hdue hstep'
      refine ⟨_, t', .inside hdue hstep', .node (forall₂_join hpre hrel hpost) ?_, hpaired⟩
      intro hk x y hx hy
      cases hpre with
      | cons => exact hgrab hk x y hx hy
      | nil =>
        -- the place itself has been evaluated further
        have hbase : e'.placeBase = e.placeBase := step_placeBase hstep (grabs_use hk μ)
        have hbase' : f'.placeBase = f.placeBase := step_placeBase hstep' (grabs_use hk μ)
        simp only [headBase, List.nil_append, List.head?_cons, Option.bind_some] at hx hy hgrab
        exact hgrab hk x y (hbase ▸ hx) (hbase' ▸ hy)

end

end MeleeHarness.Lib.C
