import MeleeHarness.SrcMutate.ReorderTree
import Mathlib.Logic.Equiv.Basic

/-!
# Arguments and the parameters they go to

What `p_reorder_params` does to the calls and declarators of a function.

* `Ctx.Listed.counterpart`: each call and declarator is in the edited unit, edited as the unit is;
* `reorderParams_keeps_iff`: it then goes with the definition exactly if it names the
  function directly or has the same in both places.
-/

namespace MeleeHarness.SrcMutate.Cst

open Lib Permute

section
variable {name : Option Bytes} {i j : Nat}

/-! ## Lists in the edited tree -/

theorem reorder_label (within : Option Slots) (t : Tree) :
    (reorder name i j within t).label = t.label := by
  cases t <;> rfl

theorem reorder_isNamed (within : Option Slots) (t : Tree) :
    (reorder name i j within t).isNamed = t.isNamed := by
  cases t <;> rfl

theorem reorder_isParameter (within : Option Slots) (t : Tree) :
    isParameter (reorder name i j within t) = isParameter t := by
  cases t <;> rfl

/-- Whether something counts as an element is not changed. -/
theorem slotsOf_pick {type : NodeType} {children : List Tree} {m : Slots}
    (h : slotsOf name i j type children = some m) (within : Option Slots) (t : Tree) :
    m.pick (reorder name i j within t) = m.pick t := by
  simp only [slotsOf, Option.bind_eq_bind, Option.bind_eq_some_iff, Option.pure_def,
    Option.some.injEq] at h
  obtain ⟨⟨f, pick⟩, hlist, _, -, _, -, _, -, rfl⟩ := h
  rcases slotList_eq_some 0 none hlist with ⟨-, -, -, rfl⟩ | ⟨-, -, -, rfl⟩
  · exact reorder_isParameter within t
  · exact reorder_isNamed within t

/-- The elements of a list that is a field. -/
def items (f : FieldName) (pick : Tree → Bool) (t : Tree) : List Tree :=
  match t.children.find? (·.label = some f) with
  | some list => list.children.filter pick
  | none => []

theorem reorderAll_plain (n : Nat) (ts : List Tree) :
    reorderAll name i j none none n ts = ts.map (reorder name i j none) := by
  induction ts generalizing n with
  | nil => rfl
  | cons t ts ih =>
    rw [reorderAll]
    exact congrArg _ (ih n)

theorem find_map_reorder (f : FieldName) (ts : List Tree) :
    (ts.map (reorder name i j none)).find? (·.label = some f) =
      (ts.find? (·.label = some f)).map (reorder name i j none) := by
  rw [List.find?_map]
  congr 2
  funext t
  simp only [Function.comp, reorder_label]

/-- The list is still the list. -/
theorem find_reorderAll {m : Slots} (n : Nat) (ts : List Tree) :
    (reorderAll name i j (some m) none n ts).find? (·.label = some m.field) =
      (ts.find? (·.label = some m.field)).map (reorder name i j (some m)) := by
  induction ts generalizing n with
  | nil => rfl
  | cons t ts ih =>
    rw [reorderAll]
    change List.find? _ (reorder name i j (if isListOf (some m) t then some m else none) t ::
      reorderAll name i j (if isListOf (some m) t then none else some m) none n ts) = _
    rw [List.find?_cons, List.find?_cons, reorder_label]
    by_cases hlist : t.label = some m.field
    · have hisList : isListOf (some m) t = true := decide_eq_true hlist
      simp [hlist, hisList]
    · have hisList : isListOf (some m) t = false := decide_eq_false hlist
      simpa [hlist, hisList] using ih n

theorem reorderAll_slot {m : Slots} (n : Nat) (t : Tree) (ts : List Tree) :
    reorderAll name i j none (some m) n (t :: ts) =
      (slotTree i j (some m) n t).getD (reorder name i j none t) ::
        reorderAll name i j none (some m) (counted (some m) n t) ts := by
  rw [reorderAll]
  cases slotTree i j (some m) n t <;> rfl

/-- The elements of the list, each in its new place. -/
theorem elements_reorderAll {m : Slots} (hpick : ∀ within t, m.pick (reorder name i j within t) = m.pick t)
    (hfirst : m.pick m.first = true) (hsecond : m.pick m.second = true) (n q : Nat)
    (ts : List Tree) : ((reorderAll name i j none (some m) n ts).filter m.pick)[q]? =
      ((ts.filter m.pick)[q]?).map fun t => (m.new i j (n + q)).getD (reorder name i j none t) := by
  induction ts generalizing n q with
  | nil => rfl
  | cons t ts ih =>
    rw [reorderAll_slot]
    by_cases ht : m.pick t = true
    · have hslot : slotTree i j (some m) n t = m.new i j n := if_pos ht
      have hcount : counted (some m) n t = n + 1 := if_pos ht
      have hkept : m.pick ((m.new i j n).getD (reorder name i j none t)) = true := by
        rw [Slots.new]
        split
        · exact hsecond
        · split
          · exact hfirst
          · exact (hpick none t).trans ht
      rw [hslot, hcount, List.filter_cons_of_pos hkept, List.filter_cons_of_pos ht]
      cases q with
      | zero => rfl
      | succ q =>
        have hnext : n + 1 + q = n + (q + 1) := by omega
        rw [List.getElem?_cons_succ, List.getElem?_cons_succ, ih, hnext]
    · have hslot : slotTree i j (some m) n t = none := if_neg ht
      have hcount : counted (some m) n t = n := if_neg ht
      have hkept : ¬m.pick (reorder name i j none t) = true := by rwa [hpick none t]
      rw [hslot, hcount, Option.getD_none, List.filter_cons_of_neg hkept, List.filter_cons_of_neg ht, ih]

/-- What `slotsOf` finds. -/
theorem slotsOf_spec {type : NodeType} {children : List Tree} {m : Slots}
    (h : slotsOf name i j type children = some m) :
    slotList name type children = some (m.field, m.pick) ∧
    ∃ list, children.find? (·.label = some m.field) = some list ∧
      (list.children.filter m.pick)[i]? = some m.first ∧
      (list.children.filter m.pick)[j]? = some m.second := by
  simp only [slotsOf, Option.bind_eq_bind, Option.bind_eq_some_iff, Option.pure_def,
    Option.some.injEq] at h
  obtain ⟨⟨f, pick⟩, hlist, list, hfind, a, ha, b, hb, rfl⟩ := h
  exact ⟨hlist, list, hfind, ha, hb⟩

theorem slotsOf_none {type : NodeType} {children : List Tree}
    (h : slotList name type children = none) : slotsOf name i j type children = none := by
  rw [slotsOf, h]
  rfl

/-! ## The exchange twice -/

mutual

/-- An identifier is one token, and what follows the name of a function in parentheses is a
list. -/
def tidy : Tree → Bool
  | .node _ type children =>
    (type ≠ .identifier ∨ children.isEmpty) &&
      ([FieldName.arguments, .parameters].all fun f =>
        (children.find? (·.label = some f)).all fun list =>
          list.type? ∉ [some NodeType.callExpression, some .functionDeclarator]) &&
      tidyAll children
  | _ => true

def tidyAll : List Tree → Bool
  | [] => true
  | t :: rest => tidy t && tidyAll rest

end

theorem tidyAll_iff {ts : List Tree} : tidyAll ts = true ↔ ∀ t ∈ ts, tidy t = true := by
  induction ts with
  | nil => simp [tidyAll]
  | cons t ts ih => simp [tidyAll, ih]

theorem tidy_node {label : Option FieldName} {type : NodeType} {children : List Tree}
    (h : tidy (.node label type children) = true) : (type = .identifier → children = []) ∧
      (∀ f ∈ [FieldName.arguments, .parameters], ∀ list, children.find? (·.label = some f) = some list →
        list.type? ∉ [some NodeType.callExpression, some .functionDeclarator]) ∧
      ∀ t ∈ children, tidy t = true := by
  rw [tidy, Bool.and_eq_true, Bool.and_eq_true, tidyAll_iff] at h
  obtain ⟨⟨hident, hlists⟩, hall⟩ := h
  refine ⟨?_, ?_, hall⟩
  · intro htype
    simpa [htype] using hident
  · intro f hf list hlist
    have hone := List.all_eq_true.mp hlists f hf
    rw [hlist] at hone
    exact of_decide_eq_true hone

theorem tidy_children {t u : Tree} (h : tidy t = true) (hu : u ∈ t.children) : tidy u = true := by
  cases t with
  | gap | token => cases hu
  | node label type children => exact (tidy_node h).2.2 u hu

theorem tidy_under {a b : Node} (h : Under a b) (ha : tidy a.spot.tree = true) :
    tidy b.spot.tree = true := by
  induction h with
  | self => exact ha
  | child _ hc ih => exact tidy_children ih (Spot.tree_mem (Spot.namedChildren_mem hc))

theorem slotList_of_type {type : NodeType} {children : List Tree}
    (h : some type ∉ [some NodeType.callExpression, some .functionDeclarator]) :
    slotList name type children = none := by
  have hne : type ≠ .callExpression ∧ type ≠ .functionDeclarator := by simpa using h
  simp [slotList, hne.1, hne.2]

theorem reorder_leaf (within : Option Slots) {t : Tree} (h : t.children = []) :
    reorder name i j within t = t := by
  cases t with
  | gap | token => rfl
  | node label type children =>
    obtain rfl : children = [] := h
    rfl

theorem reorder_type (within : Option Slots) (t : Tree) :
    (reorder name i j within t).type? = t.type? := by
  cases t <;> rfl

/-- A field is still the field. -/
theorem find_reorderAll_field (g : FieldName) (own : Option Slots) (n : Nat) (ts : List Tree) :
    ∃ within, (reorderAll name i j own none n ts).find? (·.label = some g) =
      (ts.find? (·.label = some g)).map (reorder name i j within) := by
  induction ts generalizing own n with
  | nil => exact ⟨none, rfl⟩
  | cons t ts ih =>
    rw [reorderAll]
    change ∃ within, List.find? _ (reorder name i j (if isListOf own t then own else none) t ::
      reorderAll name i j (if isListOf own t then none else own) none n ts) = _
    rw [List.find?_cons, List.find?_cons, reorder_label]
    by_cases hfield : t.label = some g
    · rw [decide_eq_true hfield]
      exact ⟨_, rfl⟩
    · rw [decide_eq_false hfield]
      exact ih _ n

/-- Who names the function still does. -/
theorem slotList_reorder {type : NodeType} {children : List Tree}
    (hident : ∀ t ∈ children, t.type? = some .identifier → t.children = []) (own : Option Slots) :
    slotList name type (reorderAll name i j own none 0 children) = slotList name type children := by
  have hnamed : ∀ g : FieldName,
      ((reorderAll name i j own none 0 children).find? (·.label = some g)).any
        (fun nm => nm.type? = some .identifier ∧ some nm.text = name) =
      (children.find? (·.label = some g)).any
        (fun nm => nm.type? = some .identifier ∧ some nm.text = name) := by
    intro g
    obtain ⟨within, hfind⟩ := @find_reorderAll_field name i j g own 0 children
    rw [hfind]
    cases hold : children.find? (·.label = some g) with
    | none => rfl
    | some nm =>
      change decide _ = decide _
      by_cases htype : nm.type? = some .identifier
      · rw [reorder_leaf within (hident nm (List.mem_of_find?_eq_some hold) htype)]
      · simp [reorder_type, htype]
  simp only [slotList, hnamed]

/-- The slots once the elements have changed places. -/
def Slots.flip (m : Slots) : Slots := { m with first := m.second, second := m.first }

theorem slotsOf_mk {type : NodeType} {children : List Tree} {f : FieldName} {pick : Tree → Bool}
    {list a b : Tree} (hslot : slotList name type children = some (f, pick))
    (hfind : children.find? (·.label = some f) = some list)
    (ha : (list.children.filter pick)[i]? = some a) (hb : (list.children.filter pick)[j]? = some b) :
    slotsOf name i j type children = some ⟨f, pick, a, b⟩ := by
  simp [slotsOf, hslot, hfind, ha, hb]

theorem slotsOf_field {type : NodeType} {children : List Tree} {m : Slots}
    (h : slotsOf name i j type children = some m) : m.field ∈ [FieldName.arguments, .parameters] := by
  rcases slotList_eq_some 0 none (slotsOf_spec h).1 with
    ⟨-, -, hf, -⟩ | ⟨-, -, hf, -⟩
  · rw [hf]
    decide
  · rw [hf]
    decide

/-- The children of a list that is edited for the node above it only. -/
theorem reorder_list {list : Tree} (within : Option Slots)
    (h : list.type? ∉ [some NodeType.callExpression, some .functionDeclarator]) :
    (reorder name i j within list).children = reorderAll name i j none within 0 list.children := by
  cases list with
  | gap | token => rfl
  | node label type kids =>
    rw [reorder, SyntaxTree.children, slotsOf_none (slotList_of_type h)]
    rfl

theorem slotsOf_reorder {type : NodeType} {children : List Tree} (hij : i ≠ j)
    (hident : ∀ t ∈ children, t.type? = some .identifier → t.children = [])
    (hlists : ∀ f ∈ [FieldName.arguments, .parameters], ∀ list,
      children.find? (·.label = some f) = some list →
        list.type? ∉ [some NodeType.callExpression, some .functionDeclarator]) :
    slotsOf name i j type (reorderAll name i j (slotsOf name i j type children) none 0 children) =
      (slotsOf name i j type children).map Slots.flip := by
  have hslot := @slotList_reorder name i j type children hident (slotsOf name i j type children)
  cases hown : slotsOf name i j type children with
  | none =>
    rw [hown] at hslot
    by_contra hsome
    obtain ⟨m, hm⟩ := Option.ne_none_iff_exists'.mp hsome
    obtain ⟨hlist, list', hfind, hfirst, hsecond⟩ := slotsOf_spec hm
    rw [reorderAll_plain, find_map_reorder] at hfind
    obtain ⟨list, hold, rfl⟩ := Option.map_eq_some_iff.mp hfind
    have hplain := hlists m.field (slotsOf_field hm) list hold
    have hcomp : m.pick ∘ reorder name i j none = m.pick := funext (slotsOf_pick hm none)
    rw [reorder_list none hplain, reorderAll_plain, List.filter_map, hcomp, List.getElem?_map]
      at hfirst hsecond
    obtain ⟨a, ha, -⟩ := Option.map_eq_some_iff.mp hfirst
    obtain ⟨b, hb, -⟩ := Option.map_eq_some_iff.mp hsecond
    rw [slotsOf_mk (hslot.symm.trans hlist) hold ha hb] at hown
    cases hown
  | some m =>
    rw [hown] at hslot
    obtain ⟨hlist, list, hfind, hfirst, hsecond⟩ := slotsOf_spec hown
    have hpick := slotsOf_pick hown
    have hmem : ∀ {q : Nat} {t : Tree}, (list.children.filter m.pick)[q]? = some t → m.pick t = true :=
      fun ht => (List.mem_filter.mp (List.mem_of_getElem? ht)).2
    have hplain := hlists m.field (slotsOf_field hown) list hfind
    have helem := elements_reorderAll hpick (hmem hfirst) (hmem hsecond) 0
    refine slotsOf_mk (hslot.trans hlist) ((find_reorderAll 0 children).trans (by rw [hfind]; rfl)) ?_ ?_
    · rw [reorder_list _ hplain, helem, hfirst, Nat.zero_add, Slots.new, if_pos rfl]
      rfl
    · rw [reorder_list _ hplain, helem, hsecond, Nat.zero_add, Slots.new, if_neg hij.symm, if_pos rfl]
      rfl

variable (name i j) in
/-- The list that the slots are of. -/
structure Slots.In (m : Slots) (list : Tree) : Prop where
  first : (list.children.filter m.pick)[i]? = some m.first
  second : (list.children.filter m.pick)[j]? = some m.second
  pick : ∀ within t, m.pick (reorder name i j within t) = m.pick t
  plain : list.type? ∉ [some NodeType.callExpression, some .functionDeclarator]

theorem slotsOf_in {label : Option FieldName} {type : NodeType} {children : List Tree} {m : Slots}
    (htidy : tidy (.node label type children) = true) (h : slotsOf name i j type children = some m)
    {list : Tree} (hlist : children.find? (·.label = some m.field) = some list) :
    m.In name i j list := by
  obtain ⟨-, list', hfind, hfirst, hsecond⟩ := slotsOf_spec h
  obtain rfl : list = list' := Option.some.inj (hlist.symm.trans hfind)
  exact ⟨hfirst, hsecond, slotsOf_pick h, (tidy_node htidy).2.1 _ (slotsOf_field h) _ hlist⟩

theorem tidy_identifier {t : Tree} (h : tidy t = true) (htype : t.type? = some .identifier) :
    t.children = [] := by
  cases t with
  | gap | token => rfl
  | node label type children => exact (tidy_node h).1 (Option.some.inj htype)

mutual

theorem reorder_twice (hij : i ≠ j) : ∀ (t : Tree) (within : Option Slots), tidy t = true →
    (∀ m ∈ within, m.In name i j t) →
    reorder name i j (within.map Slots.flip) (reorder name i j within t) = t
  | .gap _, _, _, _ => rfl
  | .token _ _ _ _, _, _, _ => rfl
  | .node label type children, none, htidy, _ => by
    obtain ⟨-, hlists, hall⟩ := tidy_node htidy
    have hident : ∀ t ∈ children, t.type? = some .identifier → t.children = [] :=
      fun t ht => tidy_identifier (hall t ht)
    rw [reorder, Option.map_none, reorder, slotsOf_reorder hij hident hlists,
      own_twice hij children _ 0 hall fun m hm list hlist => slotsOf_in htidy hm hlist]
  | .node label type children, some m, htidy, hwithin => by
    have hlist := hwithin m rfl
    have hnone : ∀ children, slotsOf name i j type children = none :=
      fun children => slotsOf_none (slotList_of_type hlist.plain)
    have hmem : ∀ {q : Nat} {t : Tree}, (children.filter m.pick)[q]? = some t → m.pick t = true :=
      fun ht => (List.mem_filter.mp (List.mem_of_getElem? ht)).2
    rw [reorder, Option.map_some, reorder, hnone, hnone]
    congr 1
    refine within_twice hij children m 0 (tidy_node htidy).2.2 hlist.pick (hmem hlist.first)
      (hmem hlist.second) ?_
    intro q t ht
    constructor
    · intro hq
      obtain rfl : q = i := by omega
      exact Option.some.inj (ht.symm.trans hlist.first)
    · intro hq
      obtain rfl : q = j := by omega
      exact Option.some.inj (ht.symm.trans hlist.second)

theorem own_twice (hij : i ≠ j) : ∀ (ts : List Tree) (own : Option Slots) (n : Nat),
    (∀ t ∈ ts, tidy t = true) →
    (∀ m ∈ own, ∀ list, ts.find? (·.label = some m.field) = some list → m.In name i j list) →
    reorderAll name i j (own.map Slots.flip) none n (reorderAll name i j own none n ts) = ts
  | [], _, _, _, _ => rfl
  | t :: ts, own, n, htidy, hown => by
    have hfirst := htidy t List.mem_cons_self
    have hrest := fun u hu => htidy u (List.mem_cons_of_mem t hu)
    have hisList : ∀ within, isListOf (own.map Slots.flip) (reorder name i j within t) = isListOf own t := by
      intro within
      cases own with
      | none => rfl
      | some m => simp [isListOf, Slots.flip, reorder_label]
    rw [reorderAll, reorderAll]
    simp only [slotTree, hisList]
    by_cases hlist : isListOf own t = true
    · simp only [if_pos hlist]
      have hin : ∀ m ∈ own, m.In name i j t := by
        rintro m rfl
        exact hown m rfl t (List.find?_cons_of_pos hlist)
      exact congrArg₂ List.cons (reorder_twice hij t own hfirst hin)
        (own_twice hij ts none n hrest (by simp))
    · simp only [if_neg hlist]
      have hlater : ∀ m ∈ own, ∀ list, ts.find? (·.label = some m.field) = some list →
          m.In name i j list := by
        rintro m rfl list hfind
        exact hown m rfl list ((List.find?_cons_of_neg hlist).trans hfind)
      exact congrArg₂ List.cons (reorder_twice hij t none hfirst (by simp))
        (own_twice hij ts own n hrest hlater)

theorem within_twice (hij : i ≠ j) : ∀ (ts : List Tree) (m : Slots) (n : Nat),
    (∀ t ∈ ts, tidy t = true) → (∀ within t, m.pick (reorder name i j within t) = m.pick t) →
    m.pick m.first = true → m.pick m.second = true →
    (∀ q t, (ts.filter m.pick)[q]? = some t → (n + q = i → t = m.first) ∧ (n + q = j → t = m.second)) →
    reorderAll name i j none (some m.flip) n (reorderAll name i j none (some m) n ts) = ts
  | [], _, _, _, _, _, _, _ => rfl
  | t :: ts, m, n, htidy, hpick, hfirst, hsecond, hat => by
    have htwice := reorder_twice hij t none (htidy t List.mem_cons_self) (by simp)
    have hrest := within_twice hij ts m (counted (some m) n t) (fun u hu => htidy u (List.mem_cons_of_mem t hu))
      hpick hfirst hsecond
    have hcons : ∀ u, m.pick u = m.pick t →
        (match slotTree i j (some m.flip) n u with
          | some v => v
          | none => reorder name i j none u) = t →
        reorderAll name i j none (some m.flip) n
          (u :: reorderAll name i j none (some m) (counted (some m) n t) ts) = t :: ts := by
      intro u hu hback
      have hcount : counted (some m.flip) n u = counted (some m) n t := by
        simp [counted, Slots.flip, hu]
      rw [reorderAll, hcount]
      refine congrArg₂ List.cons hback (hrest ?_)
      intro q v hv
      by_cases ht : m.pick t = true
      · rw [show counted (some m) n t = n + 1 from if_pos ht, Nat.add_assoc, Nat.add_comm 1 q]
        apply hat (q + 1) v
        rwa [List.filter_cons_of_pos ht, List.getElem?_cons_succ]
      · rw [show counted (some m) n t = n from if_neg ht]
        apply hat q v
        rwa [List.filter_cons_of_neg ht]
    rw [reorderAll]
    by_cases ht : m.pick t = true
    · have hhead := hat 0 t (by rw [List.filter_cons_of_pos ht]; rfl)
      rw [show slotTree i j (some m) n t = m.new i j n from if_pos ht, Slots.new]
      have hback : ∀ u, m.pick u = true → slotTree i j (some m.flip) n u = m.flip.new i j n :=
        fun u hu => if_pos hu
      by_cases hi : n = i
      · rw [if_pos hi]
        refine hcons m.second (hsecond.trans ht.symm) ?_
        rw [hback _ hsecond, Slots.new, if_pos hi]
        exact (hhead.1 hi).symm
      · rw [if_neg hi]
        by_cases hj : n = j
        · rw [if_pos hj]
          refine hcons m.first (hfirst.trans ht.symm) ?_
          rw [hback _ hfirst, Slots.new, if_neg hi, if_pos hj]
          exact (hhead.2 hj).symm
        · rw [if_neg hj]
          refine hcons (reorder name i j none t) (hpick none t) ?_
          rw [hback _ ((hpick none t).trans ht), Slots.new, if_neg hi, if_neg hj]
          exact htwice
    · rw [show slotTree i j (some m) n t = none from if_neg ht]
      refine hcons (reorder name i j none t) (hpick none t) ?_
      have ht' : ¬m.flip.pick (reorder name i j none t) = true := by
        rw [Slots.flip, hpick]
        exact ht
      rw [show slotTree i j (some m.flip) n (reorder name i j none t) = none from if_neg ht']
      exact htwice

end

theorem reorder_injective (hij : i ≠ j) {t u : Tree} (ht : tidy t = true) (hu : tidy u = true)
    (h : reorder name i j none t = reorder name i j none u) : t = u := by
  rw [← reorder_twice hij t none ht (by simp), h]
  exact reorder_twice hij u none hu (by simp)

/-! ## Elements in their new places -/

variable (name i j) in
/-- In the edited tree the elements of the list, with what is in them edited as well, are
in the places that the exchange gives them. -/
def Keeps (f : FieldName) (pick : Tree → Bool) (t : Tree) : Prop :=
  ∀ k, (items f pick (reorder name i j none t))[Equiv.swap i j k]? =
    ((items f pick t)[k]?).map (reorder name i j none)

/-- Both places of the list hold the same. -/
def SameAt (i j : Nat) (f : FieldName) (pick : Tree → Bool) (t : Tree) : Prop :=
  (items f pick t)[i]? = (items f pick t)[j]?

variable (name i j) in
/-- The list that the slots are of, with nothing to edit in what changes places. -/
structure ListSlots (m : Slots) (list : Tree) : Prop extends m.In name i j list where
  firstKept : reorder name i j none m.first = m.first
  secondKept : reorder name i j none m.second = m.second

/-- In the edited list each element is in its new place. -/
theorem ListSlots.elements {m : Slots} {list : Tree} (h : ListSlots name i j m list) (hij : i ≠ j)
    (k : Nat) : ((reorder name i j (some m) list).children.filter m.pick)[Equiv.swap i j k]? =
      ((list.children.filter m.pick)[k]?).map (reorder name i j none) := by
  have hmem : ∀ {q : Nat} {t : Tree}, (list.children.filter m.pick)[q]? = some t → m.pick t = true :=
    fun ht => (List.mem_filter.mp (List.mem_of_getElem? ht)).2
  rw [reorder_list _ h.plain, elements_reorderAll h.pick (hmem h.first) (hmem h.second), Nat.zero_add]
  by_cases hki : k = i
  · subst hki
    rw [Equiv.swap_apply_left, h.first, h.second, Slots.new, if_neg hij.symm, if_pos rfl]
    exact congrArg some h.firstKept.symm
  · by_cases hkj : k = j
    · subst hkj
      rw [Equiv.swap_apply_right, h.first, h.second, Slots.new, if_pos rfl]
      exact congrArg some h.secondKept.symm
    · rw [Equiv.swap_apply_of_ne_of_ne hki hkj, Slots.new, if_neg hki, if_neg hkj]
      rfl

/-- A node that names the function. -/
theorem keeps_of_slots {label : Option FieldName} {type : NodeType} {children : List Tree} {m : Slots}
    {list : Tree} (hslots : slotsOf name i j type children = some m) (hij : i ≠ j)
    (hfind : children.find? (·.label = some m.field) = some list)
    (hlist : ListSlots name i j m list) :
    Keeps name i j m.field m.pick (.node label type children) := by
  intro k
  have hnew : items m.field m.pick (reorder name i j none (.node label type children)) =
      (reorder name i j (some m) list).children.filter m.pick := by
    rw [items, reorder, SyntaxTree.children, hslots, find_reorderAll, hfind]
    rfl
  have hold : items m.field m.pick (.node label type children) = list.children.filter m.pick := by
    rw [items, SyntaxTree.children, hfind]
  rw [hnew, hold]
  exact hlist.elements hij k

/-- The elements of a list have been read from the tree. -/
theorem tidy_items {f : FieldName} {pick : Tree → Bool} {t u : Tree} (h : tidy t = true)
    (hu : u ∈ items f pick t) : tidy u = true := by
  rw [items] at hu
  split at hu
  · rename_i list hlist
    exact tidy_children (tidy_children h (List.mem_of_find?_eq_some hlist)) (List.mem_of_mem_filter hu)
  · cases hu

/-- A node that does not name the function keeps the order of its list. -/
theorem keeps_iff_same {label : Option FieldName} {type : NodeType} {children : List Tree}
    {f : FieldName} {pick : Tree → Bool} (hij : i ≠ j)
    (htidy : tidy (.node label type children) = true) (hf : f ∈ [FieldName.arguments, .parameters])
    (hslots : slotList name type children = none)
    (hpick : ∀ t, pick (reorder name i j none t) = pick t) :
    Keeps name i j f pick (.node label type children) ↔
      SameAt i j f pick (.node label type children) := by
  have hitems : items f pick (reorder name i j none (.node label type children)) =
      (items f pick (.node label type children)).map (reorder name i j none) := by
    rw [items, items, reorder, SyntaxTree.children, SyntaxTree.children, slotsOf_none hslots,
      reorderAll_plain, find_map_reorder]
    cases hlist : children.find? (·.label = some f) with
    | none => rfl
    | some list =>
      have hcomp : pick ∘ reorder name i j none = pick := funext hpick
      change List.filter pick (reorder name i j none list).children = _
      rw [reorder_list none ((tidy_node htidy).2.1 f hf list hlist), reorderAll_plain, List.filter_map,
        hcomp]
  rw [Keeps, SameAt, hitems]
  simp only [List.getElem?_map]
  constructor
  · intro hkeeps
    have hj := hkeeps j
    rw [Equiv.swap_apply_right] at hj
    cases ha : (items f pick (.node label type children))[i]? with
    | none =>
      rw [ha, Option.map_none] at hj
      exact (Option.map_eq_none_iff.mp hj.symm).symm
    | some a =>
      rw [ha] at hj
      obtain ⟨b, hb, hab⟩ := Option.map_eq_some_iff.mp hj.symm
      rw [hb, reorder_injective hij (tidy_items htidy (List.mem_of_getElem? hb))
        (tidy_items htidy (List.mem_of_getElem? ha)) hab]
  · intro hsame k
    by_cases hki : k = i
    · subst hki
      rw [Equiv.swap_apply_left, hsame]
    · by_cases hkj : k = j
      · subst hkj
        rw [Equiv.swap_apply_right, hsame]
      · rw [Equiv.swap_apply_of_ne_of_ne hki hkj]

/-! ## What has moved is not edited -/

mutual

theorem reorder_eq_self : ∀ (t : Tree) (within : Option Slots) (pos : Nat),
    docEdits name i j within pos t = [] → reorder name i j within t = t
  | .gap _, _, _, _ => rfl
  | .token _ _ _ _, _, _, _ => rfl
  | .node label type children, within, pos, h => by
    rw [reorder, reorderAll_eq_self children _ within 0 pos h]

theorem reorderAll_eq_self : ∀ (ts : List Tree) (own within : Option Slots) (n pos : Nat),
    docEditsAll name i j own within n pos ts = [] → reorderAll name i j own within n ts = ts
  | [], _, _, _, _, _ => rfl
  | t :: ts, own, within, n, pos, h => by
    rw [docEditsAll, List.append_eq_nil_iff, List.append_eq_nil_iff, List.map_eq_nil_iff] at h
    obtain ⟨hslot, ht, hts⟩ := h
    have hnone : slotTree i j within n t = none := by
      cases hsome : slotTree i j within n t with
      | none => rfl
      | some u => simp [hsome] at hslot
    rw [reorderAll, hnone, reorderAll_eq_self ts _ within _ _ hts]
    exact congrArg (· :: ts) (reorder_eq_self t _ pos ht)

end

/-- The tree of a unit as the parser gives it: no token is without text, an identifier is one
token, and what follows the name of a function in parentheses is a list. The function has
been found by its name. -/
structure Ctx.Listed (ctx : Ctx) : Prop where
  found : ∀ fdecl, functionDeclaratorOf ctx.fn.spot = some fdecl →
    namedBy (fnNameOf ctx.fn.spot) .declarator fdecl = true
  under : Under (top ctx.root) ctx.fn
  solid : ctx.root.solid = true
  tidy : tidy ctx.root = true

section
variable {ctx : Ctx} {n : Node} {label : Option FieldName} {type : NodeType} {children : List Tree}

/-- The name is not in the list, so a list is less than the node. -/
theorem list_lt (hsolid : n.spot.tree.solid = true) {f g : FieldName} (hfg : f ≠ g)
    {list nm : Place} (hlist : n.spot.field f = some list) (hnm : n.spot.field g = some nm)
    (htype : isA [.identifier] nm = true) : n.spot.start < list.start ∨ list.stop < n.spot.stop := by
  have hlm := Spot.field_mem hlist
  have hnmm := Spot.field_mem hnm
  have hlabel : list.tree.label = some f := by simpa using List.find?_some hlist
  have hlabel' : nm.tree.label = some g := by simpa using List.find?_some hnm
  have hne : list ≠ nm := by
    rintro rfl
    rw [hlabel] at hlabel'
    exact hfg (Option.some.inj hlabel')
  have hpos : nm.start < nm.stop := by
    have hnil : nm.tree.text ≠ [] := by
      intro hnil
      obtain ⟨text, hgap⟩ := SyntaxTree.solid_text (Spot.children_solid hnmm hsolid) hnil
      rw [isA, Spot.type?, hgap] at htype
      cases htype
    have hlen := List.length_pos_iff.mpr hnil
    rw [Spot.stop, SyntaxTree.size]
    omega
  have hb := Spot.children_bounds hlm
  have hb' := Spot.children_bounds hnmm
  have hapart := Spot.children_apart hlm hnmm hne
  omega

/-- Where the edits are accepted, no two nodes have edits that touch the same text. -/
theorem own_apart {edits : List Edit} {out : Bytes} (hsolid : ctx.root.solid = true)
    (hperm : edits.Perm ((top ctx.root).iterSubtree.flatMap fun ℓ => ownEdits name i j ℓ.spot))
    (hout : applyEdits ctx.src edits = .ok out) :
    (top ctx.root).iterSubtree.Pairwise fun x y => ∀ e ∈ ownEdits name i j x.spot,
      ∀ e' ∈ ownEdits name i j y.spot, e.stop ≤ e'.start ∨ e'.stop ≤ e.start := by
  have hfits := (@docEdits_fits name i j ctx.root none 0 hsolid (by simp)).1
  have hfit : ∀ e ∈ edits, Fits 0 ctx.root.size e := by
    intro e he
    have hdoc := (docEdits_perm ctx.root).symm.subset (hperm.subset he)
    simpa using hfits e hdoc
  have hinside : ∀ e ∈ edits, e.Inside ctx.src := by
    intro e he
    obtain ⟨hlo, hlt, hhi⟩ := hfit e he
    exact ⟨hlo, by omega, hhi⟩
  have hapart := apart_of_accepted hinside (fun e he => (hfit e he).2.1) hout
  have hnodes := hperm.pairwise hapart fun hab => hab.symm
  exact (List.pairwise_flatMap.mp hnodes).2

theorem mem_ownEdits_of_docEdits {e : Edit} (parents : List Place) {pos : Nat} {t : Tree}
    (he : e ∈ docEdits name i j none pos t) :
    ∃ ℓ, Under ⟨parents, pos, t⟩ ℓ ∧ e ∈ ownEdits name i j ℓ.spot := by
  have hcount := @docEdits_count name i j e t none parents pos
  rw [slotEdits_none, List.count_nil, Nat.zero_add] at hcount
  have hmem : e ∈ (t.walk parents pos).flatMap fun ℓ => ownEdits name i j ℓ.spot := by
    rw [← List.count_pos_iff, ← hcount]
    exact List.count_pos_iff.mpr he
  obtain ⟨ℓ, hℓ, he⟩ := List.mem_flatMap.mp hmem
  exact ⟨ℓ, (mem_walk_iff t).mp hℓ, he⟩

/-- What changes places has no edits in it. -/
theorem slot_kept (h : ctx.Listed) {edits : List Edit} {out : Bytes} (hij : i ≠ j)
    (hperm : edits.Perm ((top ctx.root).iterSubtree.flatMap fun ℓ => ownEdits name i j ℓ.spot))
    (hout : applyEdits ctx.src edits = .ok out) (hn : Under (top ctx.root) n)
    (htree : n.spot.tree = .node label type children) {f g : FieldName} {pick : Tree → Bool}
    (hlist : slotList name type children = some (f, pick)) (hfg : f ≠ g)
    (hnamed : namedBy name g n.spot = true) {a b c : Place}
    (ha : (listed f pick n.spot)[i]? = some a) (hb : (listed f pick n.spot)[j]? = some b)
    (hpick : ∀ t, pick t = true → t.isNamed = true) (hc : c = a ∨ c = b) :
    reorder name i j none c.tree = c.tree := by
  apply reorder_eq_self c.tree none c.start
  apply List.eq_nil_iff_forall_not_mem.mpr
  intro e he
  -- the list and the name are two children of the node
  obtain ⟨nm, hnm, hident⟩ : ∃ nm, n.spot.field g = some nm ∧ isA [.identifier] nm = true := by
    rw [namedBy] at hnamed
    split at hnamed
    · rename_i nm hnm
      exact ⟨nm, hnm, (of_decide_eq_true hnamed).1⟩
    · cases hnamed
  have hsolid := hn.solid h.solid
  have hcmem : c ∈ listed f pick n.spot := by
    rcases hc with rfl | rfl
    · exact List.mem_of_getElem? ha
    · exact List.mem_of_getElem? hb
  cases hfield : n.spot.field f with
  | none =>
    rw [listed, hfield] at hcmem
    cases hcmem
  | some list =>
    have hless := list_lt hsolid hfg hfield hnm hident
    rw [listed, hfield] at hcmem
    obtain ⟨hchild, hcpick⟩ := List.mem_filter.mp hcmem
    have hlistNamed : list.tree.isNamed = true := by
      cases hlt : list.tree with
      | gap | token =>
        rw [Spot.children, hlt] at hchild
        cases hchild
      | node => rfl
    have hulist : Under (top ctx.root) ⟨n.spot :: n.parents, list⟩ :=
      .child hn (List.mem_filter.mpr ⟨Spot.field_mem hfield, hlistNamed⟩)
    have huc : Under (top ctx.root) ⟨list :: n.spot :: n.parents, c⟩ :=
      .child hulist (List.mem_filter.mpr ⟨hchild, hpick _ hcpick⟩)
    obtain ⟨ℓ, hℓ, heℓ⟩ := mem_ownEdits_of_docEdits (list :: n.spot :: n.parents) he
    -- an edit below would touch what the edit of the slot replaces
    have hne : n ≠ ℓ := by
      rintro rfl
      have h₁ := hℓ.bounds
      have h₂ := Spot.children_bounds hchild
      change c.start ≤ n.spot.start ∧ n.spot.stop ≤ c.stop at h₁
      omega
    have hslot : ∃ text, (⟨c.start, c.stop, text⟩ : Edit) ∈ ownEdits name i j n.spot := by
      obtain ⟨parents, pos, t⟩ := n
      obtain rfl : t = .node label type children := htree
      have hedits : listEdits i j (listed f pick ⟨pos, .node label type children⟩).length
          (listed f pick ⟨pos, .node label type children⟩) = some (swapSpans a b) := by
        rw [listEdits, if_neg (by simp)]
        change (listed f pick ⟨pos, .node label type children⟩)[i]?.bind _ = _
        rw [ha, Option.bind_some]
        change (listed f pick ⟨pos, .node label type children⟩)[j]?.bind _ = _
        rw [hb]
        rfl
      have hswap := (listEdits_perm hij hlist hedits).subset
      rcases hc with rfl | rfl
      · exact ⟨b.text, hswap (by simp [swapSpans])⟩
      · exact ⟨a.text, hswap (by simp [swapSpans])⟩
    obtain ⟨text, hslot⟩ := hslot
    have hsym : Std.Symm fun x y : Node => ∀ e ∈ ownEdits name i j x.spot,
        ∀ e' ∈ ownEdits name i j y.spot, e.stop ≤ e'.start ∨ e'.stop ≤ e.start :=
      ⟨fun x y hxy e he e' he' => (hxy e' he' e he).symm⟩
    have hapart := (own_apart h.solid hperm hout).forall (mem_iterSubtree.mpr hn)
      (mem_iterSubtree.mpr (huc.trans hℓ)) hne _ hslot e heℓ
    obtain ⟨hlo, hlt, hhi⟩ := (docEdits_fits c.tree none c.start (huc.solid h.solid) (by simp)).1 e he
    change _ ≤ ((c.stop : Nat) : Int) at hhi
    dsimp only at hapart
    omega

/-- What names the function in a declarator or a call. -/
theorem slotList_name (pos : Nat) (label : Option FieldName) {f : FieldName} {pick : Tree → Bool}
    (hlist : slotList name type children = some (f, pick)) : ∃ g, f ≠ g ∧
      namedBy name g ⟨pos, .node label type children⟩ = true := by
  rcases slotList_eq_some pos label hlist with
    ⟨-, hnamed, rfl, -⟩ | ⟨-, hnamed, rfl, -⟩
  · exact ⟨.declarator, by decide, hnamed⟩
  · exact ⟨.function, by decide, hnamed⟩

/-- The list of a node that names the function. -/
theorem Ctx.Listed.listSlots (h : ctx.Listed) {edits : List Edit} {out : Bytes} (hij : i ≠ j)
    (hperm : edits.Perm ((top ctx.root).iterSubtree.flatMap fun ℓ => ownEdits name i j ℓ.spot))
    (hout : applyEdits ctx.src edits = .ok out) (hn : Under (top ctx.root) n)
    (htree : n.spot.tree = .node label type children) {m : Slots}
    (hslots : slotsOf name i j type children = some m) :
    ∃ list, n.spot.field m.field = some list ∧ ListSlots name i j m list.tree := by
  obtain ⟨hlist, list, hfind, hfirst, hsecond⟩ := slotsOf_spec hslots
  have hfield := Spot.field_tree n.spot m.field
  rw [htree, SyntaxTree.children, hfind] at hfield
  obtain ⟨place, hplace, rfl⟩ := Option.map_eq_some_iff.mp hfield
  refine ⟨place, hplace, ?_⟩
  -- the two elements with their places
  have hlisted : (listed m.field m.pick n.spot).map Spot.tree = place.tree.children.filter m.pick := by
    rw [listed, hplace]
    exact Spot.filter_spotsFrom m.pick place.start place.tree.children
  have hat : ∀ {q : Nat} {t : Tree}, (place.tree.children.filter m.pick)[q]? = some t →
      ∃ c, (listed m.field m.pick n.spot)[q]? = some c ∧ c.tree = t := by
    intro q t ht
    rw [← hlisted, List.getElem?_map] at ht
    exact Option.map_eq_some_iff.mp ht
  obtain ⟨a, ha, hatree⟩ := hat hfirst
  obtain ⟨b, hb, hbtree⟩ := hat hsecond
  obtain ⟨g, hfg, hnamed⟩ := slotList_name n.spot.start label hlist
  rw [← htree] at hnamed
  have hkept := fun {c : Place} (hc : c = a ∨ c = b) =>
    slot_kept h hij hperm hout hn htree hlist hfg hnamed ha hb (slotsOf_named hslots) hc
  have htidy := tidy_under hn h.tidy
  rw [htree] at htidy
  exact ⟨slotsOf_in htidy hslots hfind, hatree ▸ hkept (.inl rfl), hbtree ▸ hkept (.inr rfl)⟩

/-! ## The same nodes in the edited tree -/

theorem mem_reorderAll_own {t : Tree} {ts : List Tree} (ht : t ∈ ts) (own : Option Slots) (n : Nat) :
    ∃ within, reorder name i j within t ∈ reorderAll name i j own none n ts ∧
      ∀ m ∈ within, own = some m ∧ ts.find? (·.label = some m.field) = some t := by
  induction ts generalizing own n with
  | nil => cases ht
  | cons u ts ih =>
    rw [reorderAll]
    rcases List.mem_cons.mp ht with rfl | ht
    · refine ⟨if isListOf own t then own else none, List.mem_cons_self, ?_⟩
      intro m hm
      split at hm
      · rename_i hlist
        obtain rfl : own = some m := hm
        exact ⟨rfl, List.find?_cons_of_pos hlist⟩
      · cases hm
    · obtain ⟨within, hmem, hwithin⟩ := ih ht (if isListOf own u then none else own) (counted none n u)
      refine ⟨within, List.mem_cons_of_mem _ hmem, ?_⟩
      intro m hm
      obtain ⟨hown, hfind⟩ := hwithin m hm
      split at hown
      · cases hown
      · rename_i hlist
        subst hown
        exact ⟨rfl, (List.find?_cons_of_neg hlist).trans hfind⟩

theorem mem_reorderAll_within {t : Tree} {ts : List Tree} (ht : t ∈ ts) {m : Slots}
    (hpick : m.pick t = false) (n : Nat) :
    reorder name i j none t ∈ reorderAll name i j none (some m) n ts := by
  induction ts generalizing n with
  | nil => cases ht
  | cons u ts ih =>
    rw [reorderAll]
    rcases List.mem_cons.mp ht with rfl | ht
    · rw [slotTree, if_neg (Bool.eq_false_iff.mp hpick)]
      exact List.mem_cons_self
    · exact List.mem_cons_of_mem _ (ih ht _)

/-- A child of an edited node. -/
theorem child_counterpart {c : Tree} (hc : c ∈ n.spot.tree.children) (hij : i ≠ j)
    {within : Option Slots} (hwithin : ∀ m ∈ within, ListSlots name i j m n.spot.tree) :
    ∃ within', reorder name i j within' c ∈ (reorder name i j within n.spot.tree).children ∧
      ∀ m ∈ within', ∃ label type children, n.spot.tree = .node label type children ∧
        slotsOf name i j type children = some m ∧
        children.find? (·.label = some m.field) = some c := by
  cases within with
  | none =>
    cases htree : n.spot.tree with
    | gap | token =>
      rw [htree] at hc
      cases hc
    | node label type children =>
      rw [htree] at hc
      obtain ⟨within', hmem, hown⟩ := @mem_reorderAll_own name i j _ _ hc
        (slotsOf name i j type children) 0
      exact ⟨within', hmem, fun m hm => ⟨label, type, children, rfl, hown m hm⟩⟩
  | some m =>
    have hlist := hwithin m rfl
    refine ⟨none, ?_, by simp⟩
    cases hpick : m.pick c with
    | true =>
      obtain ⟨k, hk⟩ := List.mem_iff_getElem?.mp (List.mem_filter.mpr ⟨hc, hpick⟩)
      have hnew := hlist.elements hij k
      rw [hk] at hnew
      exact List.mem_of_mem_filter (List.mem_of_getElem? hnew)
    | false =>
      rw [reorder_list _ hlist.plain]
      exact mem_reorderAll_within hc hpick 0

/-- Each node of the unit is in the edited unit, edited in the same way. -/
theorem Ctx.Listed.counterpart (h : ctx.Listed) {edits : List Edit} {out : Bytes} (hij : i ≠ j)
    (hperm : edits.Perm ((top ctx.root).iterSubtree.flatMap fun ℓ => ownEdits name i j ℓ.spot))
    (hout : applyEdits ctx.src edits = .ok out) (hn : Under (top ctx.root) n) :
    ∃ within n', Under (top (reorder name i j none ctx.root)) n' ∧
      n'.spot.tree = reorder name i j within n.spot.tree ∧
      ∀ m ∈ within, ListSlots name i j m n.spot.tree := by
  induction hn with
  | self => exact ⟨none, _, .self, rfl, by simp⟩
  | @child n c hn hc ih =>
    obtain ⟨within, n', hn', htree', hwithin⟩ := ih
    obtain ⟨hchild, hnamed⟩ := List.mem_filter.mp hc
    have hmem := Spot.tree_mem hchild
    obtain ⟨within', hnew, hslots⟩ := child_counterpart hmem hij hwithin
    rw [← htree'] at hnew
    obtain ⟨c', hc', hctree⟩ := Spot.exists_mem_spotsFrom n'.spot.start hnew
    have hnamed' : c'.tree.isNamed = true := by
      rw [hctree, reorder_isNamed]
      exact hnamed
    refine ⟨within', _, .child hn' (List.mem_filter.mpr ⟨hc', hnamed'⟩), hctree, ?_⟩
    intro m hm
    obtain ⟨label, type, children, htree, hslot, hfind⟩ := hslots m hm
    obtain ⟨list, hlist, hkept⟩ := h.listSlots hij hperm hout hn htree hslot
    have hsame : list.tree = c.tree := by
      have hfield := Spot.field_tree n.spot m.field
      rw [hlist, htree, SyntaxTree.children, hfind] at hfield
      exact Option.some.inj hfield
    exact hsame ▸ hkept

end

/-! ## Bindings -/

/-- What a call passes. A comment is a named child of the list as well. -/
def isArgument (t : Tree) : Bool := t.isNamed ∧ t.type? ≠ some .comment

theorem items_listed (f : FieldName) (pick : Tree → Bool) (s : Place) :
    items f pick s.tree = (listed f pick s).map Spot.tree := by
  rw [items, listed, ← Spot.field_tree]
  cases s.field f with
  | none => rfl
  | some list => exact (Spot.filter_spotsFrom pick list.start list.tree.children).symm

theorem items_isArgument (f : FieldName) (t : Tree) :
    items f isArgument t = (items f SyntaxTree.isNamed t).filter fun u => u.type? ≠ some .comment := by
  rw [items, items]
  cases t.children.find? (·.label = some f) with
  | none => rfl
  | some list =>
    rw [List.filter_filter]
    apply List.filter_congr
    intro u hu
    simp [isArgument, Bool.and_comm]

/-- Where all that is listed is an argument, the arguments have changed places. -/
theorem Keeps.arguments {t : Tree} (h : Keeps name i j .arguments SyntaxTree.isNamed t)
    (hall : ∀ u ∈ items .arguments SyntaxTree.isNamed t, u.type? ≠ some .comment) :
    Keeps name i j .arguments isArgument t := by
  have hold : items .arguments isArgument t = items .arguments SyntaxTree.isNamed t := by
    rw [items_isArgument, List.filter_eq_self]
    exact fun u hu => decide_eq_true (hall u hu)
  have hnew : items .arguments isArgument (reorder name i j none t) =
      items .arguments SyntaxTree.isNamed (reorder name i j none t) := by
    rw [items_isArgument, List.filter_eq_self]
    intro u hu
    obtain ⟨q, hq⟩ := List.mem_iff_getElem?.mp hu
    have hk := h (Equiv.swap i j q)
    rw [Equiv.swap_apply_self, hq] at hk
    obtain ⟨v, hv, rfl⟩ := Option.map_eq_some_iff.mp hk.symm
    have htype : (reorder name i j none v).type? = v.type? := by
      cases v <;> rfl
    rw [htype]
    exact decide_eq_true (hall v (List.mem_of_getElem? hv))
  intro k
  rw [hold, hnew]
  exact h k

end

/-- Which declarators of the unit are of the function and which calls reach it. Such a call
passes something to each parameter. -/
structure Uses (ctx : Ctx) where
  declares : Node → Prop
  reaches : Node → Prop
  declarator : ∀ n, declares n → Under (top ctx.root) n ∧ isA [.functionDeclarator] n.spot = true
  call : ∀ n, reaches n → Under (top ctx.root) n ∧ isA [.callExpression] n.spot = true ∧
    ∀ fdecl, functionDeclaratorOf ctx.fn.spot = some fdecl →
      (items .parameters isParameter fdecl.tree).length ≤ (items .arguments isArgument n.spot.tree).length

/-- The text is that of the edited unit. The definition, each declarator and each call is in
it, with its parameters or arguments in their new places. -/
structure KeepsBindings (ctx : Ctx) (i j : Nat) (uses : Uses ctx) (out : Bytes) : Prop where
  text : out = (reorder (fnNameOf ctx.fn.spot) i j none ctx.root).text
  present : ∀ n, uses.declares n ∨ uses.reaches n →
    ∃ n', Under (top (reorder (fnNameOf ctx.fn.spot) i j none ctx.root)) n' ∧
      n'.spot.tree = reorder (fnNameOf ctx.fn.spot) i j none n.spot.tree
  definition : ∃ fdecl, functionDeclaratorOf ctx.fn.spot = some fdecl ∧
    Keeps (fnNameOf ctx.fn.spot) i j .parameters isParameter fdecl.tree
  declarators : ∀ n, uses.declares n →
    Keeps (fnNameOf ctx.fn.spot) i j .parameters isParameter n.spot.tree
  calls : ∀ n, uses.reaches n → Keeps (fnNameOf ctx.fn.spot) i j .arguments isArgument n.spot.tree

section
variable {ctx : Ctx} {i j : Nat} {edits : List Edit}

/-- What the pass has found where it returns edits. -/
theorem pReorderParams_spec (h : pReorderParams ctx i j = some edits) :
    ∃ fdecl, functionDeclaratorOf ctx.fn.spot = some fdecl ∧ i ≠ j ∧
      edits.Perm ((top ctx.root).iterSubtree.flatMap
        fun ℓ => ownEdits (fnNameOf ctx.fn.spot) i j ℓ.spot) ∧
      ∀ n, Under (top ctx.root) n →
        (∃ ds, declEdits (fnNameOf ctx.fn.spot) i j
          (listed .parameters isParameter fdecl).length n = some ds) ∧
        ∃ cs, callEdits (fnNameOf ctx.fn.spot) i j
          (listed .parameters isParameter fdecl).length n = some cs := by
  simp only [pReorderParams, guard, Option.bind_eq_bind, Option.bind_eq_some_iff, Option.pure_def,
    Option.some.injEq, Option.failure_eq_none, Option.ite_none_right_eq_some] at h
  obtain ⟨fdecl, hfdecl, _, -, _, ⟨⟨-, -, -, hij⟩, -⟩, ds, hds, cs, hcs, rfl⟩ := h
  refine ⟨fdecl, hfdecl, hij, nodes_edits_perm hij hds hcs, ?_⟩
  intro n hn
  have hmem := mem_iterSubtree.mpr hn
  exact ⟨exists_of_mapM_some hds hmem, exists_of_mapM_some hcs hmem⟩

/-- A node that names the function has a list of the right length, and the two elements
have changed places. -/
theorem keeps_direct (h : ctx.Listed) {name : Option Bytes} {out : Bytes} (hij : i ≠ j)
    (hperm : edits.Perm ((top ctx.root).iterSubtree.flatMap fun ℓ => ownEdits name i j ℓ.spot))
    (hout : applyEdits ctx.src edits = .ok out) {n : Node} (hn : Under (top ctx.root) n)
    {label : Option FieldName} {type : NodeType} {children : List Tree}
    (htree : n.spot.tree = .node label type children) {f : FieldName} {pick : Tree → Bool}
    (hlist : slotList name type children = some (f, pick)) {count : Nat} {es : List Edit}
    (hedits : listEdits i j count (listed f pick n.spot) = some es) :
    Keeps name i j f pick n.spot.tree ∧ (items f pick n.spot.tree).length = count := by
  rw [listEdits] at hedits
  split at hedits
  · cases hedits
  · rename_i hcount
    simp only [Option.bind_eq_bind, Option.bind_eq_some_iff] at hedits
    obtain ⟨a, ha, b, hb, -⟩ := hedits
    have hspot : n.spot = ⟨n.spot.start, .node label type children⟩ := by rw [← htree]
    rw [hspot] at ha hb
    have hslots := slotsOf_some hlist ha hb
    obtain ⟨list, hfield, hkept⟩ := h.listSlots hij hperm hout hn htree hslots
    have hfind := Spot.field_tree n.spot f
    rw [hfield, htree] at hfind
    constructor
    · rw [htree]
      exact keeps_of_slots hslots hij hfind.symm hkept
    · rw [items_listed, List.length_map]
      exact not_not.mp hcount

/-- A node that does not name the function has not changed. -/
theorem keeps_indirect (h : ctx.Listed) {name : Option Bytes} (hij : i ≠ j) {n : Node}
    (hn : Under (top ctx.root) n) {f : FieldName} {pick : Tree → Bool}
    (hf : f ∈ [FieldName.arguments, .parameters])
    (hpick : ∀ t, pick (reorder name i j none t) = pick t)
    (hlist : ∀ label type children, n.spot.tree = .node label type children →
      slotList name type children = none) :
    Keeps name i j f pick n.spot.tree ↔ SameAt i j f pick n.spot.tree := by
  have htidy := tidy_under hn h.tidy
  cases htree : n.spot.tree with
  | gap | token => simp [Keeps, SameAt, items, reorder, SyntaxTree.children]
  | node label type children =>
    rw [htree] at htidy
    exact keeps_iff_same hij htidy hf (hlist label type children htree) hpick

theorem tree_of_namedBy {name : Option Bytes} {g : FieldName} {s : Place} (h : namedBy name g s = true) :
    ∃ label type children, s.tree = .node label type children := by
  cases htree : s.tree with
  | gap | token =>
    rw [namedBy_iff, htree] at h
    cases h
  | node label type children => exact ⟨label, type, children, rfl⟩

/-- A node that has the type of one but does not name the function is none of its own. -/
theorem slotList_unnamed {name : Option Bytes} {s : Place} {kind : NodeType} {g : FieldName}
    (hkind : (kind, g) ∈ [(NodeType.functionDeclarator, FieldName.declarator), (.callExpression, .function)])
    (htype : isA [kind] s = true) (hnamed : ¬namedBy name g s = true) {label : Option FieldName}
    {type : NodeType} {children : List Tree} (htree : s.tree = .node label type children) :
    slotList name type children = none := by
  cases hslot : slotList name type children with
  | none => rfl
  | some p =>
    exfalso
    obtain ⟨pos, t⟩ := s
    obtain rfl : t = .node label type children := htree
    obtain rfl : type = kind := by simpa [isA, Spot.type?, SyntaxTree.type?] using htype
    rcases slotList_eq_some (f := p.1) pos label hslot with
      ⟨h, hname, -⟩ | ⟨h, hname, -⟩
    · obtain rfl : type = .functionDeclarator := by simpa [isA, Spot.type?, SyntaxTree.type?] using h
      obtain rfl : g = .declarator := by simpa using hkind
      exact hnamed hname
    · obtain rfl : type = .callExpression := by simpa [isA, Spot.type?, SyntaxTree.type?] using h
      obtain rfl : g = .function := by simpa using hkind
      exact hnamed hname

theorem declarator_keeps_iff (h : ctx.Listed) (hpass : pReorderParams ctx i j = some edits)
    {out : Bytes} (hout : applyEdits ctx.src edits = .ok out) {n : Node} (hn : Under (top ctx.root) n)
    (htype : isA [.functionDeclarator] n.spot = true) :
    Keeps (fnNameOf ctx.fn.spot) i j .parameters isParameter n.spot.tree ↔
      namedBy (fnNameOf ctx.fn.spot) .declarator n.spot = true ∨
        SameAt i j .parameters isParameter n.spot.tree := by
  obtain ⟨fdecl, -, hij, hperm, hnodes⟩ := pReorderParams_spec hpass
  by_cases hnamed : namedBy (fnNameOf ctx.fn.spot) .declarator n.spot = true
  · simp only [hnamed, true_or, iff_true]
    obtain ⟨⟨ds, hds⟩, -⟩ := hnodes n hn
    obtain ⟨label, type, children, htree⟩ := tree_of_namedBy hnamed
    have hspot : n.spot = ⟨n.spot.start, .node label type children⟩ := by rw [← htree]
    rw [declEdits, if_pos ⟨htype, hnamed⟩] at hds
    rw [hspot] at htype hnamed
    exact (keeps_direct h hij hperm hout hn htree (slotList_decl htype hnamed) hds).1
  · simp only [hnamed, false_or, Bool.false_eq_true]
    exact keeps_indirect h hij hn (by decide) (reorder_isParameter none) fun label type children =>
      slotList_unnamed (by decide) htype hnamed

theorem call_keeps_iff (h : ctx.Listed) (hpass : pReorderParams ctx i j = some edits)
    {out : Bytes} (hout : applyEdits ctx.src edits = .ok out) {n : Node} (hn : Under (top ctx.root) n)
    (htype : isA [.callExpression] n.spot = true)
    (hargs : ∀ fdecl, functionDeclaratorOf ctx.fn.spot = some fdecl →
      (items .parameters isParameter fdecl.tree).length ≤ (items .arguments isArgument n.spot.tree).length) :
    Keeps (fnNameOf ctx.fn.spot) i j .arguments isArgument n.spot.tree ↔
      namedBy (fnNameOf ctx.fn.spot) .function n.spot = true ∨
        SameAt i j .arguments isArgument n.spot.tree := by
  obtain ⟨fdecl, hfdecl, hij, hperm, hnodes⟩ := pReorderParams_spec hpass
  by_cases hnamed : namedBy (fnNameOf ctx.fn.spot) .function n.spot = true
  · simp only [hnamed, true_or, iff_true]
    obtain ⟨-, cs, hcs⟩ := hnodes n hn
    obtain ⟨label, type, children, htree⟩ := tree_of_namedBy hnamed
    have hspot : n.spot = ⟨n.spot.start, .node label type children⟩ := by rw [← htree]
    rw [callEdits, if_pos ⟨htype, hnamed⟩] at hcs
    rw [hspot] at htype hnamed
    obtain ⟨hkeeps, hcount⟩ := keeps_direct h hij hperm hout hn htree (slotList_call htype hnamed) hcs
    -- with as many arguments as parameters there is no room for a comment
    refine hkeeps.arguments fun u hu => ?_
    have hle := hargs fdecl hfdecl
    rw [items_isArgument] at hle
    rw [items_listed, List.length_map, ← hcount] at hle
    have hfull := Nat.le_antisymm (List.length_filter_le _ _) hle
    exact of_decide_eq_true (List.length_filter_eq_length_iff.mp hfull u hu)
  · simp only [hnamed, false_or, Bool.false_eq_true]
    have hpick : ∀ t, isArgument (reorder (fnNameOf ctx.fn.spot) i j none t) = isArgument t := by
      intro t
      rw [isArgument, isArgument, reorder_isNamed, reorder_type]
    exact keeps_indirect h hij hn (by decide) hpick fun label type children =>
      slotList_unnamed (by decide) htype hnamed

/-- A declarator or call is no list, so it is in the edited unit as it is edited by itself. -/
theorem use_present (h : ctx.Listed) (hpass : pReorderParams ctx i j = some edits)
    {out : Bytes} (hout : applyEdits ctx.src edits = .ok out) {n : Node} (hn : Under (top ctx.root) n)
    (htype : isA [.callExpression, .functionDeclarator] n.spot = true) :
    ∃ n', Under (top (reorder (fnNameOf ctx.fn.spot) i j none ctx.root)) n' ∧
      n'.spot.tree = reorder (fnNameOf ctx.fn.spot) i j none n.spot.tree := by
  obtain ⟨fdecl, -, hij, hperm, -⟩ := pReorderParams_spec hpass
  obtain ⟨within, n', hn', htree, hwithin⟩ := h.counterpart hij hperm hout hn
  cases within with
  | none => exact ⟨n', hn', htree⟩
  | some m =>
    have hplain := (hwithin m rfl).plain
    rw [isA, Spot.type?] at htype
    obtain ⟨type, hsome, hmem⟩ := (Option.any_eq_true _ _).mp htype
    rw [hsome] at hplain
    simp only [List.mem_cons, List.not_mem_nil, or_false, Option.some.injEq, decide_eq_true_eq]
      at hplain hmem
    exact absurd hmem hplain

/-- The exchange keeps what goes to which parameter exactly if each declarator and each call
names the function directly, or has the same in both places. -/
theorem reorderParams_keeps_iff (ctx : Ctx) (h : ctx.Listed) (i j : Nat) (edits : List Edit)
    (out : Bytes) (hpass : pReorderParams ctx i j = some edits)
    (hout : applyEdits ctx.src edits = .ok out) (uses : Uses ctx) :
    KeepsBindings ctx i j uses out ↔
      (∀ n, uses.declares n → namedBy (fnNameOf ctx.fn.spot) .declarator n.spot = true ∨
        SameAt i j .parameters isParameter n.spot.tree) ∧
      ∀ n, uses.reaches n → namedBy (fnNameOf ctx.fn.spot) .function n.spot = true ∨
        SameAt i j .arguments isArgument n.spot.tree := by
  have hdeclares := fun n hn =>
    declarator_keeps_iff h hpass hout (uses.declarator n hn).1 (uses.declarator n hn).2
  have hreaches := fun n hn =>
    call_keeps_iff h hpass hout (uses.call n hn).1 (uses.call n hn).2.1 (uses.call n hn).2.2
  constructor
  · intro hkeeps
    exact ⟨fun n hn => (hdeclares n hn).mp (hkeeps.declarators n hn),
      fun n hn => (hreaches n hn).mp (hkeeps.calls n hn)⟩
  · rintro ⟨hds, hcs⟩
    obtain ⟨fdecl, hfdecl, hij, hperm, -⟩ := pReorderParams_spec hpass
    have hnamed := h.found fdecl hfdecl
    obtain ⟨label, type, children, htree⟩ := tree_of_namedBy hnamed
    obtain ⟨hfunction, above, hunder⟩ := functionDeclaratorOf_under h.under hfdecl (by rw [htree]; rfl)
    have hdoc := hperm.trans (docEdits_perm ctx.root).symm
    refine ⟨reorder_text h.solid hdoc hout, ?_, ⟨fdecl, hfdecl, ?_⟩,
      fun n hn => (hdeclares n hn).mpr (hds n hn), fun n hn => (hreaches n hn).mpr (hcs n hn)⟩
    · rintro n (hn | hn)
      · obtain ⟨hroot, htype⟩ := uses.declarator n hn
        exact use_present h hpass hout hroot (isA_subset (by simp) htype)
      · obtain ⟨hroot, htype, -⟩ := uses.call n hn
        exact use_present h hpass hout hroot (isA_subset (by simp) htype)
    · exact (declarator_keeps_iff h hpass hout hunder hfunction).mpr (.inl hnamed)

end

/-! ## A unit with one call -/

def intParam (x : String) : Tree :=
  .node none .parameterDeclaration [.token (some .type) .primitiveType true (ascii "int"),
    .gap (ascii " "), ident (some .declarator) x]

/-- `static int f(int a,int b)\x7breturn a-b;\x7d` -/
def differenceTree : Tree :=
  .node none .functionDefinition [
    .token none .storageClassSpecifier true (ascii "static"), .gap (ascii " "),
    .token (some .type) .primitiveType true (ascii "int"), .gap (ascii " "),
    .node (some .declarator) .functionDeclarator [ident (some .declarator) "f",
      .node (some .parameters) .parameterList [mark "(", intParam "a", mark ",", intParam "b", mark ")"]],
    .node (some .body) .compoundStatement [mark "\x7b",
      .node none .returnStatement [mark "return", .gap (ascii " "),
        .node none .binaryExpression [ident (some .left) "a",
          .token (some .operator) (.other ['-']) false (ascii "-"), ident (some .right) "b"], mark ";"],
      mark "\x7d"]]

/-- `int g()\x7breturn callee(1,2);\x7d` -/
def callerTree (callee : Tree) : Tree :=
  .node none .functionDefinition [
    .token (some .type) .primitiveType true (ascii "int"), .gap (ascii " "),
    .node (some .declarator) .functionDeclarator [ident (some .declarator) "g",
      .node (some .parameters) .parameterList [mark "(", mark ")"]],
    .node (some .body) .compoundStatement [mark "\x7b",
      .node none .returnStatement [mark "return", .gap (ascii " "),
        .node none .callExpression [callee,
          .node (some .arguments) .argumentList [mark "(",
            .token none .numberLiteral true (ascii "1"), mark ",",
            .token none .numberLiteral true (ascii "2"), mark ")"]], mark ";"],
      mark "\x7d"]]

def plainName : Tree := ident (some .function) "f"

def nameInParens : Tree :=
  .node (some .function) .parenthesizedExpression [mark "(", ident none "f", mark ")"]

def callRoot (callee : Tree) : Tree := .node none .translationUnit [differenceTree, callerTree callee]

def callCtx (callee : Tree) : Ctx where
  root := callRoot callee
  fn := ⟨[⟨0, callRoot callee⟩], 0, differenceTree⟩
  types := none

theorem callCtx_listed {callee : Tree} (hsolid : (callRoot callee).solid = true)
    (htidy : tidy (callRoot callee) = true) : (callCtx callee).Listed where
  found := by
    intro fdecl hfdecl
    obtain rfl := Option.some.inj hfdecl
    rfl
  under := by
    refine .child (ℓ := top (callRoot callee)) .self ?_
    simp [top, callRoot, Spot.namedChildren, Spot.children, Spot.spotsFrom, SyntaxTree.children,
      SyntaxTree.isNamed, differenceTree, callerTree]
  solid := hsolid
  tidy := htidy

/-- The definition is the only declarator of `f`, and the call reaches it. -/
def callUses (callee : Tree) (h : ∀ n ∈ (top (callRoot callee)).iterSubtree,
    isA [.callExpression] n.spot = true → 2 ≤ (items .arguments isArgument n.spot.tree).length) :
    Uses (callCtx callee) where
  declares n := Under (top (callRoot callee)) n ∧ isA [.functionDeclarator] n.spot = true ∧
    namedBy (some (ascii "f")) .declarator n.spot = true
  reaches n := Under (top (callRoot callee)) n ∧ isA [.callExpression] n.spot = true
  declarator n hn := ⟨hn.1, hn.2.1⟩
  call n hn := by
    refine ⟨hn.1, hn.2, fun fdecl hfdecl => ?_⟩
    obtain rfl := Option.some.inj hfdecl
    exact h n (mem_iterSubtree.mpr hn.1) hn.2

theorem call_args (callee : Tree) (h : callee = plainName ∨ callee = nameInParens) :
    ∀ n ∈ (top (callRoot callee)).iterSubtree, isA [.callExpression] n.spot = true →
      2 ≤ (items .arguments isArgument n.spot.tree).length := by
  rcases h with rfl | rfl
  · decide +kernel
  · decide +kernel

/-- What the pass makes of the unit. -/
theorem call_accepted {callee : Tree} {text : Bytes}
    (h : (pReorderParams (callCtx callee) 0 1).bind
      (fun edits => (applyEdits (callCtx callee).src edits).toOption) = some text) :
    ∃ edits, pReorderParams (callCtx callee) 0 1 = some edits ∧
      applyEdits (callCtx callee).src edits = .ok text := by
  obtain ⟨edits, hpass, hout⟩ := Option.bind_eq_some_iff.mp h
  refine ⟨edits, hpass, ?_⟩
  cases hrun : applyEdits (callCtx callee).src edits with
  | error e =>
    rw [hrun] at hout
    cases hout
  | ok out =>
    rw [hrun] at hout
    exact congrArg Except.ok (Option.some.inj hout)

theorem plain_call_kept : ∃ edits out, pReorderParams (callCtx plainName) 0 1 = some edits ∧
    applyEdits (callCtx plainName).src edits = .ok out ∧
    KeepsBindings (callCtx plainName) 0 1 (callUses plainName (call_args _ (.inl rfl))) out := by
  obtain ⟨edits, hpass, hout⟩ := @call_accepted plainName
    (ascii "static int f(int b,int a)\x7breturn a-b;\x7dint g()\x7breturn f(2,1);\x7d")
    (by decide +kernel)
  refine ⟨edits, _, hpass, hout, (reorderParams_keeps_iff _
    (callCtx_listed (by decide +kernel) (by decide +kernel)) 0 1 edits _ hpass hout _).mpr
    ⟨fun n hn => .inl hn.2.2, fun n hn => .inl ?_⟩⟩
  have hall : ∀ n ∈ (top (callRoot plainName)).iterSubtree, isA [.callExpression] n.spot = true →
      namedBy (fnNameOf (callCtx plainName).fn.spot) .function n.spot = true := by decide +kernel
  exact hall n (mem_iterSubtree.mpr hn.1) hn.2

/-- The call `(f)(1,2)` is left as it is. -/
theorem parenthesized_call_swapped : ∃ (ctx : Ctx) (i j : Nat) (edits : List Edit) (out : Bytes)
    (uses : Uses ctx), ctx.Listed ∧ pReorderParams ctx i j = some edits ∧
      applyEdits ctx.src edits = .ok out ∧ ¬KeepsBindings ctx i j uses out := by
  obtain ⟨edits, hpass, hout⟩ := @call_accepted nameInParens
    (ascii "static int f(int b,int a)\x7breturn a-b;\x7dint g()\x7breturn (f)(1,2);\x7d")
    (by decide +kernel)
  have hlisted : (callCtx nameInParens).Listed :=
    callCtx_listed (by decide +kernel) (by decide +kernel)
  refine ⟨callCtx nameInParens, 0, 1, edits, _, callUses nameInParens (call_args _ (.inr rfl)), hlisted,
    hpass, hout, fun hkeeps => ?_⟩
  have hcall : ∃ n ∈ (top (callRoot nameInParens)).iterSubtree, isA [.callExpression] n.spot = true ∧
      namedBy (fnNameOf (callCtx nameInParens).fn.spot) .function n.spot = false ∧
      (items .arguments isArgument n.spot.tree)[0]?.map SyntaxTree.text ≠
        (items .arguments isArgument n.spot.tree)[1]?.map SyntaxTree.text := by decide +kernel
  obtain ⟨n, hn, htype, hnamed, htexts⟩ := hcall
  have hreaches := (callUses nameInParens (call_args _ (.inr rfl))).call n
    ⟨mem_iterSubtree.mp hn, htype⟩
  rcases (call_keeps_iff hlisted hpass hout hreaches.1 htype hreaches.2.2).mp
    (hkeeps.calls n ⟨hreaches.1, htype⟩) with hname | hsame
  · rw [hname] at hnamed
    cases hnamed
  · exact htexts (congrArg (Option.map SyntaxTree.text) hsame)

end MeleeHarness.SrcMutate.Cst
