import MeleeHarness.SrcMutate.ParseTree
import Mathlib.Data.List.Infix

/-!
# The tree with two parameters exchanged

`p_reorder_params` exchanges two parameters in every declarator of a static function and
the two arguments in every call of it that is written as its name and a list. Its edits are
those that make the tree `reorder`.

* `docEdits_perm`: the edits are those of a walk through the text from front to back;
* `reorder_text`: where they are accepted, they make the text of that tree;
* `nodes_edits_perm`: they are the edits of the pass.
-/

namespace MeleeHarness.SrcMutate.Cst

open Lib Permute

def swapSpans (a b : Place) : List Edit := [⟨a.start, a.stop, b.text⟩, ⟨b.start, b.stop, a.text⟩]

def isParameter (t : Tree) : Bool := t.isNamed ∧ t.type? = some .parameterDeclaration

section
variable (name : Option Bytes) (i j : Nat)

/-- The field is an identifier of that name. -/
def namedBy (f : FieldName) (s : Place) : Bool :=
  match s.field f with
  | some nm => isA [.identifier] nm ∧ some nm.text = name
  | none => false

/-- What stands in the list that is a field of a node. -/
def listed (f : FieldName) (pick : Tree → Bool) (s : Place) : List Place :=
  match s.field f with
  | some list => list.children.filter fun c => pick c.tree
  | none => []

/-- The edits for one list, unless it has another length than the parameters. -/
def listEdits (count : Nat) (items : List Place) : Option (List Edit) :=
  if items.length ≠ count then none
  else do
    let a ← items[i]?
    let b ← items[j]?
    return swapSpans a b

def declEdits (count : Nat) (n : Node) : Option (List Edit) :=
  if isA [.functionDeclarator] n.spot ∧ namedBy name .declarator n.spot then
    listEdits i j count (listed .parameters isParameter n.spot)
  else some []

def callEdits (count : Nat) (n : Node) : Option (List Edit) :=
  if isA [.callExpression] n.spot ∧ namedBy name .function n.spot then
    listEdits i j count (listed .arguments SyntaxTree.isNamed n.spot)
  else some []

end

/-- `i` and `j` are the two places that the random source gives. -/
def pReorderParams (ctx : Ctx) (i j : Nat) : Option (List Edit) := do
  let fdecl ← functionDeclaratorOf ctx.fn.spot
  guard (ascii "static" <:+: slice ctx.src ctx.fn.spot.start fdecl.start)
  let params := listed .parameters isParameter fdecl
  guard (2 ≤ params.length ∧ i < params.length ∧ j < params.length ∧ i ≠ j)
  let name := fnNameOf ctx.fn.spot
  let decls ← (top ctx.root).iterSubtree.mapM (declEdits name i j params.length)
  let calls ← (top ctx.root).iterSubtree.mapM (callEdits name i j params.length)
  return decls.flatten ++ calls.flatten

/-! ## The edited tree -/

/-- The list of a node in which two elements change places: which field it is, what
counts as an element, and the two. -/
structure Slots where
  field : FieldName
  pick : Tree → Bool
  first : Tree
  second : Tree

section
variable (name : Option Bytes) (i j : Nat)

/-- The list of a declarator or call that names the function. -/
def slotList (type : NodeType) (children : List Tree) : Option (FieldName × (Tree → Bool)) :=
  let named (f : FieldName) := (children.find? (·.label = some f)).any fun nm =>
    nm.type? = some .identifier ∧ some nm.text = name
  if type = .functionDeclarator ∧ named .declarator then some (.parameters, isParameter)
  else if type = .callExpression ∧ named .function then some (.arguments, SyntaxTree.isNamed)
  else none

def slotsOf (type : NodeType) (children : List Tree) : Option Slots := do
  let (f, pick) ← slotList name type children
  let list ← children.find? (·.label = some f)
  let a ← (list.children.filter pick)[i]?
  let b ← (list.children.filter pick)[j]?
  return ⟨f, pick, a, b⟩

/-- What comes in the place of the `n`th element. -/
def Slots.new (m : Slots) (n : Nat) : Option Tree :=
  if n = i then some m.second else if n = j then some m.first else none

/-- What comes in the place of a child of a list. -/
def slotTree (within : Option Slots) (n : Nat) (t : Tree) : Option Tree :=
  match within with
  | some m => if m.pick t then m.new i j n else none
  | none => none

def counted (within : Option Slots) (n : Nat) (t : Tree) : Nat :=
  if within.any (·.pick t) then n + 1 else n

/-- The child is the list of the node above it. -/
def isListOf (own : Option Slots) (t : Tree) : Bool := own.any fun m => t.label = some m.field

mutual

/-- The tree with the edits made; `within` is given for the list of a node. -/
def reorder (within : Option Slots) : Tree → Tree
  | .node label type children =>
    .node label type (reorderAll (slotsOf name i j type children) within 0 children)
  | t => t

def reorderAll (own within : Option Slots) (n : Nat) : List Tree → List Tree
  | [] => []
  | t :: rest =>
    (match slotTree i j within n t with
      | some u => u
      | none => reorder (if isListOf own t then own else none) t) ::
      reorderAll (if isListOf own t then none else own) within (counted within n t) rest

end

mutual

/-- The edits in the order of the text. -/
def docEdits (within : Option Slots) (pos : Nat) : Tree → List Edit
  | .node _ type children =>
    docEditsAll (slotsOf name i j type children) within 0 pos children
  | _ => []

def docEditsAll (own within : Option Slots) (n pos : Nat) : List Tree → List Edit
  | [] => []
  | t :: rest =>
    ((slotTree i j within n t).toList.map fun u => ⟨pos, (pos + t.size : Nat), u.text⟩) ++
      (docEdits (if isListOf own t then own else none) pos t ++
      docEditsAll (if isListOf own t then none else own) within (counted within n t) (pos + t.size)
        rest)

end

/-- The edits for the elements of a list. -/
def slotEdits (within : Option Slots) (n pos : Nat) : List Tree → List Edit
  | [] => []
  | t :: rest =>
    ((slotTree i j within n t).toList.map fun u => ⟨pos, (pos + t.size : Nat), u.text⟩) ++
      slotEdits within (counted within n t) (pos + t.size) rest

/-- The edits for the list among the children of a node. -/
def fieldEdits (own : Option Slots) (pos : Nat) : List Tree → List Edit
  | [] => []
  | t :: rest =>
    if isListOf own t then slotEdits i j own 0 pos t.children
    else fieldEdits own (pos + t.size) rest

def ownEdits (s : Place) : List Edit :=
  match s.tree with
  | .node _ type children => fieldEdits i j (slotsOf name i j type children) s.start children
  | _ => []

end

/-! ## The order of the edits -/

section
variable {name : Option Bytes} {i j : Nat}

theorem slotEdits_none (n pos : Nat) (ts : List Tree) : slotEdits i j none n pos ts = [] := by
  induction ts generalizing n pos with
  | nil => rfl
  | cons t ts ih =>
    rw [slotEdits, ih]
    rfl

theorem fieldEdits_none (pos : Nat) (ts : List Tree) : fieldEdits i j none pos ts = [] := by
  induction ts generalizing pos with
  | nil => rfl
  | cons t ts ih =>
    rw [fieldEdits, ih]
    rfl

theorem walk_unnamed {t : Tree} (h : t.isNamed = false) (parents : List Place) (pos : Nat) :
    (t.walk parents pos).flatMap (fun ℓ => ownEdits name i j ℓ.spot) = [] := by
  cases t with
  | gap | token => rfl
  | node => cases h

mutual

theorem docEdits_count (e : Edit) : ∀ (t : Tree) (within : Option Slots) (parents : List Place)
    (pos : Nat), (docEdits name i j within pos t).count e =
      (slotEdits i j within 0 pos t.children).count e +
      ((t.walk parents pos).flatMap fun ℓ => ownEdits name i j ℓ.spot).count e
  | .gap _, _, _, _ => rfl
  | .token _ _ _ _, _, _, _ => rfl
  | .node label type children, within, parents, pos => by
    rw [docEdits, docEditsAll_count e children _ within 0
      (⟨pos, .node label type children⟩ :: parents) pos, SyntaxTree.walk, List.flatMap_cons,
      List.count_append, SyntaxTree.children]
    change _ = _ + (List.count e (fieldEdits i j (slotsOf name i j type children) pos children) + _)
    omega

theorem docEditsAll_count (e : Edit) : ∀ (ts : List Tree) (own within : Option Slots) (n : Nat)
    (parents : List Place) (pos : Nat), (docEditsAll name i j own within n pos ts).count e =
      (slotEdits i j within n pos ts).count e + (fieldEdits i j own pos ts).count e +
      ((SyntaxTree.walkAll parents pos ts).flatMap fun ℓ => ownEdits name i j ℓ.spot).count e
  | [], _, _, _, _, _ => rfl
  | t :: rest, own, within, n, parents, pos => by
    have ht := docEdits_count e t (if isListOf own t then own else none) parents pos
    have hrest := docEditsAll_count e rest (if isListOf own t then none else own) within
      (counted within n t) parents (pos + t.size)
    have hwalk : (if t.isNamed then t.walk parents pos else []).flatMap
        (fun ℓ => ownEdits name i j ℓ.spot) =
        (t.walk parents pos).flatMap fun ℓ => ownEdits name i j ℓ.spot := by
      by_cases hnamed : t.isNamed = true
      · rw [if_pos hnamed]
      · rw [if_neg hnamed, walk_unnamed (Bool.eq_false_iff.mpr hnamed)]
        rfl
    rw [docEditsAll, slotEdits, fieldEdits, SyntaxTree.walkAll, List.flatMap_append, hwalk]
    by_cases hlist : isListOf own t = true
    · simp only [if_pos hlist] at ht hrest ⊢
      rw [fieldEdits_none, List.count_nil] at hrest
      simp only [List.count_append]
      omega
    · simp only [if_neg hlist] at ht hrest ⊢
      rw [slotEdits_none, List.count_nil] at ht
      simp only [List.count_append]
      omega

end

/-- The edits in the order of the text are those of the walk. -/
theorem docEdits_perm (root : Tree) : (docEdits name i j none 0 root).Perm
    ((top root).iterSubtree.flatMap fun ℓ => ownEdits name i j ℓ.spot) := by
  rw [List.perm_iff_count]
  intro e
  have h := @docEdits_count name i j e root none [] 0
  rw [slotEdits_none, List.count_nil, Nat.zero_add] at h
  exact h

/-- What counts as an element is a node or a named token. -/
def Slots.Named (m : Slots) : Prop := ∀ t, m.pick t = true → t.isNamed = true

theorem slotsOf_named {type : NodeType} {children : List Tree} {m : Slots}
    (h : slotsOf name i j type children = some m) : m.Named := by
  simp only [slotsOf, Option.bind_eq_bind, Option.bind_eq_some_iff, Option.pure_def,
    Option.some.injEq] at h
  obtain ⟨⟨f, pick⟩, hlist, _, -, _, -, _, -, rfl⟩ := h
  intro t ht
  simp only [slotList] at hlist
  split at hlist
  · cases hlist
    exact (of_decide_eq_true ht).1
  · split at hlist
    · cases hlist
      exact ht
    · cases hlist

theorem slotTree_pick {within : Option Slots} {n : Nat} {t u : Tree}
    (h : slotTree i j within n t = some u) : ∃ m, within = some m ∧ m.pick t = true ∧
      m.new i j n = some u := by
  cases within with
  | none => cases h
  | some m =>
    simp only [slotTree] at h
    split at h
    · rename_i hpick
      exact ⟨m, rfl, hpick, h⟩
    · cases h

/-- The context of a child of a node. -/
theorem named_context {own : Option Slots} (h : ∀ m ∈ own, m.Named) (t : Tree) :
    (∀ m ∈ if isListOf own t then own else none, m.Named) ∧
      ∀ m ∈ if isListOf own t then none else own, m.Named := by
  constructor
  · split
    · exact h
    · simp
  · split
    · simp
    · exact h

theorem named_size {t : Tree} (hsolid : t.solid = true) (hnamed : t.isNamed = true) : 0 < t.size := by
  have h : 0 < 0 + t.size := Spot.start_lt_stop (s := ⟨0, t⟩) hsolid hnamed
  omega

/-- An edit that is in a span and not empty. -/
def Fits (lo hi : Nat) (e : Edit) : Prop := (lo : Int) ≤ e.start ∧ e.start < e.stop ∧ e.stop ≤ (hi : Int)

mutual

theorem docEdits_fits : ∀ (t : Tree) (within : Option Slots) (pos : Nat), t.solid = true →
    (∀ m ∈ within, m.Named) →
    (∀ e ∈ docEdits name i j within pos t, Fits pos (pos + t.size) e) ∧
      (docEdits name i j within pos t).Pairwise fun a b => a.start ≤ b.start
  | .gap _, _, _, _, _ => ⟨fun _ he => (nomatch he), .nil⟩
  | .token _ _ _ _, _, _, _, _ => ⟨fun _ he => (nomatch he), .nil⟩
  | .node label type children, within, pos, hsolid, hwithin => by
    rw [SyntaxTree.solid, Bool.and_eq_true] at hsolid
    exact docEditsAll_fits children _ within 0 pos hsolid.2 (fun m hm => slotsOf_named hm) hwithin

theorem docEditsAll_fits : ∀ (ts : List Tree) (own within : Option Slots) (n pos : Nat),
    SyntaxTree.solidAll ts = true → (∀ m ∈ own, m.Named) → (∀ m ∈ within, m.Named) →
    (∀ e ∈ docEditsAll name i j own within n pos ts,
      Fits pos (pos + (SyntaxTree.textAll ts).length) e) ∧
      (docEditsAll name i j own within n pos ts).Pairwise fun a b => a.start ≤ b.start
  | [], _, _, _, _, _, _, _ => ⟨fun _ he => (nomatch he), .nil⟩
  | t :: rest, own, within, n, pos, hsolid, hown, hwithin => by
    rw [SyntaxTree.solidAll, Bool.and_eq_true] at hsolid
    obtain ⟨hctx, hctx'⟩ := named_context hown t
    obtain ⟨ht, htsorted⟩ := docEdits_fits t _ pos hsolid.1 hctx
    obtain ⟨hrest, hsorted⟩ := docEditsAll_fits rest _ within (counted within n t) (pos + t.size)
      hsolid.2 hctx' hwithin
    have hsize : pos + (SyntaxTree.textAll (t :: rest)).length =
        pos + t.size + (SyntaxTree.textAll rest).length := by
      rw [SyntaxTree.textAll, List.length_append, SyntaxTree.size, Nat.add_assoc]
    have hslot : ∀ e ∈ (slotTree i j within n t).toList.map
        (fun u => (⟨pos, (pos + t.size : Nat), u.text⟩ : Edit)),
        e.start = pos ∧ Fits pos (pos + t.size) e := by
      intro e he
      obtain ⟨u, hu, rfl⟩ := List.mem_map.mp he
      obtain ⟨m, rfl, hpick, -⟩ := slotTree_pick (Option.mem_toList.mp hu)
      have hpos := named_size hsolid.1 (hwithin m rfl t hpick)
      exact ⟨rfl, Int.le_refl _, Int.ofNat_lt.mpr (by omega), Int.le_refl _⟩
    rw [docEditsAll, hsize]
    constructor
    · intro e he
      simp only [List.mem_append] at he
      rcases he with he | he | he
      · obtain ⟨-, h₁, h₂, h₃⟩ := hslot e he
        exact ⟨h₁, h₂, by omega⟩
      · obtain ⟨h₁, h₂, h₃⟩ := ht e he
        exact ⟨h₁, h₂, by omega⟩
      · obtain ⟨h₁, h₂, h₃⟩ := hrest e he
        exact ⟨by omega, h₂, h₃⟩
    · rw [List.pairwise_append, List.pairwise_append]
      refine ⟨?_, ⟨htsorted, hsorted, ?_⟩, ?_⟩
      · cases slotTree i j within n t with
        | none => exact .nil
        | some u => exact List.pairwise_singleton _ _
      · intro a ha b hb
        obtain ⟨-, h₁, h₂⟩ := ht a ha
        obtain ⟨h₃, -, -⟩ := hrest b hb
        omega
      · intro a ha b hb
        obtain ⟨h₁, -⟩ := hslot a ha
        rcases List.mem_append.mp hb with hb | hb
        · obtain ⟨h₂, -, -⟩ := ht b hb
          omega
        · obtain ⟨h₂, -, -⟩ := hrest b hb
          omega

end

/-! ## What the edits make -/

/-- The text stands there in the source. -/
def Stands (src : Bytes) (pos : Nat) (text : Bytes) : Prop :=
  ∃ before after, src = before ++ text ++ after ∧ before.length = pos

theorem Stands.split {src a b : Bytes} {pos : Nat} (h : Stands src pos (a ++ b)) :
    Stands src pos a ∧ Stands src (pos + a.length) b := by
  obtain ⟨before, after, rfl, hpos⟩ := h
  refine ⟨⟨before, b ++ after, by simp, hpos⟩, before ++ a, after, by simp, ?_⟩
  rw [List.length_append, hpos]

/-- What has been written, with the source up to `q` that is still to be copied. -/
def flushed (src : Bytes) (p : Nat) (out : Bytes) (q : Nat) : Bytes := out ++ (src.take q).drop p

theorem flushed_stands {src text : Bytes} {p q : Nat} (h : Stands src q text) (hp : p ≤ q)
    (out : Bytes) : flushed src p out (q + text.length) = flushed src p out q ++ text := by
  obtain ⟨before, after, rfl, rfl⟩ := h
  rw [flushed, flushed, ← List.length_append, List.take_left, List.append_assoc before, List.take_left,
    List.drop_append_of_le_length hp, List.append_assoc]

theorem flushed_self (src : Bytes) (p : Nat) (out : Bytes) : flushed src p out p = out := by
  simp [flushed]

/-- No edit may start in what has been replaced. -/
theorem splice_nil {src out r : Bytes} {edits rest : List Edit} {lo hi : Nat}
    (hfits : ∀ e ∈ edits, Fits lo hi e) (h : spliceEdits src (hi : Int) out (edits ++ rest) = .ok r) :
    edits = [] := by
  cases edits with
  | nil => rfl
  | cons e edits =>
    obtain ⟨-, hlt, hle⟩ := hfits e List.mem_cons_self
    rw [List.cons_append, spliceEdits, if_pos (by omega)] at h
    cases h

section
variable {src : Bytes}

mutual

theorem splice_docEdits : ∀ (t : Tree) (within : Option Slots) (pos : Nat), t.solid = true →
    (∀ m ∈ within, m.Named) → Stands src pos t.text → ∀ (p : Nat) (out r : Bytes)
    (rest : List Edit), p ≤ pos →
    spliceEdits src p out (docEdits name i j within pos t ++ rest) = .ok r →
    ∃ (p' : Nat) (out' : Bytes), p' ≤ pos + t.size ∧ spliceEdits src p' out' rest = .ok r ∧
      flushed src p' out' (pos + t.size) = flushed src p out pos ++ (reorder name i j within t).text
  | .gap _, _, _, _, _, hstands, p, out, _, _, hp, h =>
    ⟨p, out, Nat.le_trans hp (Nat.le_add_right _ _), h, flushed_stands hstands hp out⟩
  | .token _ _ _ _, _, _, _, _, hstands, p, out, _, _, hp, h =>
    ⟨p, out, Nat.le_trans hp (Nat.le_add_right _ _), h, flushed_stands hstands hp out⟩
  | .node label type children, within, pos, hsolid, hwithin, hstands, p, out, r, rest, hp, h => by
    rw [SyntaxTree.solid, Bool.and_eq_true] at hsolid
    exact splice_docEditsAll children _ within 0 pos hsolid.2 (fun m hm => slotsOf_named hm) hwithin
      hstands p out r rest hp h

theorem splice_docEditsAll : ∀ (ts : List Tree) (own within : Option Slots) (n pos : Nat),
    SyntaxTree.solidAll ts = true → (∀ m ∈ own, m.Named) → (∀ m ∈ within, m.Named) →
    Stands src pos (SyntaxTree.textAll ts) → ∀ (p : Nat) (out r : Bytes) (rest : List Edit),
    p ≤ pos → spliceEdits src p out (docEditsAll name i j own within n pos ts ++ rest) = .ok r →
    ∃ (p' : Nat) (out' : Bytes), p' ≤ pos + (SyntaxTree.textAll ts).length ∧
      spliceEdits src p' out' rest = .ok r ∧
      flushed src p' out' (pos + (SyntaxTree.textAll ts).length) =
        flushed src p out pos ++ SyntaxTree.textAll (reorderAll name i j own within n ts)
  | [], _, _, _, _, _, _, _, _, p, out, _, _, hp, h =>
    ⟨p, out, hp, h, (List.append_nil _).symm⟩
  | t :: ts, own, within, n, pos, hsolid, hown, hwithin, hstands, p, out, r, rest, hp, h => by
    rw [SyntaxTree.solidAll, Bool.and_eq_true] at hsolid
    obtain ⟨hctx, hctx'⟩ := named_context hown t
    obtain ⟨hfirst, hlater⟩ := Stands.split hstands
    have hsize : pos + (SyntaxTree.textAll (t :: ts)).length =
        pos + t.size + (SyntaxTree.textAll ts).length := by
      rw [SyntaxTree.textAll, List.length_append, SyntaxTree.size, Nat.add_assoc]
    rw [docEditsAll, List.append_assoc, List.append_assoc] at h
    -- the text up to the end of the first tree
    obtain ⟨q, text, hq, hrest, hflush⟩ : ∃ (q : Nat) (text : Bytes), q ≤ pos + t.size ∧
        spliceEdits src q text (docEditsAll name i j (if isListOf own t then none else own) within
          (counted within n t) (pos + t.size) ts ++ rest) = .ok r ∧
        flushed src q text (pos + t.size) = flushed src p out pos ++
          (match slotTree i j within n t with
            | some u => u
            | none => reorder name i j (if isListOf own t then own else none) t).text := by
      cases hslot : slotTree i j within n t with
      | none =>
        rw [hslot] at h
        exact splice_docEdits t _ pos hsolid.1 hctx hfirst p out r _ hp h
      | some u =>
        rw [hslot] at h
        have hstep : ¬((pos : Int) < p) := by omega
        rw [Option.toList_some, List.map_singleton, List.singleton_append, spliceEdits, if_neg hstep,
          slice_natCast] at h
        have hnil := splice_nil (docEdits_fits t _ pos hsolid.1 hctx).1 h
        rw [hnil, List.nil_append] at h
        refine ⟨pos + t.size, _, Nat.le_refl _, h, ?_⟩
        rw [flushed_self]
        rfl
    obtain ⟨p', out', hp', hr, hflush'⟩ := splice_docEditsAll ts _ within (counted within n t)
      (pos + t.size) hsolid.2 hctx' hwithin hlater q text r rest hq hrest
    refine ⟨p', out', by omega, hr, ?_⟩
    rw [hsize, hflush', hflush, reorderAll, SyntaxTree.textAll, List.append_assoc]

end

end

/-- Where the edits are accepted, the text is that of the edited tree. -/
theorem reorder_text {root : Tree} (hsolid : root.solid = true) {edits : List Edit} {out : Bytes}
    (hperm : edits.Perm (docEdits name i j none 0 root)) (h : applyEdits root.text edits = .ok out) :
    out = (reorder name i j none root).text := by
  obtain ⟨hfits, hsorted⟩ := @docEdits_fits name i j root none 0 hsolid
    (by simp)
  have hfit : ∀ e ∈ edits, Fits 0 root.size e := by
    intro e he
    simpa using hfits e (hperm.subset he)
  have hdoc := applyEdits_perm (fun e he => ?_) (fun e he => (hfit e he).2.1) h hperm.symm
  · have hrun : spliceEdits root.text (0 : Nat) [] (docEdits name i j none 0 root ++ []) = .ok out := by
      rw [List.append_nil, ← hdoc, applyEdits, hsorted.insertionSort_eq]
      rfl
    have hstands : Stands root.text 0 root.text := ⟨[], [], by simp, rfl⟩
    obtain ⟨p, text, -, hend, hflush⟩ := splice_docEdits root none 0 hsolid (by simp) hstands 0 [] out
      [] (Nat.le_refl 0) hrun
    rw [spliceEdits, sliceFrom_natCast] at hend
    rw [← Except.ok.inj hend]
    simpa [flushed, SyntaxTree.size] using hflush
  · obtain ⟨hlo, hlt, hhi⟩ := hfit e he
    exact ⟨hlo, by omega, hhi⟩

/-! ## The edits of the pass -/

theorem slotEdits_eq (m : Slots) (n pos : Nat) (ts : List Tree) : slotEdits i j (some m) n pos ts =
    (((Spot.spotsFrom pos ts).filter fun s => m.pick s.tree).zipIdx n).flatMap fun (s, q) =>
      (m.new i j q).toList.map fun u => ⟨s.start, s.stop, u.text⟩ := by
  induction ts generalizing n pos with
  | nil => rfl
  | cons t ts ih =>
    rw [slotEdits, ih, Spot.spotsFrom, List.filter_cons]
    by_cases hpick : m.pick t = true
    · simp [hpick, slotTree, counted, List.zipIdx_cons, Spot.stop]
    · simp [hpick, slotTree, counted]

/-- Of what is numbered, only the `i`th and the `j`th give something. -/
theorem zipIdx_two {α β : Type} {f g : α → β} (hij : i ≠ j) (n : Nat) (xs : List α) :
    ((xs.zipIdx n).flatMap fun (x, q) => if q = i then [f x] else if q = j then [g x] else []).Perm
      ((if n ≤ i then xs[i - n]? else none).toList.map f ++
        (if n ≤ j then xs[j - n]? else none).toList.map g) := by
  induction xs generalizing n with
  | nil => simp
  | cons x xs ih =>
    have hrest := ih (n + 1)
    rw [List.zipIdx_cons, List.flatMap_cons]
    have hshift : ∀ k, (if n ≤ k then (x :: xs)[k - n]? else none) =
        if n = k then some x else if n + 1 ≤ k then xs[k - (n + 1)]? else none := by
      intro k
      by_cases hk : n = k
      · subst hk
        simp
      · by_cases hle : n + 1 ≤ k
        · rw [if_pos (by omega), if_neg hk, if_pos hle, show k - n = k - (n + 1) + 1 by omega,
            List.getElem?_cons_succ]
        · rw [if_neg (by omega), if_neg hk, if_neg hle]
    rw [hshift i, hshift j]
    by_cases hi : n = i
    · subst hi
      rw [if_neg (by omega)] at hrest
      simpa [hij] using hrest
    · by_cases hj : n = j
      · subst hj
        rw [if_neg (by omega : ¬n + 1 ≤ n)] at hrest
        simp only [if_neg hi, if_true]
        exact (hrest.cons _).trans (by simpa using (List.perm_append_singleton _ _).symm)
      · simpa [hi, hj] using hrest

/-- The edits for the list are those of its elements. -/
theorem fieldEdits_eq {m : Slots} {pos : Nat} {ts : List Tree} {list : Place}
    (h : (Spot.spotsFrom pos ts).find? (·.tree.label = some m.field) = some list) :
    fieldEdits i j (some m) pos ts = slotEdits i j (some m) 0 list.start list.tree.children := by
  induction ts generalizing pos with
  | nil => cases h
  | cons t ts ih =>
    rw [Spot.spotsFrom, List.find?_cons] at h
    by_cases hlist : t.label = some m.field
    · rw [decide_eq_true hlist] at h
      obtain rfl := Option.some.inj h
      rw [fieldEdits, if_pos]
      exact decide_eq_true hlist
    · rw [decide_eq_false hlist] at h
      rw [fieldEdits, if_neg, ih h]
      exact fun hlabel => hlist (of_decide_eq_true hlabel)

/-- The list, its elements and the two that change places. -/
theorem slotsOf_some {type : NodeType} {children : List Tree} {f : FieldName} {pick : Tree → Bool}
    {pos : Nat} {label : Option FieldName} {a b : Place}
    (hlist : slotList name type children = some (f, pick))
    (ha : (listed f pick ⟨pos, .node label type children⟩)[i]? = some a)
    (hb : (listed f pick ⟨pos, .node label type children⟩)[j]? = some b) :
    slotsOf name i j type children = some ⟨f, pick, a.tree, b.tree⟩ := by
  rw [listed] at ha hb
  cases hfield : (⟨pos, .node label type children⟩ : Place).field f with
  | none =>
    rw [hfield] at ha
    simp at ha
  | some list =>
    rw [hfield] at ha hb
    have htree := Spot.field_tree (⟨pos, .node label type children⟩ : Place) f
    rw [hfield] at htree
    have hitems := Spot.filter_spotsFrom pick list.start list.tree.children
    have hat : ∀ {q : Nat} {c : Place},
        (list.children.filter fun c => pick c.tree)[q]? = some c →
        (list.tree.children.filter pick)[q]? = some c.tree := by
      intro q c hc
      rw [← hitems, List.getElem?_map]
      exact congrArg _ hc
    simp only [slotsOf, hlist, Option.bind_eq_bind, Option.bind_some]
    change ((children.find? fun t => t.label = some f).bind _) = _
    rw [show (children.find? fun t => t.label = some f) = some list.tree from htree.symm,
      Option.bind_some, hat ha, hat hb]
    rfl

/-- What the pass does for a node that names the function. -/
theorem listEdits_perm {count : Nat} (hij : i ≠ j) {type : NodeType} {children : List Tree}
    {f : FieldName} {pick : Tree → Bool} {pos : Nat} {label : Option FieldName} {edits : List Edit}
    (hlist : slotList name type children = some (f, pick))
    (h : listEdits i j count (listed f pick ⟨pos, .node label type children⟩) = some edits) :
    edits.Perm (ownEdits name i j ⟨pos, .node label type children⟩) := by
  rw [listEdits] at h
  split at h
  · cases h
  · simp only [Option.bind_eq_bind, Option.bind_eq_some_iff, Option.pure_def, Option.some.injEq] at h
    obtain ⟨a, ha, b, hb, rfl⟩ := h
    have hslots := slotsOf_some hlist ha hb
    rw [listed] at ha hb
    cases hfield : (⟨pos, .node label type children⟩ : Place).field f with
    | none =>
      rw [hfield] at ha
      simp at ha
    | some list =>
      rw [hfield] at ha hb
      have hown : ownEdits name i j ⟨pos, .node label type children⟩ =
          slotEdits i j (some ⟨f, pick, a.tree, b.tree⟩) 0 list.start list.tree.children := by
        rw [ownEdits]
        simp only [hslots]
        exact fieldEdits_eq hfield
      have htwo := zipIdx_two (f := fun s : Place => (⟨s.start, s.stop, b.text⟩ : Edit))
        (g := fun s : Place => (⟨s.start, s.stop, a.text⟩ : Edit)) hij 0
        (list.children.filter fun c => pick c.tree)
      simp only [Nat.zero_le, if_true, Nat.sub_zero] at htwo
      change (list.children.filter fun c => pick c.tree)[i]? = some a at ha
      change (list.children.filter fun c => pick c.tree)[j]? = some b at hb
      rw [ha, hb] at htwo
      rw [hown, slotEdits_eq]
      refine htwo.symm.trans (List.Perm.of_eq ?_)
      apply List.flatMap_congr
      rintro ⟨s, q⟩ -
      simp only [Slots.new]
      split
      · rfl
      · split <;> rfl

theorem namedBy_iff {f : FieldName} {s : Place} : namedBy name f s = true ↔
    (s.tree.children.find? (·.label = some f)).any
      (fun nm => nm.type? = some .identifier ∧ some nm.text = name) = true := by
  rw [namedBy, ← Spot.field_tree]
  cases s.field f with
  | none => simp
  | some nm =>
    simp [isA, Spot.type?, Spot.text, Option.any_eq_true]

theorem slotList_decl {type : NodeType} {children : List Tree} {pos : Nat} {label : Option FieldName}
    (htype : isA [.functionDeclarator] (⟨pos, .node label type children⟩ : Place) = true)
    (hnamed : namedBy name .declarator ⟨pos, .node label type children⟩ = true) :
    slotList name type children = some (.parameters, isParameter) := by
  have htype' : type = .functionDeclarator := by
    simpa [isA, Spot.type?, SyntaxTree.type?] using htype
  exact if_pos ⟨htype', namedBy_iff.mp hnamed⟩

theorem slotList_call {type : NodeType} {children : List Tree} {pos : Nat} {label : Option FieldName}
    (htype : isA [.callExpression] (⟨pos, .node label type children⟩ : Place) = true)
    (hnamed : namedBy name .function ⟨pos, .node label type children⟩ = true) :
    slotList name type children = some (.arguments, SyntaxTree.isNamed) := by
  obtain rfl : type = .callExpression := by
    simpa [isA, Spot.type?, SyntaxTree.type?] using htype
  exact if_pos ⟨rfl, namedBy_iff.mp hnamed⟩

/-- Only a declarator or call that names the function has edits. -/
theorem slotList_eq_some {type : NodeType} {children : List Tree} (pos : Nat)
    (label : Option FieldName) {f : FieldName} {pick : Tree → Bool}
    (h : slotList name type children = some (f, pick)) :
    (isA [.functionDeclarator] (⟨pos, .node label type children⟩ : Place) = true ∧
        namedBy name .declarator ⟨pos, .node label type children⟩ = true ∧
        f = .parameters ∧ pick = isParameter) ∨
      isA [.callExpression] (⟨pos, .node label type children⟩ : Place) = true ∧
        namedBy name .function ⟨pos, .node label type children⟩ = true ∧
        f = .arguments ∧ pick = SyntaxTree.isNamed := by
  simp only [slotList] at h
  split at h
  · rename_i hdecl
    cases h
    obtain ⟨rfl, hnamed⟩ := hdecl
    exact .inl ⟨rfl, namedBy_iff.mpr hnamed, rfl, rfl⟩
  · split at h
    · rename_i hcall
      cases h
      obtain ⟨rfl, hnamed⟩ := hcall
      exact .inr ⟨rfl, namedBy_iff.mpr hnamed, rfl, rfl⟩
    · cases h

theorem ownEdits_none {type : NodeType} {children : List Tree} {pos : Nat} {label : Option FieldName}
    (h : slotList name type children = none) :
    ownEdits name i j ⟨pos, .node label type children⟩ = [] := by
  have hslots : slotsOf name i j type children = none := by
    rw [slotsOf, h]
    rfl
  simp only [ownEdits, hslots]
  exact fieldEdits_none _ _

/-- What the pass does for a node. -/
theorem node_edits_perm {count : Nat} (hij : i ≠ j) {n : Node} {ds cs : List Edit}
    (hd : declEdits name i j count n = some ds) (hc : callEdits name i j count n = some cs) :
    (ds ++ cs).Perm (ownEdits name i j n.spot) := by
  obtain ⟨parents, pos, t⟩ := n
  cases t with
  | gap | token =>
    have hnone : ∀ {t : Tree} (f : FieldName), t.children = [] →
        namedBy name f ⟨pos, t⟩ = true → False := by
      intro t f ht hnamed
      rw [namedBy_iff, ht] at hnamed
      cases hnamed
    rw [declEdits, if_neg fun h => hnone .declarator rfl h.2] at hd
    rw [callEdits, if_neg fun h => hnone .function rfl h.2] at hc
    cases hd
    cases hc
    exact .refl _
  | node label type children =>
    rw [declEdits] at hd
    rw [callEdits] at hc
    by_cases hdecl : isA [.functionDeclarator] (⟨pos, .node label type children⟩ : Place) = true ∧
        namedBy name .declarator ⟨pos, .node label type children⟩ = true
    · have hnot : isA [.callExpression] (⟨pos, .node label type children⟩ : Place) ≠ true := by
        have htype : type = .functionDeclarator := by
          simpa [isA, Spot.type?, SyntaxTree.type?] using hdecl.1
        subst htype
        simp [isA, Spot.type?, SyntaxTree.type?]
      rw [if_pos hdecl] at hd
      rw [if_neg fun h => hnot h.1] at hc
      cases hc
      rw [List.append_nil]
      exact listEdits_perm hij (slotList_decl hdecl.1 hdecl.2) hd
    · rw [if_neg hdecl] at hd
      cases hd
      by_cases hcall : isA [.callExpression] (⟨pos, .node label type children⟩ : Place) = true ∧
          namedBy name .function ⟨pos, .node label type children⟩ = true
      · rw [if_pos hcall] at hc
        exact listEdits_perm hij (slotList_call hcall.1 hcall.2) hc
      · rw [if_neg hcall] at hc
        cases hc
        cases hlist : slotList name type children with
        | none =>
          rw [ownEdits_none hlist]
          exact .refl _
        | some p =>
          rcases @slotList_eq_some name type children pos label p.1 p.2 hlist with
            ⟨h₁, h₂, -⟩ | ⟨h₁, h₂, -⟩
          · exact absurd ⟨h₁, h₂⟩ hdecl
          · exact absurd ⟨h₁, h₂⟩ hcall

theorem nodes_edits_perm {count : Nat} (hij : i ≠ j) {nodes : List Node} {ds cs : List (List Edit)}
    (hd : nodes.mapM (declEdits name i j count) = some ds)
    (hc : nodes.mapM (callEdits name i j count) = some cs) :
    (ds.flatten ++ cs.flatten).Perm (nodes.flatMap fun n => ownEdits name i j n.spot) := by
  induction nodes generalizing ds cs with
  | nil =>
    cases hd
    cases hc
    exact .refl _
  | cons n nodes ih =>
    simp only [List.mapM_cons, Option.bind_eq_bind, Option.bind_eq_some_iff, Option.pure_def,
      Option.some.injEq] at hd hc
    obtain ⟨d, hd₁, ds, hds, rfl⟩ := hd
    obtain ⟨c, hc₁, cs, hcs, rfl⟩ := hc
    rw [List.flatMap_cons, List.flatten_cons, List.flatten_cons]
    have hfirst := node_edits_perm hij hd₁ hc₁
    have hrest := ih hds hcs
    rw [List.perm_iff_count] at hfirst hrest ⊢
    intro e
    have h₁ := hfirst e
    have h₂ := hrest e
    simp only [List.count_append] at h₁ h₂ ⊢
    omega

end

end MeleeHarness.SrcMutate.Cst
