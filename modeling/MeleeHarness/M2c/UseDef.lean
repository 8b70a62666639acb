import MeleeHarness.M2c.Loops

/-!
# Where a location was set

`nodes_to_flowgraph` goes down the tree of immediate dominators. What a node finds set is what
its immediate dominator leaves set, but for the locations that something in between touches:
for these it searches back to the dominator (`phi_loc_sources`).

* `At`: the reference at which each location was last set, in an execution that comes to an
  instruction;
* `childSources_exact`: one step down the tree;
* `nodesToFlowgraph_spec`: the inputs of an instruction come from the references at which some
  execution has set them last, if every execution has set them.
-/

namespace MeleeHarness.M2c

open Lib

inductive Reference (α Loc : Type) where
  | prologueRef (loc : Loc)
  | epilogueRef (loc : Loc)
  | instrRef (node : α) (k : Nat)
  deriving DecidableEq

structure Instruction (Loc : Type) where
  inputs : List Loc
  outputs : List Loc
  clobbers : List Loc

structure Arch (Loc : Type) where
  allRegs : List Loc
  allReturnRegs : List Loc

/-- The nodes with the instructions of their blocks. -/
structure Flow (α Loc : Type) extends Nodes α where
  instructions : α → List (Instruction Loc)
  bare : ∀ a, node a = .terminalNode → instructions a = []

/-- The reference at which each location was set, if it is set. -/
abbrev Definitions (α Loc : Type) := Loc → Option (Reference α Loc)

/-- `LocationRefSetDict` -/
abbrev RefSets (α Loc : Type) := Loc → Finset (Reference α Loc)

/-! ## Executions -/

section
variable {α Loc : Type} [DecidableEq Loc]

def Instruction.define (i : Instruction Loc) (ref : Reference α Loc) (d : Definitions α Loc) :
    Definitions α Loc := fun loc =>
  if loc ∈ i.outputs then some ref else if loc ∈ i.clobbers then none else d loc

/-- Whether an instruction writes a location or clobbers it. -/
def Instruction.touches (i : Instruction Loc) (ref : Reference α Loc) (loc : Loc) :
    Option (Option (Reference α Loc)) :=
  if loc ∈ i.outputs then some (some ref) else if loc ∈ i.clobbers then some none else none

theorem Instruction.define_eq (i : Instruction Loc) (ref : Reference α Loc) (d : Definitions α Loc)
    (loc : Loc) : i.define ref d loc = (i.touches ref loc).getD (d loc) := by
  rw [define, touches]
  split_ifs <;> rfl

def defineAll (n : α) : Nat → List (Instruction Loc) → Definitions α Loc → Definitions α Loc
  | _, [], d => d
  | k, i :: rest, d => defineAll n (k + 1) rest (i.define (.instrRef n k) d)

theorem defineAll_append (n : α) (k : Nat) (is js : List (Instruction Loc)) (d : Definitions α Loc) :
    defineAll n k (is ++ js) d = defineAll n (k + is.length) js (defineAll n k is d) := by
  induction is generalizing k d with
  | nil => rfl
  | cons i is ih =>
    rw [List.cons_append, defineAll, ih, defineAll, List.length_cons]
    congr 1
    omega

/-- What is left is what the last instruction on the location has made of it. -/
theorem defineAll_eq (n : α) (k : Nat) (is : List (Instruction Loc)) (d : Definitions α Loc)
    (loc : Loc) : defineAll n k is d loc =
      ((is.zipIdx k).reverse.findSome? fun x => x.1.touches (.instrRef n x.2) loc).getD (d loc) := by
  induction is generalizing k d with
  | nil => rfl
  | cons i is ih =>
    rw [defineAll, ih, List.zipIdx_cons, List.reverse_cons, List.findSome?_append, i.define_eq,
      List.findSome?_singleton]
    cases List.findSome? _ (is.zipIdx (k + 1)).reverse <;> rfl

def Arch.entryDefinitions (arch : Arch Loc) : Definitions α Loc := fun loc =>
  if loc ∈ arch.allRegs then some (.prologueRef loc) else none

/-- An execution comes to instruction `k` of a node, with these definitions. -/
inductive At [DecidableEq α] (f : Flow α Loc) (arch : Arch Loc) : α → Nat → Definitions α Loc → Prop
  | entry : At f arch f.entry 0 arch.entryDefinitions
  | instruction {n : α} {k : Nat} {d : Definitions α Loc} {i : Instruction Loc} :
      At f arch n k d → (f.instructions n)[k]? = some i →
      At f arch n (k + 1) (i.define (.instrRef n k) d)
  | edge {n c : α} {d : Definitions α Loc} :
      At f arch n (f.instructions n).length d → f.Edge n c → At f arch c 0 d

namespace Flow
variable (f : Flow α Loc)

/-- The last instruction of a node that writes or clobbers a location, and whether it writes it. -/
def lastSet (n : α) (loc : Loc) : Option (Option (Reference α Loc)) :=
  (f.instructions n).zipIdx.reverse.findSome? fun x => x.1.touches (.instrRef n x.2) loc

def runNode (n : α) (d : Definitions α Loc) : Definitions α Loc :=
  defineAll n 0 (f.instructions n) d

/-- Nodes one after another, the last at the head. -/
def runOver : List α → Definitions α Loc → Definitions α Loc
  | [], d => d
  | n :: q, d => f.runNode n (runOver q d)

theorem runNode_eq (n : α) (d : Definitions α Loc) (loc : Loc) :
    f.runNode n d loc = (f.lastSet n loc).getD (d loc) := defineAll_eq n 0 _ d loc

theorem runOver_append (a b : List α) (d : Definitions α Loc) :
    f.runOver (a ++ b) d = f.runOver a (f.runOver b d) := by
  induction a with
  | nil => rfl
  | cons n a ih => rw [List.cons_append, runOver, ih, runOver]

theorem lastSet_isSome {n : α} {loc : Loc} : (f.lastSet n loc).isSome ↔
    ∃ i ∈ f.instructions n, loc ∈ i.outputs ++ i.clobbers := by
  rw [lastSet, List.findSome?_isSome_iff]
  simp only [List.mem_reverse, List.mem_append]
  have htouch (i : Instruction Loc) (ref : Reference α Loc) :
      (i.touches ref loc).isSome ↔ loc ∈ i.outputs ∨ loc ∈ i.clobbers := by
    rw [Instruction.touches]
    split_ifs <;> simp_all
  constructor
  · rintro ⟨⟨i, k⟩, hmem, htouches⟩
    exact ⟨i, (List.mem_zipIdx' hmem).2 ▸ List.getElem_mem _, (htouch i _).mp htouches⟩
  · rintro ⟨i, hi, htouches⟩
    obtain ⟨k, hk, rfl⟩ := List.mem_iff_getElem.mp hi
    refine ⟨(_, k), ?_, (htouch _ _).mpr htouches⟩
    simp [List.mem_zipIdx_iff_getElem?]

end Flow

/-! ## The code -/

variable [DecidableEq α]

/-- What an instruction leaves of the sources. -/
def Instruction.setSources (i : Instruction Loc) (ref : Reference α Loc) (srcs : RefSets α Loc) :
    RefSets α Loc :=
  let cleared : RefSets α Loc := fun loc => if loc ∈ i.clobbers ++ i.outputs then ∅ else srcs loc
  fun loc => if loc ∈ i.outputs then insert ref (cleared loc) else cleared loc

/-- `instr_inputs` and `instr_uses`, as triples. -/
structure InstrUses (α Loc : Type) where
  instrInputs : Finset (Reference α Loc × Loc × Reference α Loc)
  instrUses : Finset (Reference α Loc × Loc × Reference α Loc)

/-- `add_use_sources` -/
def addUseSources (srcs : RefSets α Loc) (use : Reference α Loc) (uses : InstrUses α Loc)
    (loc : Loc) : InstrUses α Loc where
  instrInputs := uses.instrInputs ∪ (srcs loc).image fun src => (use, loc, src)
  instrUses := uses.instrUses ∪ (srcs loc).image fun src => (src, loc, use)

def runBlock (n : α) : Nat → List (Instruction Loc) → RefSets α Loc → InstrUses α Loc →
    RefSets α Loc × InstrUses α Loc
  | _, [], srcs, uses => (srcs, uses)
  | k, i :: rest, srcs, uses =>
    runBlock n (k + 1) rest (i.setSources (.instrRef n k) srcs)
      (i.inputs.foldl (addUseSources srcs (.instrRef n k)) uses)

namespace Flow
variable (f : Flow α Loc)

/-- The loop of `phi_loc_sources`. -/
def phiLoop [Fintype α] (imdom : α) (loc : Loc) (imdomSrcs : Finset (Reference α Loc)) (stack : List α)
    (seen : Finset α) (sources : Finset (Reference α Loc)) : Finset (Reference α Loc) :=
  match stack with
  | [] => sources
  | n :: stack =>
    if n ∈ seen then phiLoop imdom loc imdomSrcs stack seen sources
    else if n = imdom then
      if imdomSrcs = ∅ then ∅
      else phiLoop imdom loc imdomSrcs stack (insert n seen) (sources ∪ imdomSrcs)
    else
      match f.lastSet n loc with
      | some none => ∅
      | some (some ref) => phiLoop imdom loc imdomSrcs stack (insert n seen) (insert ref sources)
      | none =>
        phiLoop imdom loc imdomSrcs ((f.parents n).reverse ++ stack) (insert n seen) sources
termination_by stack.length + room f.parents seen
decreasing_by
  · simp
  all_goals
    rw [room_insert f.parents ‹n ∉ seen›]
    simp
    omega

variable [Fintype α]

def phiLocSources (imdom node : α) (loc : Loc) (imdomSrcs : Finset (Reference α Loc)) :
    Finset (Reference α Loc) := f.phiLoop imdom loc imdomSrcs (f.parents node).reverse ∅ ∅

def locsClobberedUntilDominator (imdom node : α) : Finset Loc :=
  (explore f.parents (· = imdom) (f.parents node).reverse ∅).biUnion fun n =>
    ((f.instructions n).flatMap fun i => i.outputs ++ i.clobbers).toFinset

/-- `child_loc_srcs` -/
def childSources (node child : α) (srcs : RefSets α Loc) : RefSets α Loc := fun loc =>
  if loc ∈ f.locsClobberedUntilDominator node child then f.phiLocSources node child loc (srcs loc)
  else srcs loc

def immediatelyDominates (node : α) : List α :=
  (f.all.filter fun n => f.immediateDominator n = some node).mergeSort fun a b => f.index a ≤ f.index b

/-- `process_node`, to some depth of the tree. -/
def processNode (arch : Arch Loc) : Nat → α → RefSets α Loc → InstrUses α Loc →
    Option (InstrUses α Loc)
  | 0, _, _, _ => none
  | fuel + 1, node, srcs, uses =>
    let (srcs, uses) := runBlock node 0 (f.instructions node) srcs uses
    let uses :=
      if (f.node node).isTerminal then
        arch.allReturnRegs.foldl (fun uses reg => addUseSources srcs (.epilogueRef reg) uses reg) uses
      else uses
    (f.immediatelyDominates node).foldlM
      (fun uses child => processNode arch fuel child (f.childSources node child srcs) uses) uses

def nodesToFlowgraph (arch : Arch Loc) : Option (InstrUses α Loc) :=
  f.processNode arch (Fintype.card α) f.entry
    (fun loc => if loc ∈ arch.allRegs then {.prologueRef loc} else ∅) ⟨∅, ∅⟩

end Flow

/-! ## Walks -/

namespace Flow
variable (f : Flow α Loc) (arch : Arch Loc)

/-- What comes to the last node of a walk from the entry. -/
def before : List α → Definitions α Loc
  | [] => arch.entryDefinitions
  | _ :: rest => f.runOver rest (f.runNode f.entry arch.entryDefinitions)

variable {f arch} {d : Definitions α Loc} {n m c : α} {k : Nat} {loc : Loc} {path q : List α}

theorem runOver_before (h : Walk f.Edge f.entry path n) :
    f.runOver path (f.runNode f.entry arch.entryDefinitions) = f.runNode n (f.before arch path) := by
  rcases h.last with ⟨rfl, rfl⟩ | ⟨rest, rfl⟩
  · rfl
  · rfl

theorem at_iff : At f arch n k d ↔ k ≤ (f.instructions n).length ∧ ∃ path,
    Walk f.Edge f.entry path n ∧ d = defineAll n 0 ((f.instructions n).take k) (f.before arch path) := by
  constructor
  · intro h
    induction h with
    | entry => exact ⟨Nat.zero_le _, [], .nil, rfl⟩
    | @instruction n k d i _ hi ih =>
      obtain ⟨-, path, hwalk, rfl⟩ := ih
      obtain ⟨hk, rfl⟩ := List.getElem?_eq_some_iff.mp hi
      refine ⟨hk, path, hwalk, ?_⟩
      rw [List.take_succ_eq_append_getElem hk, defineAll_append, List.length_take_of_le hk.le,
        Nat.zero_add]
      rfl
    | @edge n c d _ hedge ih =>
      obtain ⟨-, path, hwalk, rfl⟩ := ih
      refine ⟨Nat.zero_le _, c :: path, hwalk.cons hedge, ?_⟩
      rw [List.take_length]
      exact (runOver_before hwalk).symm
  · rintro ⟨hk, path, hwalk, rfl⟩
    have hat : ∀ {path : List α} {n : α}, Walk f.Edge f.entry path n →
        ∀ k ≤ (f.instructions n).length,
          At f arch n k (defineAll n 0 ((f.instructions n).take k) (f.before arch path)) := by
      intro path n hwalk
      -- From the start of the node to one of its instructions.
      have hinside : ∀ {n : α} {d : Definitions α Loc}, At f arch n 0 d →
          ∀ k ≤ (f.instructions n).length,
            At f arch n k (defineAll n 0 ((f.instructions n).take k) d) := by
        intro n d h k
        induction k with
        | zero => exact fun _ => h
        | succ k ih =>
          intro hk
          rw [List.take_succ_eq_append_getElem hk, defineAll_append, List.length_take_of_le (by omega),
            Nat.zero_add]
          exact (ih (by omega)).instruction (List.getElem?_eq_getElem hk)
      induction hwalk with
      | nil => exact hinside .entry
      | @cons path b c hwalk hedge ih =>
        apply hinside
        have hlast := ih _ le_rfl
        rw [List.take_length] at hlast
        have hc := hlast.edge hedge
        rw [show defineAll b 0 (f.instructions b) (f.before arch path) = f.runNode b (f.before arch path)
          from rfl, ← runOver_before hwalk] at hc
        exact hc
    exact hat hwalk k hk

theorem at_last : At f arch n (f.instructions n).length d ↔ ∃ path,
    Walk f.Edge f.entry path n ∧ d = f.runNode n (f.before arch path) := by
  rw [at_iff, List.take_length]
  simp [runNode]

/-- From behind a node along a walk to another. -/
theorem at_along (h : At f arch n (f.instructions n).length d) (hwalk : Walk f.Edge n (c :: q) c) :
    At f arch c 0 (f.runOver q d) := by
  obtain ⟨path, hpath, rfl⟩ := at_last.mp h
  rw [at_iff]
  refine ⟨Nat.zero_le _, _, hpath.append hwalk, ?_⟩
  rw [List.cons_append]
  change _ = f.runOver (q ++ path) _
  rw [runOver_append, runOver_before hpath]

/-- An execution that comes to a node has left its dominator for the last time before. -/
theorem exists_along (h : At f arch c 0 d) (hdom : Dominates f.Edge f.entry m c) (hne : m ≠ c) :
    ∃ d₀ q, At f arch m (f.instructions m).length d₀ ∧ Walk f.Edge m (c :: q) c ∧ m ∉ q ∧
      d = f.runOver q d₀ := by
  obtain ⟨-, path, hwalk, rfl⟩ := at_iff.mp h
  have hsplit : ∃ after start, path = after ++ start ∧ Walk f.Edge f.entry start m ∧
      Walk f.Edge m after c ∧ m ∉ after := by
    by_cases hmem : m ∈ path
    · exact hwalk.split hmem
    · obtain rfl := (hdom path hwalk).resolve_right hmem
      exact ⟨path, [], (List.append_nil _).symm, .nil, hwalk, hmem⟩
  obtain ⟨after, start, rfl, hstart, hafter, hnot⟩ := hsplit
  rcases hafter.last with ⟨-, rfl⟩ | ⟨q, rfl⟩
  · exact absurd rfl hne
  · refine ⟨_, q, at_last.mpr ⟨start, hstart, rfl⟩, hafter,
      fun hmem => hnot (List.mem_cons_of_mem _ hmem), ?_⟩
    change f.runOver (q ++ start) _ = _
    rw [runOver_append, runOver_before hstart]

end Flow

/-! ## The search for a phi -/

/-- Every execution has set the location, and some has set it last there. -/
def Reaching (S : Set (Definitions α Loc)) (loc : Loc) (ref : Reference α Loc) : Prop :=
  (∀ d ∈ S, (d loc).isSome) ∧ ∃ d ∈ S, d loc = some ref

/-- The sources are what the executions have set. -/
def Exact (srcs : RefSets α Loc) (S : Set (Definitions α Loc)) : Prop :=
  ∀ loc ref, ref ∈ srcs loc ↔ Reaching S loc ref

namespace Flow
variable (f : Flow α Loc) (arch : Arch Loc)

def arrivals (n : α) : Set (Definitions α Loc) := {d | At f arch n 0 d}

def departures (n : α) : Set (Definitions α Loc) := {d | At f arch n (f.instructions n).length d}

/-- Where the search goes on from a node. -/
def backward (imdom : α) (loc : Loc) (n : α) : List α :=
  if n = imdom ∨ (f.lastSet n loc).isSome then [] else f.parents n

/-- The search from a node comes to another one. -/
def Visited (imdom : α) (loc : Loc) (node n : α) : Prop :=
  ∃ p ∈ f.parents node, LeadsTo (f.backward imdom loc) (fun _ => False) p n

/-- Where a location is not set. -/
def Unset (imdom : α) (loc : Loc) (imdomSrcs : Finset (Reference α Loc)) (n : α) : Prop :=
  n = imdom ∧ imdomSrcs = ∅ ∨ n ≠ imdom ∧ f.lastSet n loc = some none

/-- Where it is set. -/
def SetAt (imdom : α) (loc : Loc) (imdomSrcs : Finset (Reference α Loc)) (n : α)
    (ref : Reference α Loc) : Prop :=
  n = imdom ∧ ref ∈ imdomSrcs ∨ n ≠ imdom ∧ f.lastSet n loc = some (some ref)

variable {f arch} {d : Definitions α Loc} {n m c : α} {loc : Loc} {ref : Reference α Loc}
  {imdomSrcs : Finset (Reference α Loc)} {path q : List α}

/-- What a search finds: nothing, or all references at which it ends. -/
theorem phiLoop_spec [Fintype α] (start : Set α) (stack : List α) (seen : Finset α)
    (sources : Finset (Reference α Loc))
    (h : Searching (f.backward m loc) (fun _ => False) start {a | a ∈ stack} seen)
    (hset : ∀ a ∈ seen, ¬f.Unset m loc imdomSrcs a)
    (hsources : ∀ ref, ref ∈ sources ↔ ∃ a ∈ seen, f.SetAt m loc imdomSrcs a ref) :
    ref ∈ f.phiLoop m loc imdomSrcs stack seen sources ↔
      (∀ s ∈ start, ∀ a, LeadsTo (f.backward m loc) (fun _ => False) s a →
        ¬f.Unset m loc imdomSrcs a) ∧
      ∃ s ∈ start, ∃ a, LeadsTo (f.backward m loc) (fun _ => False) s a ∧
        f.SetAt m loc imdomSrcs a ref := by
  -- A node that is new and ends the search.
  have hend : ∀ {a : α} {stack : List α} {seen : Finset α}, a ∉ seen →
      f.backward m loc a = [] →
      Searching (f.backward m loc) (fun _ => False) start {b | b ∈ a :: stack} seen →
      Searching (f.backward m loc) (fun _ => False) start {b | b ∈ stack} (insert a seen : Finset α) := by
    intro a stack seen _ hnil h
    rw [Finset.coe_insert]
    refine h.visit List.mem_cons_self id (fun b hb => List.mem_cons.mp hb) ?_
      fun b hb => .inl (List.mem_cons_of_mem _ hb)
    intro b hb
    rw [hnil] at hb
    cases hb
  have hbad : ∀ {a : α} {stack : List α} {seen : Finset α},
      Searching (f.backward m loc) (fun _ => False) start {b | b ∈ a :: stack} seen →
      f.Unset m loc imdomSrcs a → ¬∀ s ∈ start, ∀ a, LeadsTo (f.backward m loc) (fun _ => False) s a →
        ¬f.Unset m loc imdomSrcs a := by
    intro a stack seen h hunset hall
    obtain ⟨s, hs, -, hway⟩ := h.sound a (.inr ⟨List.mem_cons_self, id⟩)
    exact hall s hs a hway hunset
  have hinsert : ∀ {a : α} {seen : Finset α}, (∀ b ∈ seen, ¬f.Unset m loc imdomSrcs b) →
      ¬f.Unset m loc imdomSrcs a → ∀ b ∈ insert a seen, ¬f.Unset m loc imdomSrcs b := by
    intro a seen hset ha b hb
    rcases Finset.mem_insert.mp hb with rfl | hb
    · exact ha
    · exact hset b hb
  induction stack, seen, sources using phiLoop.induct f m loc imdomSrcs with
  | case1 seen sources =>
    rw [phiLoop, hsources]
    have hdone : ∀ a, a ∈ (seen : Set α) ↔ ∃ s ∈ start, ¬False ∧
        LeadsTo (f.backward m loc) (fun _ => False) s a := fun a =>
      Searching.done (by simpa using h)
    constructor
    · rintro ⟨a, ha, href⟩
      obtain ⟨s, hs, -, hway⟩ := (hdone a).mp ha
      refine ⟨fun s hs a hway => hset a ((hdone a).mpr ⟨s, hs, id, hway⟩), s, hs, a, hway, href⟩
    · rintro ⟨-, s, hs, a, hway, href⟩
      exact ⟨a, (hdone a).mpr ⟨s, hs, id, hway⟩, href⟩
  | case2 seen sources a stack hseen ih =>
    rw [phiLoop, if_pos hseen]
    refine ih ?_ hset hsources
    exact h.drop (.inr hseen) (fun b hb => List.mem_cons.mp hb) fun b hb => List.mem_cons_of_mem _ hb
  | case3 seen sources stack hempty hseen =>
    rw [phiLoop, if_neg hseen, if_pos rfl, if_pos hempty]
    refine iff_of_false (Finset.notMem_empty _) fun hall => ?_
    exact hbad h (.inl ⟨rfl, hempty⟩) hall.1
  | case4 seen sources stack hempty hseen ih =>
    rw [phiLoop, if_neg hseen, if_pos rfl, if_neg hempty]
    refine ih (hend hseen (if_pos (.inl rfl)) h) (hinsert hset ?_) ?_
    · rintro (⟨-, hnone⟩ | ⟨hne, -⟩)
      · exact hempty hnone
      · exact hne rfl
    · intro ref
      simp only [Finset.mem_union, hsources, Finset.mem_insert, exists_eq_or_imp, SetAt, true_and,
        ne_eq, not_true_eq_false, false_and, or_false]
      exact or_comm
  | case5 seen sources a stack hseen hne hset' =>
    rw [phiLoop, if_neg hseen, if_neg hne, hset']
    refine iff_of_false (Finset.notMem_empty _) fun hall => ?_
    exact hbad h (.inr ⟨hne, hset'⟩) hall.1
  | case6 seen sources a stack hseen hne r hset' ih =>
    rw [phiLoop, if_neg hseen, if_neg hne, hset']
    refine ih (hend hseen (if_pos (.inr (by rw [hset']; rfl))) h) (hinsert hset ?_) ?_
    · rintro (⟨heq, -⟩ | ⟨-, hnone⟩)
      · exact hne heq
      · rw [hset'] at hnone
        cases hnone
    · intro ref
      simp only [Finset.mem_insert, hsources, exists_eq_or_imp, SetAt, hne, false_and, false_or,
        ne_eq, not_false_eq_true, true_and, hset', Option.some.injEq]
      exact or_congr_left eq_comm
  | case7 seen sources a stack hseen hne hset' ih =>
    rw [phiLoop, if_neg hseen, if_neg hne, hset']
    have hback : f.backward m loc a = f.parents a := by
      rw [backward, if_neg]
      simp [hne, hset']
    refine ih ?_ (hinsert hset ?_) ?_
    · rw [Finset.coe_insert]
      refine h.visit List.mem_cons_self id ?_ ?_ ?_
      · intro b hb
        exact (List.mem_cons.mp hb).imp id fun hb => List.mem_append_right _ hb
      · intro b hb _
        rw [hback] at hb
        exact .inr (.inr (List.mem_append_left _ (List.mem_reverse.mpr hb)))
      · intro b hb
        rw [hback]
        rcases List.mem_append.mp hb with hb | hb
        · exact .inr (List.mem_reverse.mp hb)
        · exact .inl (List.mem_cons_of_mem _ hb)
    · rintro (⟨heq, -⟩ | ⟨-, hnone⟩)
      · exact hne heq
      · rw [hset'] at hnone
        cases hnone
    · intro ref
      simp [hsources, SetAt, hne, hset']

theorem mem_phiLocSources [Fintype α] : ref ∈ f.phiLocSources m c loc imdomSrcs ↔
    (∀ n, f.Visited m loc c n → ¬f.Unset m loc imdomSrcs n) ∧
      ∃ n, f.Visited m loc c n ∧ f.SetAt m loc imdomSrcs n ref := by
  rw [phiLocSources, phiLoop_spec {a | a ∈ (f.parents c).reverse} _ _ _
    (by rw [Finset.coe_empty]; exact .begin) (by simp) (by simp)]
  simp only [Set.mem_ofPred_eq, List.mem_reverse, Visited]
  constructor
  · rintro ⟨hall, s, hs, a, hway, hset⟩
    exact ⟨fun n ⟨p, hp, hn⟩ => hall p hp n hn, a, ⟨s, hs, hway⟩, hset⟩
  · rintro ⟨hall, a, ⟨s, hs, hway⟩, hset⟩
    exact ⟨fun p hp n hn => hall n ⟨p, hp, hn⟩, s, hs, a, hway, hset⟩

/-! ## What the search means -/

theorem backward_of_mem {b : α} (h : b ∈ f.backward m loc n) :
    n ≠ m ∧ f.lastSet n loc = none ∧ f.Edge b n := by
  unfold backward at h
  split_ifs at h with hstop
  · cases h
  · simp only [not_or, Option.not_isSome_iff_eq_none] at hstop
    exact ⟨hstop.1, hstop.2, f.mem_parents.mp h⟩

/-- From what was visited there is a way that sets nothing. -/
theorem Visited.along (h : f.Visited m loc c n) : ∃ q, Walk f.Edge n (c :: q) c ∧
    ∀ d, f.runOver q d loc = d loc := by
  obtain ⟨p, hp, hway⟩ := h
  induction hway with
  | refl => exact ⟨[], .cons .nil (f.mem_parents.mp hp), fun _ => rfl⟩
  | @tail b a _ hstep ih =>
    obtain ⟨q, hwalk, hsame⟩ := ih
    obtain ⟨-, hnone, hedge⟩ := backward_of_mem hstep.1
    refine ⟨q ++ [b], (Walk.nil.cons hedge).append hwalk, ?_⟩
    intro d
    rw [runOver_append, hsame, runOver, runOver, runNode_eq, hnone]
    rfl

/-- A way from the dominator ends, for the search, where it has set the location last. -/
theorem visited_of_walk {b : α} (loc : Loc) (d₀ : Definitions α Loc) (hwalk : Walk f.Edge m q b) (hm : m ∉ q)
    (hb : f.Visited m loc c b) : ∃ n, f.Visited m loc c n ∧
      (n ≠ m ∧ f.lastSet n loc = some (f.runOver q d₀ loc) ∨ n = m ∧ f.runOver q d₀ loc = d₀ loc) := by
  induction hwalk with
  | nil => exact ⟨m, hb, .inr ⟨rfl, rfl⟩⟩
  | @cons q a b _ hedge ih =>
    rw [List.mem_cons, not_or] at hm
    rw [runOver, runNode_eq]
    cases hset : f.lastSet b loc with
    | some v => exact ⟨b, hb, .inl ⟨fun heq => hm.1 heq.symm, hset⟩⟩
    | none =>
      apply ih hm.2
      obtain ⟨p, hp, hway⟩ := hb
      refine ⟨p, hp, hway.tail ⟨?_, id⟩⟩
      rw [backward, if_neg]
      · exact f.mem_parents.mpr hedge
      · simpa [hset] using fun heq : b = m => hm.1 heq.symm

/-- What a location may have been set to, from what the search comes to. -/
theorem exists_arrival_iff (arch : Arch Loc) (loc : Loc) (v : Option (Reference α Loc))
    (hreach : ∀ n, Relation.ReflTransGen f.Edge f.entry n)
    (hdom : Dominates f.Edge f.entry m c) (hne : m ≠ c) :
    (∃ d ∈ f.arrivals arch c, d loc = v) ↔ ∃ n, f.Visited m loc c n ∧
      (n ≠ m ∧ f.lastSet n loc = some v ∨ n = m ∧ ∃ d ∈ f.departures arch m, d loc = v) := by
  constructor
  · rintro ⟨d, hd, rfl⟩
    obtain ⟨d₀, q, hd₀, hwalk, hm, rfl⟩ := exists_along hd hdom hne
    cases hwalk with
    | @cons _ b _ hq hedge =>
      obtain ⟨n, hn, hcase⟩ := visited_of_walk loc d₀ hq hm
        ⟨b, f.mem_parents.mpr hedge, .refl⟩
      refine ⟨n, hn, hcase.imp_right ?_⟩
      rintro ⟨rfl, hsame⟩
      exact ⟨rfl, d₀, hd₀, hsame.symm⟩
  · rintro ⟨n, hn, hcase⟩
    obtain ⟨q, hwalk, hsame⟩ := hn.along
    rcases hcase with ⟨-, hset⟩ | ⟨rfl, d, hd, rfl⟩
    · obtain ⟨path, hpath⟩ := exists_walk (hreach n)
      refine ⟨_, at_along (at_last.mpr ⟨path, hpath, rfl⟩) hwalk, ?_⟩
      rw [hsame, runNode_eq, hset]
      rfl
    · exact ⟨_, at_along hd hwalk, hsame d⟩

theorem exists_arrival (arch : Arch Loc)
    (hreach : ∀ n, Relation.ReflTransGen f.Edge f.entry n) (n : α) :
    ∃ d, d ∈ f.arrivals arch n := by
  obtain ⟨path, hpath⟩ := exists_walk (hreach n)
  exact ⟨_, at_iff.mpr ⟨Nat.zero_le _, path, hpath, rfl⟩⟩

/-- What the search gives is what the executions that come to the node have set. -/
theorem phiLocSources_exact [Fintype α] (hreach : ∀ n, Relation.ReflTransGen f.Edge f.entry n)
    (hdom : Dominates f.Edge f.entry m c) (hne : m ≠ c)
    (hsrcs : ∀ ref, ref ∈ imdomSrcs ↔ Reaching (f.departures arch m) loc ref) :
    ref ∈ f.phiLocSources m c loc imdomSrcs ↔ Reaching (f.arrivals arch c) loc ref := by
  have hvalues {v : Option (Reference α Loc)} :=
    exists_arrival_iff arch loc v hreach hdom hne
  -- The dominator has sources exactly if every execution leaves the location set.
  have hempty : imdomSrcs = ∅ ↔ ∃ d ∈ f.departures arch m, d loc = none := by
    rw [Finset.eq_empty_iff_forall_notMem]
    constructor
    · intro hnone
      by_contra hall
      simp only [not_exists, not_and] at hall
      obtain ⟨path, hpath⟩ := exists_walk (hreach m)
      have hd : f.runNode m (f.before arch path) ∈ f.departures arch m :=
        at_last.mpr ⟨path, hpath, rfl⟩
      obtain ⟨ref, href⟩ := Option.ne_none_iff_exists'.mp (hall _ hd)
      exact hnone ref ((hsrcs ref).mpr
        ⟨fun d hd => Option.isSome_iff_ne_none.mpr (hall d hd), _, hd, href⟩)
    · rintro ⟨d, hd, hnone⟩ ref href
      have hsome := ((hsrcs ref).mp href).1 d hd
      rw [hnone] at hsome
      cases hsome
  have hall : (∀ n, f.Visited m loc c n → ¬f.Unset m loc imdomSrcs n) ↔
      ∀ d ∈ f.arrivals arch c, (d loc).isSome := by
    have hneither : (∃ n, f.Visited m loc c n ∧ f.Unset m loc imdomSrcs n) ↔
        ∃ d ∈ f.arrivals arch c, d loc = none := by
      rw [hvalues]
      simp only [Unset, hempty]
      exact exists_congr fun n => and_congr_right fun _ => or_comm
    have hnot := not_congr hneither
    push Not at hnot
    rw [hnot]
    simp only [Option.isSome_iff_ne_none]
  rw [mem_phiLocSources, hall, Reaching]
  apply and_congr_right
  intro hsome
  rw [hvalues]
  constructor
  · rintro ⟨n, hn, hset⟩
    refine ⟨n, hn, hset.symm.imp_right ?_⟩
    rintro ⟨rfl, href⟩
    exact ⟨rfl, ((hsrcs ref).mp href).2⟩
  · rintro ⟨n, hn, hset⟩
    refine ⟨n, hn, hset.symm.imp_left ?_⟩
    rintro ⟨rfl, hd⟩
    refine ⟨rfl, (hsrcs ref).mpr ⟨?_, hd⟩⟩
    intro d hd
    rw [Option.isSome_iff_ne_none]
    intro hnone
    obtain ⟨d', hd', hnone'⟩ := hvalues.mpr ⟨n, hn, .inr ⟨rfl, d, hd, hnone⟩⟩
    have := hsome d' hd'
    rw [hnone'] at this
    cases this

theorem Visited.leads (h : f.Visited m loc c n) (hne : n ≠ m) :
    ∃ p ∈ f.parents c, p ≠ m ∧ LeadsTo f.parents (· = m) p n := by
  obtain ⟨p, hp, hway⟩ := h
  refine ⟨p, hp, ?_⟩
  induction hway with
  | refl => exact ⟨hne, .refl⟩
  | tail _ hstep ih =>
    obtain ⟨ha, -, hedge⟩ := backward_of_mem hstep.1
    obtain ⟨hpm, hway⟩ := ih ha
    exact ⟨hpm, hway.tail ⟨f.mem_parents.mpr hedge, hne⟩⟩

/-- What nothing has touched since the dominator is as the dominator leaves it. -/
theorem untouched [Fintype α] (h : loc ∉ f.locsClobberedUntilDominator m c)
    (hn : f.Visited m loc c n) (hne : n ≠ m) : f.lastSet n loc = none := by
  rw [← Option.not_isSome_iff_eq_none, f.lastSet_isSome]
  rintro ⟨i, hi, hloc⟩
  obtain ⟨p, hp, hpm, hway⟩ := hn.leads hne
  refine h (Finset.mem_biUnion.mpr ⟨n, ?_, ?_⟩)
  · rw [mem_explore]
    exact ⟨p, List.mem_reverse.mpr hp, hpm, hway⟩
  · rw [List.mem_toFinset, List.mem_flatMap]
    exact ⟨i, hi, hloc⟩

/-- One step down the tree: a child finds set what every execution that comes to it has set. -/
theorem childSources_exact [Fintype α] {srcs : RefSets α Loc}
    (hreach : ∀ n, Relation.ReflTransGen f.Edge f.entry n)
    (hdom : Dominates f.Edge f.entry m c) (hne : m ≠ c) (h : Exact srcs (f.departures arch m)) :
    Exact (f.childSources m c srcs) (f.arrivals arch c) := by
  intro loc ref
  rw [childSources]
  split_ifs with hclobbered
  · exact phiLocSources_exact hreach hdom hne (h loc)
  · have hvalues {v : Option (Reference α Loc)} : (∃ d ∈ f.arrivals arch c, d loc = v) ↔
        ∃ d ∈ f.departures arch m, d loc = v := by
      rw [exists_arrival_iff _ _ _ hreach hdom hne]
      constructor
      · rintro ⟨n, hn, ⟨hnm, hset⟩ | ⟨-, hd⟩⟩
        · rw [untouched hclobbered hn hnm] at hset
          cases hset
        · exact hd
      · intro hd
        obtain ⟨d, hd'⟩ := exists_arrival arch hreach c
        obtain ⟨n, hn, hcase⟩ := (exists_arrival_iff _ _ _ hreach hdom hne).mp ⟨d, hd', rfl⟩
        refine ⟨n, hn, .inr ⟨?_, hd⟩⟩
        by_contra hnm
        rcases hcase with ⟨-, hset⟩ | ⟨heq, -⟩
        · rw [untouched hclobbered hn hnm] at hset
          cases hset
        · exact hnm heq
    have hsome (S : Set (Definitions α Loc)) :
        (∀ d ∈ S, (d loc).isSome) ↔ ¬∃ d ∈ S, d loc = none := by
      simp [Option.isSome_iff_ne_none]
    rw [h loc ref, Reaching, Reaching, hsome, hsome, hvalues, hvalues]

end Flow

/-! ## Going down the tree -/

section
variable {d : Definitions α Loc} {S : Set (Definitions α Loc)} {srcs : RefSets α Loc}
  {uses : InstrUses α Loc} {use src : Reference α Loc} {loc : Loc} {n : α} {k : Nat}

/-- Both maps have the same dependencies. -/
def InstrUses.Mirrored (uses : InstrUses α Loc) : Prop :=
  ∀ use loc src, (use, loc, src) ∈ uses.instrInputs ↔ (src, loc, use) ∈ uses.instrUses

theorem mem_addUseSources {t : Reference α Loc × Loc × Reference α Loc} :
    t ∈ (addUseSources srcs use uses loc).instrInputs ↔
      t ∈ uses.instrInputs ∨ t.1 = use ∧ t.2.1 = loc ∧ t.2.2 ∈ srcs loc := by
  obtain ⟨a, b, c⟩ := t
  simp only [addUseSources, Finset.mem_union, Finset.mem_image, Prod.mk.injEq]
  apply or_congr_right
  constructor
  · rintro ⟨src, hsrc, rfl, rfl, rfl⟩
    exact ⟨rfl, rfl, hsrc⟩
  · rintro ⟨rfl, rfl, hsrc⟩
    exact ⟨c, hsrc, rfl, rfl, rfl⟩

theorem mirrored_addUseSources (srcs : RefSets α Loc) (use : Reference α Loc) (loc : Loc)
    (h : uses.Mirrored) :
    (addUseSources srcs use uses loc).Mirrored := by
  intro a b c
  simp only [addUseSources, Finset.mem_union, Finset.mem_image, Prod.mk.injEq, h a b c]
  apply or_congr_right
  constructor
  · rintro ⟨src, hsrc, rfl, rfl, rfl⟩
    exact ⟨_, hsrc, rfl, rfl, rfl⟩
  · rintro ⟨src, hsrc, rfl, rfl, rfl⟩
    exact ⟨_, hsrc, rfl, rfl, rfl⟩

/-- The uses of several locations at one reference. -/
theorem mem_foldl_addUseSources (locs : List Loc) {t : Reference α Loc × Loc × Reference α Loc} :
    t ∈ (locs.foldl (addUseSources srcs use) uses).instrInputs ↔
      t ∈ uses.instrInputs ∨ t.1 = use ∧ t.2.1 ∈ locs ∧ t.2.2 ∈ srcs t.2.1 := by
  induction locs generalizing uses with
  | nil => simp
  | cons loc locs ih =>
    rw [List.foldl_cons, ih, mem_addUseSources, List.mem_cons, or_assoc]
    apply or_congr_right
    constructor
    · rintro (⟨huse, rfl, hsrc⟩ | ⟨huse, hloc, hsrc⟩)
      · exact ⟨huse, .inl rfl, hsrc⟩
      · exact ⟨huse, .inr hloc, hsrc⟩
    · rintro ⟨huse, heq | hloc, hsrc⟩
      · exact .inl ⟨huse, heq, heq ▸ hsrc⟩
      · exact .inr ⟨huse, hloc, hsrc⟩

theorem mirrored_foldl (srcs : RefSets α Loc) (use : Reference α Loc) (locs : List Loc) (h : uses.Mirrored) :
    (locs.foldl (addUseSources srcs use) uses).Mirrored := by
  induction locs generalizing uses with
  | nil => exact h
  | cons loc locs ih => exact ih (mirrored_addUseSources srcs use loc h)

theorem setSources_exact (i : Instruction Loc) (ref : Reference α Loc) (hS : S.Nonempty)
    (h : Exact srcs S) : Exact (i.setSources ref srcs) ((fun d => i.define ref d) '' S) := by
  intro loc r
  rw [Reaching, Set.forall_mem_image, Set.exists_mem_image]
  simp only [Instruction.setSources, Instruction.define, List.mem_append]
  obtain ⟨d, hd⟩ := hS
  by_cases hout : loc ∈ i.outputs
  · simp only [hout, or_true, if_true, insert_empty_eq, Finset.mem_singleton, Option.isSome_some,
      implies_true, Option.some.injEq, true_and]
    constructor
    · intro heq
      exact ⟨d, hd, heq.symm⟩
    · rintro ⟨_, _, heq⟩
      exact heq.symm
  · by_cases hclobber : loc ∈ i.clobbers
    · simp only [hout, hclobber, or_false, if_true, if_false, Finset.notMem_empty, Option.isSome_none,
        Bool.false_eq_true, imp_false, reduceCtorEq, and_false, exists_const]
    · simp only [hout, hclobber, or_false, if_false]
      exact h loc r

/-- What an instruction of a block uses. -/
theorem runBlock_spec (n : α) (k : Nat) (is : List (Instruction Loc)) (hS : S.Nonempty)
    (h : Exact srcs S) (hmirrored : uses.Mirrored) :
    Exact (runBlock n k is srcs uses).1 ((fun d => defineAll n k is d) '' S) ∧
    (runBlock n k is srcs uses).2.Mirrored ∧
    ∀ t, t ∈ (runBlock n k is srcs uses).2.instrInputs ↔ t ∈ uses.instrInputs ∨
      ∃ j i, is[j]? = some i ∧ t.1 = .instrRef n (k + j) ∧ t.2.1 ∈ i.inputs ∧
        Reaching ((fun d => defineAll n k (is.take j) d) '' S) t.2.1 t.2.2 := by
  induction is generalizing k srcs uses S with
  | nil =>
    refine ⟨?_, hmirrored, ?_⟩
    · simpa [runBlock, defineAll] using h
    · simp [runBlock]
  | cons i is ih =>
    obtain ⟨hexact, hmirror, hmem⟩ := ih (k + 1) (hS.image _)
      (setSources_exact i (.instrRef n k) hS h)
      (mirrored_foldl srcs (.instrRef n k) i.inputs hmirrored)
    rw [runBlock]
    refine ⟨?_, hmirror, ?_⟩
    · rw [Set.image_image] at hexact
      exact hexact
    · intro t
      rw [hmem, mem_foldl_addUseSources, or_assoc]
      apply or_congr_right
      constructor
      · rintro (⟨huse, hin, hsrc⟩ | ⟨j, i', hi', huse, hin, hreach⟩)
        · refine ⟨0, i, rfl, huse, hin, ?_⟩
          simpa [defineAll] using (h _ _).mp hsrc
        · refine ⟨j + 1, i', hi', ?_, hin, ?_⟩
          · rw [huse]
            congr 1
            omega
          · rw [Set.image_image] at hreach
            exact hreach
      · rintro ⟨j, i', hi', huse, hin, hreach⟩
        cases j with
        | zero =>
          obtain rfl := Option.some.inj hi'
          refine .inl ⟨huse, hin, (h _ _).mpr ?_⟩
          simpa [defineAll] using hreach
        | succ j =>
          refine .inr ⟨j, i', hi', ?_, hin, ?_⟩
          · rw [huse]
            congr 1
            omega
          · rw [Set.image_image]
            exact hreach

end

namespace Flow
variable (f : Flow α Loc) (arch : Arch Loc)

/-- What the instructions of a node use, and the end: the references at which the executions
that come there have set it. -/
def Recorded (n : α) (t : Reference α Loc × Loc × Reference α Loc) : Prop :=
  (∃ k i, (f.instructions n)[k]? = some i ∧ t.1 = .instrRef n k ∧ t.2.1 ∈ i.inputs ∧
    Reaching {d | At f arch n k d} t.2.1 t.2.2) ∨
  (f.node n).isTerminal = true ∧ t.2.1 ∈ arch.allReturnRegs ∧ t.1 = .epilogueRef t.2.1 ∧
    Reaching (f.departures arch n) t.2.1 t.2.2

variable {f arch} {n : α} {k : Nat} {srcs : RefSets α Loc} {uses : InstrUses α Loc}

theorem at_eq_image (arch : Arch Loc) (hk : k ≤ (f.instructions n).length) : {d | At f arch n k d} =
    (fun d => defineAll n 0 ((f.instructions n).take k) d) '' f.arrivals arch n := by
  ext d
  simp only [arrivals, Set.mem_ofPred_eq, Set.mem_image, at_iff, hk, true_and, Nat.zero_le,
    List.take_zero, defineAll]
  constructor
  · rintro ⟨path, hwalk, rfl⟩
    exact ⟨_, ⟨path, hwalk, rfl⟩, rfl⟩
  · rintro ⟨_, ⟨path, hwalk, rfl⟩, rfl⟩
    exact ⟨path, hwalk, rfl⟩

/-- The returned registers are looked up one by one. -/
theorem foldl_epilogue (srcs : RefSets α Loc) (regs : List Loc) (hmirrored : uses.Mirrored) :
    (regs.foldl (fun uses reg => addUseSources srcs (.epilogueRef reg) uses reg) uses).Mirrored ∧
    ∀ t, t ∈ (regs.foldl (fun uses reg =>
        addUseSources srcs (.epilogueRef reg) uses reg) uses).instrInputs ↔
      t ∈ uses.instrInputs ∨ t.2.1 ∈ regs ∧ t.1 = .epilogueRef t.2.1 ∧ t.2.2 ∈ srcs t.2.1 := by
  induction regs generalizing uses with
  | nil => exact ⟨hmirrored, by simp⟩
  | cons reg regs ih =>
    rw [List.foldl_cons]
    obtain ⟨hmirror, hmem⟩ := ih (mirrored_addUseSources srcs (.epilogueRef reg) reg hmirrored)
    refine ⟨hmirror, ?_⟩
    intro t
    rw [hmem, mem_addUseSources, List.mem_cons, or_assoc]
    apply or_congr_right
    constructor
    · rintro (⟨huse, rfl, hsrc⟩ | ⟨hreg, huse, hsrc⟩)
      · exact ⟨.inl rfl, huse, hsrc⟩
      · exact ⟨.inr hreg, huse, hsrc⟩
    · rintro ⟨heq | hreg, huse, hsrc⟩
      · exact .inl ⟨heq ▸ huse, heq, heq ▸ hsrc⟩
      · exact .inr ⟨hreg, huse, hsrc⟩

/-- One node of the tree. -/
theorem node_spec (h : Exact srcs (f.arrivals arch n)) (hne : (f.arrivals arch n).Nonempty)
    (hmirrored : uses.Mirrored) :
    let r := runBlock n 0 (f.instructions n) srcs uses
    let uses' := if (f.node n).isTerminal then arch.allReturnRegs.foldl
      (fun uses reg => addUseSources r.1 (.epilogueRef reg) uses reg) r.2 else r.2
    Exact r.1 (f.departures arch n) ∧ uses'.Mirrored ∧
      ∀ t, t ∈ uses'.instrInputs ↔ t ∈ uses.instrInputs ∨ f.Recorded arch n t := by
  obtain ⟨hexact, hmirror, hmem⟩ := runBlock_spec n 0 (f.instructions n) hne h hmirrored
  have hdepart : f.departures arch n =
      (fun d => defineAll n 0 (f.instructions n) d) '' f.arrivals arch n := by
    have himage := at_eq_image (f := f) arch (le_refl (f.instructions n).length)
    rw [List.take_length] at himage
    exact himage
  rw [← hdepart] at hexact
  have hinstr (t : Reference α Loc × Loc × Reference α Loc) :
      (∃ j i, (f.instructions n)[j]? = some i ∧ t.1 = .instrRef n (0 + j) ∧ t.2.1 ∈ i.inputs ∧
        Reaching ((fun d => defineAll n 0 ((f.instructions n).take j) d) '' f.arrivals arch n)
          t.2.1 t.2.2) ↔
      ∃ k i, (f.instructions n)[k]? = some i ∧ t.1 = .instrRef n k ∧ t.2.1 ∈ i.inputs ∧
        Reaching {d | At f arch n k d} t.2.1 t.2.2 := by
    apply exists_congr
    intro j
    apply exists_congr
    intro i
    rw [Nat.zero_add]
    apply and_congr_right
    intro hi
    rw [at_eq_image arch (List.getElem?_eq_some_iff.mp hi).1.le]
  refine ⟨hexact, ?_⟩
  split_ifs with hterm
  · obtain ⟨hmirror', hmem'⟩ := foldl_epilogue
      (runBlock n 0 (f.instructions n) srcs uses).1 arch.allReturnRegs hmirror
    refine ⟨hmirror', ?_⟩
    intro t
    rw [hmem', hmem, hinstr, or_assoc, hexact, Recorded]
    simp only [hterm, true_and]
  · refine ⟨hmirror, ?_⟩
    intro t
    rw [hmem, hinstr, Recorded]
    simp only [hterm, Bool.false_eq_true, false_and, or_false]

end Flow

omit [DecidableEq Loc] [DecidableEq α] in
/-- Steps that each add what they stand for add it all. -/
theorem foldlM_uses (step : InstrUses α Loc → α → Option (InstrUses α Loc))
    (P : α → Reference α Loc × Loc × Reference α Loc → Prop) (cs : List α)
    (h : ∀ c ∈ cs, ∀ uses : InstrUses α Loc, uses.Mirrored → ∃ uses', step uses c = some uses' ∧
      uses'.Mirrored ∧ ∀ t, t ∈ uses'.instrInputs ↔ t ∈ uses.instrInputs ∨ P c t)
    (uses : InstrUses α Loc) (hmirrored : uses.Mirrored) :
    ∃ uses', cs.foldlM step uses = some uses' ∧ uses'.Mirrored ∧
      ∀ t, t ∈ uses'.instrInputs ↔ t ∈ uses.instrInputs ∨ ∃ c ∈ cs, P c t := by
  induction cs generalizing uses with
  | nil => exact ⟨uses, rfl, hmirrored, by simp⟩
  | cons c cs ih =>
    obtain ⟨uses₁, hstep, hmirror₁, hmem₁⟩ := h c List.mem_cons_self uses hmirrored
    obtain ⟨uses₂, hrest, hmirror₂, hmem₂⟩ :=
      ih (fun c hc => h c (List.mem_cons_of_mem _ hc)) uses₁ hmirror₁
    refine ⟨uses₂, ?_, hmirror₂, ?_⟩
    · rw [List.foldlM_cons, hstep]
      exact hrest
    · intro t
      rw [hmem₂, hmem₁, List.exists_mem_cons_iff, or_assoc]

namespace Flow
variable [Fintype α] {f : Flow α Loc} {arch : Arch Loc} {n : α} {srcs : RefSets α Loc}

omit [DecidableEq Loc] in
theorem mem_immediatelyDominates {c : α} :
    c ∈ f.immediatelyDominates n ↔ f.immediateDominator c = some n := by
  simp [immediatelyDominates, f.complete]

theorem processNode_spec (hreach : ∀ n, Relation.ReflTransGen f.Edge f.entry n) (fuel : Nat) (n : α)
    (srcs : RefSets α Loc) (uses : InstrUses α Loc) (h : Exact srcs (f.arrivals arch n))
    (hfuel : Fintype.card α < fuel + (f.dominators n).card) (hmirrored : uses.Mirrored) :
    ∃ uses', f.processNode arch fuel n srcs uses = some uses' ∧ uses'.Mirrored ∧
      ∀ t, t ∈ uses'.instrInputs ↔
        t ∈ uses.instrInputs ∨ ∃ c, Dominates f.Edge f.entry n c ∧ f.Recorded arch c t := by
  induction fuel generalizing n srcs uses with
  | zero =>
    have := Finset.card_le_univ (f.dominators n)
    omega
  | succ fuel ih =>
    obtain ⟨hexact, hmirror, hmem⟩ := node_spec h (exists_arrival arch hreach n) hmirrored
    rw [processNode]
    dsimp only at hexact hmirror hmem ⊢
    generalize runBlock n 0 (f.instructions n) srcs uses = r at hexact hmirror hmem ⊢
    obtain ⟨uses', hrun, hmirror', hmem'⟩ := foldlM_uses
      (fun uses child => f.processNode arch fuel child (f.childSources n child r.1) uses)
      (fun c t => ∃ b, Dominates f.Edge f.entry c b ∧ f.Recorded arch b t)
      (f.immediatelyDominates n) (by
        intro c hc uses hmirrored
        rw [mem_immediatelyDominates] at hc
        obtain ⟨⟨hne, hdom⟩, -⟩ := (f.immediateDominator_iff (hreach c)).mp hc
        refine ih c _ uses (childSources_exact hreach hdom hne hexact) ?_ hmirrored
        have := dominators_card_lt (fun n d => f.mem_dominators.1) (hreach c) hdom hne
        omega) _ hmirror
    refine ⟨uses', hrun, hmirror', ?_⟩
    intro t
    rw [hmem', hmem, or_assoc]
    apply or_congr_right
    simp only [mem_immediatelyDominates]
    constructor
    · rintro (hn | ⟨c, hc, b, hdom, hb⟩)
      · exact ⟨n, .refl, hn⟩
      · refine ⟨b, ?_, hb⟩
        rw [f.dominates_iff_child (hreach b)]
        exact .inr ⟨c, hc, hdom⟩
    · rintro ⟨b, hdom, hb⟩
      rw [f.dominates_iff_child (hreach b)] at hdom
      rcases hdom with rfl | ⟨c, hc, hdom⟩
      · exact .inl hb
      · exact .inr ⟨c, hc, b, hdom, hb⟩

/-- An instruction depends, for each of its inputs, on the references at which some execution
that comes to it has set the input last; on none if some execution has not set it. What comes
back to the entry is not looked at. -/
theorem nodesToFlowgraph_spec (f : Flow α Loc) (arch : Arch Loc)
    (hreach : ∀ n, Relation.ReflTransGen f.Edge f.entry n) (hentry : ∀ n, ¬f.Edge n f.entry) :
    ∃ uses, f.nodesToFlowgraph arch = some uses ∧ uses.Mirrored ∧
      ∀ t, t ∈ uses.instrInputs ↔ ∃ n, f.Recorded arch n t := by
  have honly : f.arrivals arch f.entry = {arch.entryDefinitions} := by
    ext d
    rw [Set.mem_singleton_iff]
    constructor
    · intro hd
      obtain ⟨-, path, hwalk, rfl⟩ := at_iff.mp hd
      cases hwalk with
      | nil => rfl
      | cons _ hedge => exact absurd hedge (hentry _)
    · rintro rfl
      exact .entry
  have hstart : Exact (fun loc => if loc ∈ arch.allRegs then {.prologueRef loc} else ∅)
      (f.arrivals arch f.entry) := by
    intro loc ref
    rw [honly]
    rw [Reaching]
    by_cases hloc : loc ∈ arch.allRegs
    · simp only [hloc, Arch.entryDefinitions, Set.mem_singleton_iff, forall_eq, exists_eq_left,
        if_true, Option.isSome_some, Finset.mem_singleton, true_and, Option.some.injEq]
      exact eq_comm
    · simp [Arch.entryDefinitions, hloc]
  obtain ⟨uses, hrun, hmirror, hmem⟩ := processNode_spec hreach (Fintype.card α) f.entry _ ⟨∅, ∅⟩
    hstart (by
      have := Finset.card_pos.mpr ⟨f.entry, f.mem_dominators.1.mpr .refl⟩
      omega) (by simp [InstrUses.Mirrored])
  refine ⟨uses, hrun, hmirror, ?_⟩
  intro t
  rw [hmem]
  constructor
  · rintro (ht | ⟨c, -, hc⟩)
    · cases ht
    · exact ⟨c, hc⟩
  · rintro ⟨c, hc⟩
    exact .inr ⟨c, fun _ _ => .inl rfl, hc⟩

def aroundInstructions : Fin 4 → List (Instruction (Fin 2))
  | 1 => [⟨[1], [0], []⟩]
  | 2 => [⟨[0], [], []⟩]
  | _ => []

theorem aroundInstructions_bare (a : Fin 4) (h : Nodes.aroundNode a = .terminalNode) :
    aroundInstructions a = [] := by
  fin_cases a <;> simp_all [Nodes.aroundNode, aroundInstructions]

/-- The branch goes around the block that sets what is read behind it. -/
def aroundSet : Flow (Fin 4) (Fin 2) where
  toNodes := .around
  instructions := aroundInstructions
  bare := aroundInstructions_bare

theorem aroundSet_uses :
    (∀ n, Relation.ReflTransGen aroundSet.Edge aroundSet.entry n) ∧
    (∀ n, ¬aroundSet.Edge n aroundSet.entry) ∧
    ∃ uses, aroundSet.nodesToFlowgraph ⟨[0, 1], [0]⟩ = some uses ∧ uses.Mirrored ∧
      ∀ t, t ∈ uses.instrInputs ↔ ∃ n, aroundSet.Recorded ⟨[0, 1], [0]⟩ n t :=
  have hentry : ∀ n, ¬Nodes.around.Edge n Nodes.around.entry := by decide
  ⟨Nodes.around_reached, hentry,
    nodesToFlowgraph_spec aroundSet ⟨[0, 1], [0]⟩ Nodes.around_reached hentry⟩

end Flow

end

end MeleeHarness.M2c
