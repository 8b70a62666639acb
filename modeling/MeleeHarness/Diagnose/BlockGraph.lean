import MeleeHarness.Diagnose.ScheduledBlocks
import MeleeHarness.Lib.Reach

/-!
# Blocks on a cycle

`cyclic_blocks` finds the loops of a listing: the blocks from which a path along the listed
successors leads back.

`cyclicBlocks_iff`: it returns, and what it returns is the blocks on a cycle.
-/

namespace MeleeHarness.Diagnose

open Lib

/-- A dictionary; of two entries with one key the later counts. -/
abbrev BlockGraph := List (Text × List Text)

def BlockGraph.get (graph : BlockGraph) (name : Text) : List Text :=
  match graph.reverse.find? (·.1 = name) with
  | some (_, succs) => succs
  | none => []

def blockGraph (blocks : List ScheduledBlock) : BlockGraph :=
  blocks.map fun b => (b.name, b.succs.filter (· ∈ blocks.map ScheduledBlock.name))

/-- `none` where the calls go deeper than `fuel`. -/
def blockReaches (fuel : Nat) (graph : BlockGraph) (start target : Text) : Option Bool :=
  (Reach.search graph.get target fuel start []).map Prod.fst

def cyclicBlocks (fuel : Nat) (blocks : List ScheduledBlock) : Option (List Text) := do
  let marks ← blocks.mapM fun b => do
    let cyclic ← blockReaches fuel (blockGraph blocks) b.name b.name
    return (b.name, cyclic)
  return (marks.filter Prod.snd).map Prod.fst

/-! ## What is found -/

/-- A step from a listed block to another. -/
def Edge (blocks : List ScheduledBlock) (a b : Text) : Prop :=
  ∃ block ∈ blocks, block.name = a ∧ b ∈ block.succs ∧ b ∈ blocks.map ScheduledBlock.name

section
variable {blocks : List ScheduledBlock}

theorem get_subset (a : Text) : (blockGraph blocks).get a ⊆ blocks.map ScheduledBlock.name := by
  intro b hb
  rw [BlockGraph.get] at hb
  split at hb
  · rename_i succs hfind
    have hmem := List.mem_of_find?_eq_some hfind
    rw [List.mem_reverse, blockGraph, List.mem_map] at hmem
    obtain ⟨block, -, hblock⟩ := hmem
    obtain ⟨-, rfl⟩ := Prod.mk.inj hblock
    exact of_decide_eq_true (List.mem_filter.mp hb).2
  · cases hb

/-- Where the names are distinct, a name leads to the successors of its block. -/
theorem mem_get_iff (hnames : (blocks.map ScheduledBlock.name).Nodup) (a b : Text) :
    b ∈ (blockGraph blocks).get a ↔ Edge blocks a b := by
  constructor
  · intro hb
    rw [BlockGraph.get] at hb
    split at hb
    · rename_i name succs hfind
      have hname : name = a := by simpa using List.find?_some hfind
      have hmem := List.mem_of_find?_eq_some hfind
      rw [List.mem_reverse, blockGraph, List.mem_map] at hmem
      obtain ⟨block, hblock, hpair⟩ := hmem
      obtain ⟨rfl, rfl⟩ := Prod.mk.inj hpair
      obtain ⟨hsucc, hlisted⟩ := List.mem_filter.mp hb
      exact ⟨block, hblock, hname, hsucc, of_decide_eq_true hlisted⟩
    · cases hb
  · rintro ⟨block, hblock, rfl, hsucc, hlisted⟩
    have hentry : (block.name, block.succs.filter (· ∈ blocks.map ScheduledBlock.name)) ∈
        (blockGraph blocks).reverse := by
      rw [List.mem_reverse]
      exact List.mem_map_of_mem hblock
    rw [BlockGraph.get]
    split
    · rename_i name succs hfind
      have hname : name = block.name := by simpa using List.find?_some hfind
      have hmem := List.mem_of_find?_eq_some hfind
      rw [List.mem_reverse, blockGraph, List.mem_map] at hmem
      obtain ⟨other, hother, hpair⟩ := hmem
      obtain ⟨hother', rfl⟩ := Prod.mk.inj hpair
      have hsame : other = block :=
        List.inj_on_of_nodup_map hnames hother hblock (hother'.trans hname)
      rw [hsame]
      exact List.mem_filter.mpr ⟨hsucc, decide_eq_true hlisted⟩
    · rename_i hnone
      have habsent := List.find?_eq_none.mp hnone _ hentry
      simp at habsent

/-- A call for each block is deep enough. -/
theorem blockReaches_iff {fuel : Nat} (hfuel : blocks.length < fuel)
    (hnames : (blocks.map ScheduledBlock.name).Nodup) (start target : Text) :
    ∃ found, blockReaches fuel (blockGraph blocks) start target = some found ∧
      (found = true ↔ Relation.TransGen (Edge blocks) start target) := by
  have hlen : Reach.unvisited (blocks.map ScheduledBlock.name) [] < fuel := by
    have hle := List.countP_le_length (p := fun x : Text => decide (x ∉ ([] : List Text)))
      (l := blocks.map ScheduledBlock.name)
    rw [List.length_map] at hle
    exact Nat.lt_of_le_of_lt hle hfuel
  obtain ⟨⟨found, visited⟩, hrun⟩ := @Reach.search_isSome _ _ _ target _ get_subset fuel start []
    hlen
  refine ⟨found, by rw [blockReaches, hrun]; rfl, ?_⟩
  have hstep : (fun a b => b ∈ (blockGraph blocks).get a) = Edge blocks := by
    funext a b
    exact propext (mem_get_iff hnames a b)
  rw [Reach.search_iff hrun, hstep]

end

/-- The result is the names of the blocks on a cycle. -/
theorem cyclicBlocks_iff (blocks : List ScheduledBlock)
    (hnames : (blocks.map ScheduledBlock.name).Nodup) (fuel : Nat) (hfuel : blocks.length < fuel) :
    ∃ names, cyclicBlocks fuel blocks = some names ∧
      ∀ name, name ∈ names ↔ Relation.TransGen (Edge blocks) name name := by
  classical
  have hreaches := blockReaches_iff hfuel hnames
  have hmarks : blocks.mapM (fun b => do
      let cyclic ← blockReaches fuel (blockGraph blocks) b.name b.name
      return (b.name, cyclic)) =
      some (blocks.map fun b => (b.name, decide (Relation.TransGen (Edge blocks) b.name b.name))) := by
    rw [mapM_some_iff, List.forall₂_map_right_iff, List.forall₂_same]
    intro b hb
    obtain ⟨found, hfound, hiff⟩ := hreaches b.name b.name
    rw [hfound]
    cases found with
    | true => simp [hiff.mp rfl]
    | false =>
      have hnot : ¬Relation.TransGen (Edge blocks) b.name b.name := fun h => by
        cases hiff.mpr h
      simp [hnot]
  refine ⟨_, by rw [cyclicBlocks, hmarks]; rfl, ?_⟩
  intro name
  rw [List.mem_map]
  constructor
  · rintro ⟨⟨_, cyclic⟩, hmark, rfl⟩
    obtain ⟨hmem, hcyclic⟩ := List.mem_filter.mp hmark
    obtain ⟨b, hb, hpair⟩ := List.mem_map.mp hmem
    obtain ⟨rfl, rfl⟩ := Prod.mk.inj hpair
    exact of_decide_eq_true hcyclic
  · intro hcycle
    obtain ⟨next, ⟨b, hb, rfl, -⟩, -⟩ := Relation.TransGen.head'_iff.mp hcycle
    refine ⟨(b.name, true), List.mem_filter.mpr ⟨List.mem_map.mpr ⟨b, hb, ?_⟩, rfl⟩, rfl⟩
    rw [decide_eq_true hcycle]

/-- Two blocks in a loop, with a block behind them and a successor that is not listed. -/
theorem loop_found : ∃ names, cyclicBlocks 5
      [⟨['B', '0'], 0, [], [['B', '1']], []⟩, ⟨['B', '1'], 1, [], [['B', '2'], ['B', '9']], []⟩,
        ⟨['B', '2'], 2, [], [['B', '1'], ['B', '3']], []⟩, ⟨['B', '3'], 3, [], [], []⟩] = some names ∧
      ∀ name, name ∈ names ↔ Relation.TransGen (Edge
        [⟨['B', '0'], 0, [], [['B', '1']], []⟩, ⟨['B', '1'], 1, [], [['B', '2'], ['B', '9']], []⟩,
          ⟨['B', '2'], 2, [], [['B', '1'], ['B', '3']], []⟩, ⟨['B', '3'], 3, [], [], []⟩]) name name :=
  cyclicBlocks_iff _ (by decide) 5 (by decide)

end MeleeHarness.Diagnose
