import MeleeHarness.Lib.C.Execute
import MeleeHarness.Lib.C.Layout
import MeleeHarness.Lib.C.Store
import MeleeHarness.SrcMutate.Operators
import MeleeHarness.SrcMutate.Tree

/-!
# Duplicate assignments

`p_fold_duplicate_assignment` finds `a = r; … b = r;` in a block and writes the second one
as `b = (a = r)`. It compares texts; what happens between the two it does not see.

* `mem_foldCandidates`: which pairs are found;
* `assign_again`: `a = r` does nothing where `a` holds what `r` would store in it again;
* `fold_does`: so the block does what it did, if that is so whenever `b = r` is reached.
-/

namespace MeleeHarness.SrcMutate

open Lib Lib.C

/-! ## The pairs -/

/-- A statement of a block, with the text of its expression. -/
structure Child where
  stmt : Stmt
  text : List Element

/-- An operand of an assignment with its text. -/
structure Operand where
  expr : Expr
  text : List Element

def simpleAssignmentStmt (child : Child) : Option (Operand × Operand) :=
  match child.stmt with
  | .expression (.node (.assignment none) [l, r]) =>
    match parts [l.print.length, 1, r.print.length] child.text with
    | [lhs, _, rhs] => some (⟨l, lhs.text⟩, ⟨r, rhs.text⟩)
    | _ => none
  | _ => none

def assignmentRhsFoldOk : Expr → Bool
  | .val _ | .ident _ | .node (.field _) _ | .node (.arrow _) _ => true
  | .node (.cast _) [e] => assignmentRhsFoldOk e
  | _ => false

def assignmentLhsFoldOk (lhs : Expr) : Bool :=
  nodeType lhs ∈ [.identifier, .fieldExpression] &&
    !lhs.iterSubtree.any fun n =>
      nodeType n ∈ [.callExpression, .updateExpression, .assignmentExpression]

/-- An assignment that has been seen, and its place in the block. -/
structure Assigned where
  index : Nat
  lhs : Operand
  rhs : Operand

def foldCandidatesFrom (index : Nat) (prior : List Assigned) :
    List Child → List (Assigned × Assigned)
  | [] => []
  | child :: rest =>
    match simpleAssignmentStmt child with
    | none => foldCandidatesFrom (index + 1) prior rest
    | some (lhs, rhs) =>
      if !assignmentLhsFoldOk lhs.expr || !assignmentRhsFoldOk rhs.expr then
        foldCandidatesFrom (index + 1) prior rest
      else
        (prior.filter fun prev => prev.rhs.text = rhs.text && prev.lhs.text ≠ lhs.text).map
            (·, ⟨index, lhs, rhs⟩) ++
          foldCandidatesFrom (index + 1) (prior ++ [⟨index, lhs, rhs⟩]) rest

/-- The pairs of a block, the earlier assignment first. -/
def foldCandidates (children : List Child) : List (Assigned × Assigned) :=
  foldCandidatesFrom 0 [] children

/-- What is written for the right-hand side of the later one. -/
def foldedText (prev : Assigned) : List Element :=
  [.token .lparen] ++ prev.lhs.text ++ [.white ' ', .token (.assign none), .white ' '] ++
    prev.rhs.text ++ [.token .rparen]

def assign (lhs rhs : Expr) : Expr := .node (.assignment none) [lhs, rhs]

/-- `b = (a = r)` -/
def assignTwice (b a r : Expr) : Expr := assign b (.node .parenthesized [assign a r])

/-- The block after the edit. -/
def folded (children : List Child) (prev later : Assigned) : List Stmt :=
  (children.map Child.stmt).set later.index
    (.expression (assignTwice later.lhs.expr prev.lhs.expr prev.rhs.expr))

/-- The assignment stands at its place in the block. -/
structure Assigned.At (children : List Child) (a : Assigned) : Prop where
  found : ∃ child, children[a.index]? = some child ∧
    simpleAssignmentStmt child = some (a.lhs, a.rhs)
  lhsOk : assignmentLhsFoldOk a.lhs.expr = true
  rhsOk : assignmentRhsFoldOk a.rhs.expr = true

theorem mem_foldCandidatesFrom {done rest : List Child} {prior : List Assigned} {p q : Assigned}
    (hprior : ∀ a ∈ prior, a.At (done ++ rest) ∧ a.index < done.length)
    (h : (p, q) ∈ foldCandidatesFrom done.length prior rest) :
    p.At (done ++ rest) ∧ q.At (done ++ rest) ∧ p.index < q.index ∧ p.rhs.text = q.rhs.text := by
  induction rest generalizing done prior with
  | nil => cases h
  | cons child rest ih =>
    have hsplit : done ++ child :: rest = (done ++ [child]) ++ rest := by simp
    have hskip : ∀ a ∈ prior, a.At (done ++ [child] ++ rest) ∧ a.index < (done ++ [child]).length := by
      intro a ha
      obtain ⟨hat, hlt⟩ := hprior a ha
      rw [List.length_append]
      exact ⟨hsplit ▸ hat, Nat.lt_add_right _ hlt⟩
    rw [foldCandidatesFrom] at h
    rw [hsplit]
    cases hsimple : simpleAssignmentStmt child with
    | none =>
      simp only [hsimple] at h
      exact ih hskip (by simpa using h)
    | some pair =>
      obtain ⟨lhs, rhs⟩ := pair
      simp only [hsimple] at h
      by_cases hok : (!assignmentLhsFoldOk lhs.expr || !assignmentRhsFoldOk rhs.expr) = true
      · rw [if_pos hok] at h
        exact ih hskip (by simpa using h)
      · rw [if_neg hok] at h
        simp only [Bool.not_eq_true, Bool.or_eq_false_iff, Bool.not_eq_false'] at hok
        have hnew : (⟨done.length, lhs, rhs⟩ : Assigned).At (done ++ [child] ++ rest) :=
          ⟨⟨child, by simp, hsimple⟩, hok.1, hok.2⟩
        rcases List.mem_append.mp h with h | h
        · obtain ⟨prev, hprev, heq⟩ := List.mem_map.mp h
          obtain ⟨rfl, rfl⟩ := Prod.mk.inj heq
          obtain ⟨hmem, htext⟩ := List.mem_filter.mp hprev
          rw [Bool.and_eq_true, decide_eq_true_eq] at htext
          exact ⟨(hskip prev hmem).1, hnew, (hprior prev hmem).2, htext.1⟩
        · refine ih ?_ (by simpa using h)
          intro a ha
          rcases List.mem_append.mp ha with ha | ha
          · exact hskip a ha
          · rw [List.mem_singleton.mp ha]
            exact ⟨hnew, by simp⟩

/-- The pairs are assignments of the block in their order, with the same right-hand side. -/
theorem mem_foldCandidates {children : List Child} {p q : Assigned}
    (h : (p, q) ∈ foldCandidates children) :
    p.At children ∧ q.At children ∧ p.index < q.index ∧ p.rhs.text = q.rhs.text :=
  @mem_foldCandidatesFrom [] children [] p q (by simp) h

/-! ## The texts -/

/-- The text of an expression statement is that of its expression. -/
def Child.Spelled (child : Child) : Prop :=
  ∀ e, child.stmt = .expression e → e.written = true ∧ tokens child.text = e.print ∧
    Tight child.text ∧ Apart child.text

structure Operand.Spelled (operand : Operand) : Prop where
  written : operand.expr.written = true
  spelled : tokens operand.text = operand.expr.print
  tight : Tight operand.text
  apart : Apart operand.text

/-- The text of an assignment with another right-hand side. -/
def withRhs (child : Child) (lhs rhs : Expr) (new : List Element) : List Element :=
  match parts [lhs.print.length, 1, rhs.print.length] child.text with
  | [l, op, r] => joinParts [l, op, ⟨r.gap, new⟩]
  | _ => child.text

theorem simpleAssignment_stmt {child : Child} {lhs rhs : Operand}
    (h : simpleAssignmentStmt child = some (lhs, rhs)) :
    child.stmt = .expression (assign lhs.expr rhs.expr) := by
  unfold simpleAssignmentStmt at h
  split at h
  · rename_i l r hstmt
    split at h
    · obtain ⟨rfl, rfl⟩ := Prod.mk.inj (Option.some.inj h)
      exact hstmt
    · cases h
  · cases h

/-- The text of an assignment and of its operands. -/
theorem simpleAssignment_spelled {child : Child} {lhs rhs : Operand} (hspelled : child.Spelled)
    (h : simpleAssignmentStmt child = some (lhs, rhs)) :
    (lhs.Spelled ∧ Level.unary ≤ lhs.expr.level) ∧ (rhs.Spelled ∧ Level.assignment ≤ rhs.expr.level) ∧
      ∃ g g', tokens g = [] ∧ tokens g' = [] ∧
        child.text = lhs.text ++ (g ++ .token (.assign none) :: (g' ++ rhs.text)) ∧
        ∀ new, withRhs child lhs.expr rhs.expr new =
          lhs.text ++ (g ++ .token (.assign none) :: (g' ++ new)) := by
  have hstmt := simpleAssignment_stmt h
  obtain ⟨hwritten, htokens, htight, hapart⟩ := hspelled _ hstmt
  rw [assign, written_assignment] at hwritten
  obtain ⟨-, ⟨hlevel, hl⟩, hrlevel, hr⟩ := hwritten
  obtain ⟨l, g, g', r, hparts, htext, ⟨hlt, hltight⟩, ⟨hrt, hrtight⟩, hg, hg'⟩ :=
    parts_joined htight (t := .assign none) htokens (print_ne_nil hl)
  simp only [simpleAssignmentStmt, hstmt, assign, hparts, Option.some.injEq, Prod.mk.injEq] at h
  obtain ⟨hlhs, hrhs⟩ := h
  have hapart' := hapart
  rw [htext, apart_append, ← List.cons_append, ← List.append_assoc, apart_append] at hapart'
  rw [← hlhs, ← hrhs] at *
  refine ⟨⟨⟨hl, hlt, hltight, hapart'.1⟩, hlevel⟩, ⟨⟨hr, hrt, hrtight, hapart'.2.1.2.1⟩, hrlevel⟩,
    g, g', tokens_blank hg, tokens_blank hg', htext, ?_⟩
  intro new
  simp only [withRhs, hparts]
  simp [joinParts]

/-- The assignment in parentheses. -/
theorem foldedText_spelled {prev : Assigned} (hlhs : prev.lhs.Spelled)
    (hlevel : Level.unary ≤ prev.lhs.expr.level) (hrhs : prev.rhs.Spelled)
    (hrhsLevel : Level.assignment ≤ prev.rhs.expr.level) :
    (assign prev.lhs.expr prev.rhs.expr).written = true ∧
      tokens (foldedText prev) =
        (Expr.node .parenthesized [assign prev.lhs.expr prev.rhs.expr]).print ∧
      Apart (foldedText prev) := by
  have hwritten : (assign prev.lhs.expr prev.rhs.expr).written = true :=
    written_assignment.mpr ⟨rfl, ⟨hlevel, hlhs.written⟩, hrhsLevel, hrhs.written⟩
  have htokens : tokens (prev.lhs.text ++ [.white ' ', .token (.assign none), .white ' '] ++
      prev.rhs.text) = (assign prev.lhs.expr prev.rhs.expr).print := by
    rw [tokens_append, tokens_append, hlhs.spelled, hrhs.spelled]
    simp [assign, Expr.print, Expr.printAll, Kind.arrange]
  have htext : foldedText prev = .token .lparen :: ((prev.lhs.text ++
      [.white ' ', .token (.assign none), .white ' '] ++ prev.rhs.text) ++ [.token .rparen]) := by
    simp [foldedText]
  refine ⟨hwritten, ?_, ?_⟩
  · rw [htext, tokens_token, tokens_append, htokens]
    simp [Expr.print, Expr.printAll, Kind.arrange]
  · have htight : Tight (prev.lhs.text ++ [.white ' ', .token (.assign none), .white ' '] ++
        prev.rhs.text) :=
      tight_around hlhs.tight (hlhs.spelled ▸ print_ne_nil hlhs.written) hrhs.tight
        (hrhs.spelled ▸ print_ne_nil hrhs.written) _
    rw [htext]
    exact apart_parenthesized (apart_spaced hlhs.apart _ hrhs.apart) htight htokens hwritten

/-- The new text of the later assignment. -/
def laterText (children : List Child) (prev later : Assigned) : List Element :=
  match children[later.index]? with
  | some child => withRhs child later.lhs.expr later.rhs.expr (foldedText prev)
  | none => []

/-- The later assignment reads as `b = (a = r)`, and `r` is its own right-hand side. -/
theorem laterText_reads {children : List Child} {prev later : Assigned}
    (hspelled : ∀ child ∈ children, child.Spelled) (h : (prev, later) ∈ foldCandidates children) :
    prev.rhs.expr = later.rhs.expr ∧
      Reads [] (laterText children prev later) []
        (assignTwice later.lhs.expr prev.lhs.expr prev.rhs.expr) := by
  obtain ⟨⟨⟨first, hfirst, hfirstParts⟩, -, -⟩, ⟨⟨second, hsecond, hsecondParts⟩, -, -⟩, -, hsame⟩ :=
    mem_foldCandidates h
  obtain ⟨⟨hlhs, hlevel⟩, ⟨hrhs, hrhsLevel⟩, -⟩ :=
    simpleAssignment_spelled (hspelled first (List.mem_of_getElem? hfirst)) hfirstParts
  have hchild := hspelled second (List.mem_of_getElem? hsecond)
  obtain ⟨⟨hlhs', hlevel'⟩, ⟨hrhs', -⟩, g, g', hg, hg', htext, hwith⟩ :=
    simpleAssignment_spelled hchild hsecondParts
  obtain ⟨-, -, -, hapart⟩ := hchild _ (simpleAssignment_stmt hsecondParts)
  obtain ⟨hwritten, htokens, hfolded⟩ := foldedText_spelled hlhs hlevel hrhs hrhsLevel
  refine ⟨?_, ?_⟩
  · refine print_inj hrhs.written hrhs'.written ?_
    rw [← hrhs.spelled, ← hrhs'.spelled, hsame]
  · have hnew : laterText children prev later =
        later.lhs.text ++ (g ++ .token (.assign none) :: (g' ++ foldedText prev)) := by
      rw [laterText, hsecond]
      exact hwith _
    rw [hnew]
    refine ⟨?_, ?_, ?_⟩
    · exact written_assignment.mpr ⟨rfl, ⟨hlevel', hlhs'.written⟩,
        (by decide : Level.assignment ≤ Level.primary), written_parenthesized.mpr hwritten⟩
    · rw [tokens_append, tokens_append, tokens_token, tokens_append, hg, hg', htokens, hlhs'.spelled]
      rfl
    · have hsplit : ∀ text, later.lhs.text ++ (g ++ .token (.assign none) :: (g' ++ text)) =
          (later.lhs.text ++ (g ++ .token (.assign none) :: g')) ++ text ++ [] := by simp
      rw [htext, hsplit] at hapart
      rw [hsplit, List.nil_append, List.append_nil]
      refine apart_replace hapart (by simp [foldedText]) hfolded ?_ (by simp)
      intro x _ y hy
      obtain rfl := Option.some.inj hy
      exact apart_before_lparen x

/-! ## What the block does -/

/-- Where `a` has been given `w`: `r` has no effect, what it has now is once more stored in
`a` as `w`, which is still there, and `b` takes `w` as it takes what `r` has. -/
structure Repeats (M : Machine) (a r b : Expr) (w : Val) (s : State) : Prop where
  still : Still M s .value r
  again : ∀ v, Steps M .value r s (.val v) s → ∃ p, Denotes M a s p s ∧ M.load s p = some w ∧
    (∃ t, M.store s p v = some (t, w)) ∧ ∀ q, Denotes M b s q s → M.store s q w = M.store s q v

theorem lhsFoldOk_quiet {lhs : Expr} (h : assignmentLhsFoldOk lhs = true) : lhs.Quiet := by
  rw [assignmentLhsFoldOk, Bool.and_eq_true, Bool.not_eq_true'] at h
  have hall := List.any_eq_false.mp h.2
  clear h
  induction lhs with
  | val v => exact .val v
  | ident x => exact .ident x
  | node k children ih =>
    have hk := hall _ (mem_iterSubtree_self _)
    refine .node ?_ ?_
    · cases k with
      | call | update | assignment => simp [nodeType, kindType] at hk
      | _ => rfl
    · intro c hc
      exact ih c hc fun n hn => hall n (mem_iterSubtree_child hc hn)

section
variable {M : Machine} {a r b : Expr} {w u : Val} {s s' : State}

/-- `a = r` does nothing and has the value that is there. -/
theorem Repeats.assign_still (h : Repeats M a r b w s) (ha : a.Quiet) {e' : Expr}
    (hsteps : Steps M .value (assign a r) s e' s') : s' = s ∧ ∀ w', e' = .val w' → w' = w := by
  obtain ⟨a', r', rfl, rfl, -⟩ | ⟨p, v, w', hp, hv, hstore, rfl⟩ :=
    steps_assignment_cases (ha.still s .place) h.still hsteps
  · exact ⟨rfl, by simp⟩
  · obtain ⟨q, hq, hload, ⟨t, ht⟩, -⟩ := h.again v hv
    have hview := ((denotes_iff ha).mp hp).2.symm.trans ((denotes_iff ha).mp hq).2
    obtain rfl := Sum.inr.inj (Option.some.inj hview)
    obtain ⟨rfl, rfl⟩ := Prod.mk.inj (Option.some.inj (hstore.symm.trans ht))
    refine ⟨store_same hstore hload, ?_⟩
    intro w hw
    exact (Expr.val.inj hw).symm

/-- `b = (a = r)` is `b = r` where `a = r` would be repeated. -/
theorem assign_again (h : Repeats M a r b w s) (ha : a.Quiet) (hb : b.Quiet) :
    Steps M .value (assignTwice b a r) s (.val u) s' ↔ Steps M .value (assign b r) s (.val u) s' := by
  have hstill : Still M s .value (assign a r) := fun _ _ hsteps => (h.assign_still ha hsteps).1
  rw [assignTwice, assign.eq_1 b, assign.eq_1 b,
    steps_assignment_iff (hb.still s .place) (still_parenthesized hstill),
    steps_assignment_iff (hb.still s .place) h.still]
  constructor
  · rintro ⟨q, w', hq, hw', hstore⟩
    rw [steps_parenthesized_iff] at hw'
    obtain rfl := (h.assign_still ha hw').2 w' rfl
    obtain ⟨-, v, -, hv, -⟩ := (steps_assignment_iff (ha.still s .place) h.still).mp hw'
    obtain ⟨-, -, -, -, hsame⟩ := h.again v hv
    exact ⟨q, v, hq, hv, by rw [← hsame q hq, hstore]⟩
  · rintro ⟨q, v, hq, hv, hstore⟩
    obtain ⟨p, hp, hload, ⟨t, ht⟩, hsame⟩ := h.again v hv
    obtain rfl := store_same ht hload
    have hassign := (steps_assignment_iff (ha.still t .place) h.still).mpr ⟨p, v, hp, hv, ht⟩
    exact ⟨q, w, hq, steps_parenthesized_iff.mpr hassign, by rw [hsame q hq, hstore]⟩

end

/-- The statements before the earlier assignment, and those up to the later one. -/
def beforeFirst (children : List Child) (prev : Assigned) : List Stmt :=
  (children.map Child.stmt).take prev.index

def between (children : List Child) (prev later : Assigned) : List Stmt :=
  ((children.map Child.stmt).take later.index).drop (prev.index + 1)

theorem split_at_index {α : Type} {l : List α} {i : Nat} {a : α} (h : l[i]? = some a) :
    l = l.take i ++ a :: l.drop (i + 1) := by
  obtain ⟨hi, rfl⟩ := List.getElem?_eq_some_iff.mp h
  rw [List.getElem_cons_drop, List.take_append_drop]

/-- The statements of a block around the two assignments. -/
theorem children_split {children : List Child} {prev later : Assigned} (hprev : prev.At children)
    (hlater : later.At children) (hlt : prev.index < later.index) :
    ∃ post, children.map Child.stmt =
        (beforeFirst children prev ++ .expression (assign prev.lhs.expr prev.rhs.expr) ::
          between children prev later) ++
        .expression (assign later.lhs.expr later.rhs.expr) :: post ∧
      folded children prev later =
        (beforeFirst children prev ++ .expression (assign prev.lhs.expr prev.rhs.expr) ::
          between children prev later) ++
        .expression (assignTwice later.lhs.expr prev.lhs.expr prev.rhs.expr) :: post := by
  obtain ⟨⟨first, hfirst, hfirstParts⟩, -, -⟩ := hprev
  obtain ⟨⟨second, hsecond, hsecondParts⟩, -, -⟩ := hlater
  have hget : ∀ (i : Nat) (child : Child), children[i]? = some child →
      (children.map Child.stmt)[i]? = some child.stmt := by
    intro i child h
    rw [List.getElem?_map, h, Option.map_some]
  have hfirst' := hget _ _ hfirst
  have hsecond' := hget _ _ hsecond
  rw [simpleAssignment_stmt hfirstParts] at hfirst'
  rw [simpleAssignment_stmt hsecondParts] at hsecond'
  rw [folded, beforeFirst, between]
  generalize children.map Child.stmt = items at hfirst' hsecond'
  obtain ⟨hj, -⟩ := List.getElem?_eq_some_iff.mp hsecond'
  have htake : (items.take later.index)[prev.index]? = items[prev.index]? :=
    List.getElem?_take_of_lt hlt
  have hsplit := split_at_index (htake.trans hfirst')
  rw [List.take_take, Nat.min_eq_left hlt.le] at hsplit
  refine ⟨items.drop (later.index + 1), ?_, ?_⟩
  · rw [← hsplit]
    exact split_at_index hsecond'
  · rw [List.set_eq_take_append_cons_drop, if_pos hj, ← hsplit]

/-- **Folding.** The later assignment reads as `b = (a = r)`. The block does what it did,
if `a = r` would be repeated in every state in which that assignment is reached. -/
theorem fold_does {M : Machine} {children : List Child} {prev later : Assigned} {s : State}
    (hspelled : ∀ child ∈ children, child.Spelled) (h : (prev, later) ∈ foldCandidates children)
    (hrepeats : ∀ s₁ w s₂ s₃, Does M (beforeFirst children prev) s.openScope none s₁ →
      Steps M .value (assign prev.lhs.expr prev.rhs.expr) s₁ (.val w) s₂ →
      Does M (between children prev later) s₂ none s₃ →
      Repeats M prev.lhs.expr prev.rhs.expr later.lhs.expr w s₃) :
    Reads [] (laterText children prev later) []
        (assignTwice later.lhs.expr prev.lhs.expr prev.rhs.expr) ∧
      ∀ o s', Does M [.compound (folded children prev later)] s o s' ↔
        Does M [.compound (children.map Child.stmt)] s o s' := by
  obtain ⟨hprev, hlater, hlt, -⟩ := mem_foldCandidates h
  obtain ⟨hrhs, hreads⟩ := laterText_reads hspelled h
  obtain ⟨post, hitems, hfolded⟩ := children_split hprev hlater hlt
  refine ⟨hreads, ?_⟩
  intro o s'
  rw [hitems, hfolded]
  refine does_compound_congr fun s₃ hs₃ o s₄ => ?_
  obtain ⟨s₁, hbefore, hs₃⟩ | ⟨j, hj, -⟩ := does_append_iff.mp hs₃
  · obtain ⟨s₂, hassign, hbetween⟩ | ⟨j, hj, -⟩ := does_cons_iff.mp hs₃
    · obtain ⟨-, w, hw⟩ := does_expression_iff.mp hassign
      have hrep := hrepeats s₁ w s₂ s₃ hbefore hw hbetween
      rw [does_expression_iff, does_expression_iff, ← hrhs]
      refine and_congr_right fun _ => exists_congr fun u => ?_
      exact assign_again hrep (lhsFoldOk_quiet hprev.lhsOk) (lhsFoldOk_quiet hlater.lhsOk)
    · cases hj
  · cases hj

/-! ## Two blocks -/

/-- `x = n;` -/
def setLiteral (x : Char) (n : Nat) : Child where
  stmt := .expression (assign (.ident [x]) (.val (.int n)))
  text := [.token (.name [x]), .white ' ', .token (.assign none), .white ' ', .token (.literal (.int n))]

def assigned (i : Nat) (x : Char) (n : Nat) : Assigned where
  index := i
  lhs := ⟨.ident [x], [.token (.name [x])]⟩
  rhs := ⟨.val (.int n), [.token (.literal (.int n))]⟩

/-- `a` and `b` hold 1. -/
def twoLocals : State where
  locals := [[(['a'], .reg (scalar "int" (.int 1))), (['b'], .reg (scalar "int" (.int 1)))]]
  mem _ := none

def held (s : State) (x : Char) : Option Val := (plainMachine noGlobals).load s (.reg [x] 0)

theorem setLiteral_spelled (x : Char) (n : Nat) : (setLiteral x n).Spelled := by
  intro e he
  obtain rfl := Stmt.expression.inj he
  refine ⟨rfl, rfl, ⟨?_, ?_⟩, ?_⟩
  · intro y hy
    obtain rfl := Option.some.inj hy
    rfl
  · intro y hy
    obtain rfl := Option.some.inj hy
    rfl
  · exact .cons_cons rfl (.cons_cons rfl (.cons_cons rfl (.cons_cons rfl (.singleton _))))

/-- `a = 0; b = 0;`: `a` holds 0 where `b` is assigned. -/
theorem fold_zeros :
    Reads [] (laterText [setLiteral 'a' 0, setLiteral 'b' 0] (assigned 0 'a' 0) (assigned 1 'b' 0)) []
        (assignTwice (.ident ['b']) (.ident ['a']) (.val (.int 0))) ∧
      ∀ o s', Does (plainMachine noGlobals) [.compound (folded [setLiteral 'a' 0, setLiteral 'b' 0]
          (assigned 0 'a' 0) (assigned 1 'b' 0))] twoLocals o s' ↔
        Does (plainMachine noGlobals)
          [.compound ([setLiteral 'a' 0, setLiteral 'b' 0].map Child.stmt)] twoLocals o s' := by
  refine fold_does ?_ ?_ ?_
  · intro child hchild
    simp only [List.mem_cons, List.not_mem_nil, or_false] at hchild
    rcases hchild with rfl | rfl
    · exact setLiteral_spelled _ _
    · exact setLiteral_spelled _ _
  · have hall : foldCandidates [setLiteral 'a' 0, setLiteral 'b' 0] =
        [(assigned 0 'a' 0, assigned 1 'b' 0)] := rfl
    rw [hall]
    exact List.mem_singleton_self _
  · intro s₁ w s₂ s₃ h₁ hassign h₃
    obtain ⟨-, rfl⟩ := ends_nil_iff.mp h₁
    obtain ⟨-, rfl⟩ := ends_nil_iff.mp h₃
    obtain ⟨p, v, hp, hv, hstore⟩ :=
      (steps_assignment_iff ((Expr.Quiet.ident _).still _ _) ((Expr.Quiet.val _).still _ _)).mp hassign
    obtain ⟨-, hp⟩ := (denotes_iff (.ident _)).mp hp
    obtain ⟨-, hv⟩ := (steps_value_iff (.val _)).mp hv
    cases hp
    cases hv
    cases hstore
    refine ⟨(Expr.Quiet.val _).still _ _, ?_⟩
    intro v hv
    obtain ⟨-, hv⟩ := (steps_value_iff (.val _)).mp hv
    cases hv
    refine ⟨.reg ['a'] 0, (denotes_iff (.ident _)).mpr ⟨rfl, rfl⟩, rfl, ⟨_, rfl⟩, ?_⟩
    intro q _
    rfl

/-- `a = 0; a = 5; b = 0;`: folded, the block ends with 0 in `a`. -/
theorem fold_overwrites :
    (assigned 0 'a' 0, assigned 2 'b' 0) ∈
        foldCandidates [setLiteral 'a' 0, setLiteral 'a' 5, setLiteral 'b' 0] ∧
      ∃ o s', Does (plainMachine noGlobals)
          [.compound ([setLiteral 'a' 0, setLiteral 'a' 5, setLiteral 'b' 0].map Child.stmt)]
          twoLocals o s' ∧ held s' 'a' = some (.int 5) ∧
        ¬Does (plainMachine noGlobals)
          [.compound (folded [setLiteral 'a' 0, setLiteral 'a' 5, setLiteral 'b' 0]
            (assigned 0 'a' 0) (assigned 2 'b' 0))] twoLocals o s' := by
  refine ⟨?_, ?_⟩
  · have hall : foldCandidates [setLiteral 'a' 0, setLiteral 'a' 5, setLiteral 'b' 0] =
        [(assigned 0 'a' 0, assigned 2 'b' 0)] := rfl
    rw [hall]
    exact List.mem_singleton_self _
  · obtain ⟨o, s', hruns, hheld⟩ := @sometimes_spec (plainMachine noGlobals)
      (fun _ s => held s 'a' = some (.int 5)) 60 ([.stmt (.compound ([setLiteral 'a' 0,
        setLiteral 'a' 5, setLiteral 'b' 0].map Child.stmt))], twoLocals) (by decide +kernel)
    have halways : (plainMachine noGlobals).always (fun _ s => held s 'a' = some (.int 0)) 60
        ([.stmt (.compound (folded [setLiteral 'a' 0, setLiteral 'a' 5, setLiteral 'b' 0]
          (assigned 0 'a' 0) (assigned 2 'b' 0)))], twoLocals) = true := by decide +kernel
    refine ⟨o, s', hruns, of_decide_eq_true hheld, ?_⟩
    intro hfolded
    have hzero := of_decide_eq_true (always_spec (fun _ _ _ _ _ h => h) halways hfolded)
    rw [of_decide_eq_true hheld] at hzero
    cases hzero

end MeleeHarness.SrcMutate
