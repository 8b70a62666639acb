import MeleeHarness.Lib.C.Layout
import MeleeHarness.Lib.C.Integers

/-!
# Passes that rewrite an operator in place

Each pass puts texts of operands together again without looking at what they are, so
the new text has to be read with the operators around it.

* `addSub_value`: `a - b` may always become `a + -(b)`;
* `commutative_value`, `compoundAssignment_stores`: operands may change sides, and an
  assignment may be written out, where no operator is regrouped that does not associate.
-/

namespace MeleeHarness.SrcMutate

open Lib Lib.C

/-! ## Subtraction as addition -/

def pAddSub (site : Site) : Option (List Element) :=
  match site.expr with
  | .node (.binary (.arith .sub)) [a, b] =>
    match parts [a.print.length, 1, b.print.length] site.text with
    | [l, op, r] => some (joinParts [l, ⟨op.gap, [.token (.binary (.arith .add))]⟩,
        ⟨r.gap, [.token (.binary (.arith .sub)), .token .lparen] ++ r.text ++ [.token .rparen]⟩])
    | _ => none
  | _ => none

theorem fuses_add {t : Token} (h : t.ends = true) : t.fuses (.binary (.arith .add)) = false := by
  cases t with
  | update op => cases op <;> rfl
  | literal | name | sizeofType | rparen | rbracket => rfl
  | keyword | type | sizeof | lparen | lbracket | lbrace | rbrace | semicolon | dot | arrow | comma
  | question | colon | binary | assign | tilde | bang => cases h

theorem fuses_rparen {t : Token} (h : t.ends = true) : t.fuses .rparen = false := by
  cases t with
  | update op => cases op <;> rfl
  | literal | name | sizeofType | rparen | rbracket => rfl
  | keyword | type | sizeof | lparen | lbracket | lbrace | rbrace | semicolon | dot | arrow | comma
  | question | colon | binary | assign | tilde | bang => cases h

/-- A text in parentheses is apart. -/
theorem apart_parenthesized {r : List Element} {e : Expr} (h : Apart r) (hr : Tight r)
    (hspelled : tokens r = e.print) (hwritten : e.written = true) :
    Apart (.token .lparen :: (r ++ [.token .rparen])) := by
  obtain ⟨ts, v, hprint, hv⟩ := print_ends hwritten
  obtain ⟨r', rfl, -⟩ := hr.last_eq (hspelled.trans hprint)
  rw [apart_cons, apart_append]
  refine ⟨fun y _ => apart_lparen y, h, List.isChain_singleton _, ?_⟩
  intro x hx y hy
  rw [List.getLast?_concat] at hx
  obtain rfl := Option.some.inj hx
  obtain rfl := Option.some.inj hy
  simp [Element.apart, fuses_rparen hv]

/-- `+ -(b)`, with the blanks the operator had, is apart. -/
theorem apart_negated {g r : List Element} {b : Expr} (hg : Apart g)
    (hblank : ∀ x ∈ g, x.token?.isNone) (h : Apart r) (hr : Tight r)
    (hspelled : tokens r = b.print) (hwritten : b.written = true) :
    Apart (.token (.binary (.arith .add)) ::
      (g ++ .token (.binary (.arith .sub)) :: .token .lparen :: (r ++ [.token .rparen]))) := by
  rw [apart_cons, apart_append, apart_cons]
  refine ⟨?_, hg, ⟨?_, apart_parenthesized h hr hspelled hwritten⟩, ?_⟩
  · intro y hy
    cases g with
    | nil =>
      obtain rfl := Option.some.inj hy
      rfl
    | cons x g =>
      obtain rfl := Option.some.inj hy
      cases x with
      | token t => exact nomatch hblank _ List.mem_cons_self
      | white | comment => rfl
  · intro y hy
    obtain rfl := Option.some.inj hy
    rfl
  · intro x hx y _
    exact apart_of_blank (Option.isNone_iff_eq_none.mp (hblank x (List.mem_of_getLast? hx))) y

/-- `a + -(b)` -/
def negatedSum (a b : Expr) : Expr :=
  .node (.binary (.arith .add)) [a, .node (.unary .minus) [.node .parenthesized [b]]]

theorem eval_addSub {w : Nat} {V : Type} (env : Env w V) (a b : Expr) :
    env.eval (negatedSum a b) = env.eval (.node (.binary (.arith .sub)) [a, b]) := by
  rw [negatedSum, Env.eval_binary, Env.eval_binary, Env.arith, Env.arith]
  have hminus : env.toInt (env.eval (.node (.unary .minus) [.node .parenthesized [b]])) =
      (env.toInt (env.eval b)).map (- ·) := Env.toInt_ofInt _
  rw [hminus]
  cases env.toInt (env.eval a) with
  | none => rfl
  | some m =>
    cases env.toInt (env.eval b) with
    | none => rfl
    | some n => simp [arithOn, BitVec.sub_eq_add_neg]

/-- **Subtraction.** The new text always reads as the expression with `a + -(b)` in the
place of `a - b`, whatever stands around it, and the value is the same, of the difference and
of the whole expression. -/
theorem addSub_value (site : Site) {a b : Expr}
    (h : site.expr = .node (.binary (.arith .sub)) [a, b]) :
    ∃ new, pAddSub site = some new ∧ site.ReadsAs new (plug site.parents (negatedSum a b)) ∧
      ∀ (w : Nat) (V : Type) (env : Env w V), env.eval (negatedSum a b) = env.eval site.expr ∧
        env.eval (plug site.parents (negatedSum a b)) = env.eval site.whole := by
  obtain ⟨l, g, g', r, hparts, htext, ⟨hl, hlt⟩, ⟨hr, hrt⟩, hg, hg'⟩ :=
    Site.joined (t := .binary (.arith .sub)) h rfl
  have hwritten := h ▸ site.expr_written.2
  rw [written_binary] at hwritten
  obtain ⟨⟨halevel, ha⟩, hblevel, hb⟩ := hwritten
  have hapart := site.apart_text
  rw [htext] at hapart
  have hrapart : Apart r := by
    rw [apart_append, apart_append, apart_cons, apart_append] at hapart
    exact hapart.2.1.2.1.2.2.1
  have hgapart : Apart g' := by
    rw [apart_append, apart_append, apart_cons, apart_append] at hapart
    exact hapart.2.1.2.1.2.1
  have hnew : pAddSub site = some (l ++ (g ++ .token (.binary (.arith .add)) :: (g' ++
      .token (.binary (.arith .sub)) :: .token .lparen :: (r ++ [.token .rparen])))) := by
    rw [pAddSub, h]
    simp [hparts, joinParts]
  refine ⟨_, hnew, site.readsAs_plug ?_ ?_ ?_ (site.apart_edited
      (apart_operator hapart hlt hl ha hg (fun v => fuses_add)
        (apart_negated hgapart hg' hrapart hrt hr hb)) ?_ ?_), ?_⟩
  · simp [negatedSum, Expr.print, Expr.printAll, Kind.arrange, UnaryOp.token, hl, hr, tokens_blank hg,
      tokens_blank hg']
  · rw [h]
    exact le_rfl
  · rw [negatedSum, written_binary, written_one]
    exact ⟨⟨halevel, ha⟩, (by decide : (12 : Nat) < 15), rfl, (by decide : Level.cast ≤ Level.primary),
      written_parenthesized.mpr hb⟩
  · have hne : tokens l ≠ [] := hl ▸ print_ne_nil ha
    rw [htext, head_append hne, head_append hne]
  · intro x hx
    have hclose : l ++ (g ++ .token (.binary (.arith .add)) :: (g' ++
        .token (.binary (.arith .sub)) :: .token .lparen :: (r ++ [.token .rparen]))) =
        (l ++ (g ++ .token (.binary (.arith .add)) :: (g' ++
          .token (.binary (.arith .sub)) :: .token .lparen :: r))) ++ [.token .rparen] := by simp
    rw [hclose, List.getLast?_concat] at hx
    obtain rfl := Option.some.inj hx
    exact .inr apart_rparen
  · intro w V env
    rw [Site.whole, h]
    exact ⟨eval_addSub env a b, Env.eval_plug (eval_addSub env a b)⟩

/-- The inner difference of `x - y - z`. -/
def differenceSite : Site where
  head := []
  before := []
  text := spaced [.name ['x'], .binary (.arith .sub), .name ['y']]
  after := .white ' ' :: spaced [.binary (.arith .sub), .name ['z']]
  tail := []
  parents := [⟨.binary (.arith .sub), [], [.ident ['z']]⟩]
  expr := .node (.binary (.arith .sub)) [.ident ['x'], .ident ['y']]
  written := by decide
  surrounds := fun _ => rfl
  spelled := rfl
  tight := by constructor <;> decide
  apart := by decide

theorem difference_added : ∃ new, pAddSub differenceSite = some new ∧
    differenceSite.ReadsAs new
      (plug differenceSite.parents (negatedSum (.ident ['x']) (.ident ['y']))) ∧
    ∀ (w : Nat) (V : Type) (env : Env w V),
      env.eval (negatedSum (.ident ['x']) (.ident ['y'])) = env.eval differenceSite.expr ∧
      env.eval (plug differenceSite.parents (negatedSum (.ident ['x']) (.ident ['y']))) =
        env.eval differenceSite.whole :=
  addSub_value differenceSite rfl

/-! ## Operands that change sides -/

def commOps : List ArithOp := [.add, .mul, .bitAnd, .bitOr, .bitXor, .eq, .ne]

def relFlip : ArithOp → Option ArithOp
  | .lt => some .gt
  | .gt => some .lt
  | .le => some .ge
  | .ge => some .le
  | _ => none

/-- The operator once the operands have changed sides. -/
def flipped (op : ArithOp) : ArithOp := (relFlip op).getD op

def pCommutative (site : Site) : Option (List Element) :=
  match site.expr with
  | .node (.binary (.arith op)) [a, b] =>
    if op ∈ commOps ∨ (relFlip op).isSome then
      match parts [a.print.length, 1, b.print.length] site.text with
      | [l, o, r] => some (joinParts [⟨l.gap, r.text⟩,
          ⟨o.gap, [.token (.binary (.arith (flipped op)))]⟩, ⟨r.gap, l.text⟩])
      | _ => none
    else none
  | _ => none

/-- The operands of a site may change sides: what comes to stand side by side is apart,
and the operators of the left operand may be regrouped with the one they end up behind. -/
structure Swappable (site : Site) (op : ArithOp) (a b : Expr) : Prop where
  regroups : regroups (flipped op) a = true
  apart : ∀ l o r, parts [a.print.length, 1, b.print.length] site.text = [l, o, r] →
    Apart (site.head ++ site.before ++ r.text) ∧
    Apart (r.text ++ (o.gap ++ .token (.binary (.arith (flipped op))) :: (r.gap ++ l.text))) ∧
    Apart (l.text ++ (site.after ++ site.tail))

theorem flipped_level (op : ArithOp) :
    (BinaryOp.arith (flipped op)).level = (BinaryOp.arith op).level := by
  cases op <;> rfl

theorem arithOn_flipped {w : Nat} {op : ArithOp} (h : op ∈ commOps ∨ (relFlip op).isSome = true)
    (signed : Bool) (a b : BitVec w) :
    arithOn signed b a (flipped op) = arithOn signed a b op := by
  cases op with
  | add => exact congrArg some (BitVec.add_comm b a)
  | mul => exact congrArg some (BitVec.mul_comm b a)
  | bitAnd => exact congrArg some (BitVec.and_comm b a)
  | bitOr => exact congrArg some (BitVec.or_comm b a)
  | bitXor => exact congrArg some (BitVec.xor_comm b a)
  | eq =>
    change some (bitOf (decide (b = a))) = some (bitOf (decide (a = b)))
    rw [decide_eq_decide.mpr eq_comm]
  | ne =>
    change some (bitOf (decide (b ≠ a))) = some (bitOf (decide (a ≠ b)))
    rw [decide_eq_decide.mpr ne_comm]
  | lt | gt | le | ge => rfl
  | sub | div | mod | shl | shr => exact absurd h (by decide)

/-- **Swapped operands.** Where the operands may change sides, the new text reads as the
expression with the operands swapped, the operators of the left one behind the right one, and
the value is the same, of the node and of the whole expression. -/
theorem commutative_value (site : Site) {op : ArithOp} {a b : Expr}
    (h : site.expr = .node (.binary (.arith op)) [a, b])
    (hop : op ∈ commOps ∨ (relFlip op).isSome = true) (hswap : Swappable site op a b) :
    ∃ new, pCommutative site = some new ∧
      site.ReadsAs new (plug site.parents (graft b (.arith (flipped op)) a)) ∧
      ∀ (w : Nat) (V : Type) (env : Env w V),
        env.eval (graft b (.arith (flipped op)) a) = env.eval site.expr ∧
        env.eval (plug site.parents (graft b (.arith (flipped op)) a)) = env.eval site.whole := by
  obtain ⟨l, g, g', r, hparts, htext, ⟨hl, -⟩, ⟨hr, -⟩, hg, hg'⟩ :=
    Site.joined (t := .binary (.arith op)) h rfl
  have hwritten := h ▸ site.expr_written.2
  rw [written_binary] at hwritten
  obtain ⟨⟨halevel, ha⟩, hblevel, hb⟩ := hwritten
  have hnew : pCommutative site = some
      (r ++ (g ++ .token (.binary (.arith (flipped op))) :: (g' ++ l))) := by
    rw [pCommutative, h]
    simp [hparts, joinParts, hop]
  obtain ⟨hbefore, hmiddle, hafter⟩ := hswap.apart _ _ _ hparts
  have hlevel := flipped_level op
  refine ⟨_, hnew, site.readsAs_plug ?_ ?_ ?_ ?_, ?_⟩
  · rw [graft_print]
    simp [hl, hr, tokens_blank hg, tokens_blank hg']
  · rw [h, graft_level, hlevel]
    exact le_rfl
  · exact graft_written hb (hlevel ▸ hblevel.le) ha (hlevel ▸ halevel)
  · have hrne : r ≠ [] := by
      rintro rfl
      exact print_ne_nil hb hr.symm
    have hlne : l ≠ [] := by
      rintro rfl
      exact print_ne_nil ha hl.symm
    have hstart := List.IsChain.append_overlap hbefore hmiddle hrne
    have hend : Apart ((site.head ++ site.before ++ r ++
        (g ++ .token (.binary (.arith (flipped op))) :: g')) ++ l) := by
      simpa [C.Apart] using hstart
    have hwhole := List.IsChain.append_overlap hend hafter hlne
    rw [C.Apart, Site.edited]
    simpa using hwhole
  · intro w V env
    have hnode : env.eval (graft b (.arith (flipped op)) a) = env.eval site.expr := by
      rw [h, Env.eval_graft hswap.regroups, Env.eval_binary]
      exact Env.arith_swap (arithOn_flipped hop env.signed) _ _
    exact ⟨hnode, Env.eval_plug hnode⟩

/-- The sum in `x - y + z < w`. -/
def swapSite : Site where
  head := []
  before := []
  text := spaced [.name ['x'], .binary (.arith .sub), .name ['y'], .binary (.arith .add),
    .name ['z']]
  after := .white ' ' :: spaced [.binary (.arith .lt), .name ['w']]
  tail := []
  parents := [⟨.binary (.arith .lt), [], [.ident ['w']]⟩]
  expr := .node (.binary (.arith .add))
    [.node (.binary (.arith .sub)) [.ident ['x'], .ident ['y']], .ident ['z']]
  written := by decide
  surrounds := fun _ => rfl
  spelled := rfl
  tight := by constructor <;> decide
  apart := by decide

/-- `z + x - y` -/
def swappedSum : Expr :=
  .node (.binary (.arith .sub)) [.node (.binary (.arith .add)) [.ident ['z'], .ident ['x']], .ident ['y']]

theorem sum_swap_reads : ∃ new, pCommutative swapSite = some new ∧
    swapSite.ReadsAs new (plug swapSite.parents swappedSum) ∧
    ∀ (w : Nat) (V : Type) (env : Env w V), env.eval swappedSum = env.eval swapSite.expr ∧
      env.eval (plug swapSite.parents swappedSum) = env.eval swapSite.whole := by
  refine commutative_value swapSite rfl (by decide) ⟨by decide, ?_⟩
  intro l o r h
  obtain ⟨rfl, rfl, rfl⟩ : l = _ ∧ o = _ ∧ r = _ := by
    have h' := List.cons.inj h
    exact ⟨h'.1.symm, (List.cons.inj h'.2).1.symm, (List.cons.inj (List.cons.inj h'.2).2).1.symm⟩
  decide

/-- The product in `x / y * z`. -/
def quotientSite : Site where
  head := []
  before := []
  text := spaced [.name ['x'], .binary (.arith .div), .name ['y'], .binary (.arith .mul),
    .name ['z']]
  after := []
  tail := []
  parents := []
  expr := .node (.binary (.arith .mul))
    [.node (.binary (.arith .div)) [.ident ['x'], .ident ['y']], .ident ['z']]
  written := by decide
  surrounds := fun e => by simp [plug]
  spelled := rfl
  tight := by constructor <;> decide
  apart := by decide

/-- Integers of `w` bits and nothing else; names have the values given. -/
def plainEnv (w : Nat) (name : Name → BitVec w) : Env w (Option (BitVec w)) where
  signed := true
  int := some
  toInt := id
  toInt_int _ := rfl
  undefined := none
  toInt_undefined := rfl
  name x := some (name x)
  other _ _ := none

theorem quotient_regrouped : ∃ site new, pCommutative site = some new ∧
    ¬∃ e, site.ReadsAs new e ∧
      ∀ (w : Nat) (V : Type) (env : Env w V), env.eval e = env.eval site.whole := by
  refine ⟨quotientSite, spaced [.name ['z'], .binary (.arith .mul), .name ['x'],
    .binary (.arith .div), .name ['y']], rfl, ?_⟩
  rintro ⟨e, hreads, hvalue⟩
  have hproduct : quotientSite.ReadsAs (spaced [.name ['z'], .binary (.arith .mul), .name ['x'],
      .binary (.arith .div), .name ['y']]) (.node (.binary (.arith .div))
        [.node (.binary (.arith .mul)) [.ident ['z'], .ident ['x']], .ident ['y']]) :=
    ⟨by decide, rfl, by decide⟩
  rw [hreads.unique hproduct] at hvalue
  have hdiffer := hvalue 32 _ (plainEnv 32 fun x => if x = ['x'] then 1 else 2)
  exact absurd hdiffer (by decide)

/-! ## Compound assignments -/

def augOps : List ArithOp :=
  [.add, .sub, .mul, .div, .mod, .bitAnd, .bitOr, .bitXor, .shl, .shr]

def pCompoundAssignment (site : Site) : Option (List Element) :=
  match site.expr with
  | .node (.assignment none) [a, .node (.binary (.arith op)) [b, c]] =>
    match parts [a.print.length, 1, b.print.length, 1, c.print.length] site.text with
    | [l, _, rl, _, rr] =>
      if op ∈ augOps ∧ rl.text = l.text then
        some (l.text ++ [.white ' ', .token (.assign (some op)), .white ' '] ++ rr.text)
      else none
    | _ => none
  | .node (.assignment (some op)) [a, b] =>
    match parts [a.print.length, 1, b.print.length] site.text with
    | [l, _, r] =>
      if op ∈ augOps then
        some (l.text ++ [.white ' ', .token (.assign none), .white ' '] ++ l.text ++
          [.white ' ', .token (.binary (.arith op)), .white ' '] ++ r.text)
      else none
    | _ => none
  | _ => none

/-- The place that an assignment stores to, and the value that it stores. -/
def stored {w : Nat} {V : Type} (env : Env w V) : Expr → Option (Expr × V)
  | .node (.assignment none) [a, b] => some (a, env.eval b)
  | .node (.assignment (some op)) [a, b] => some (a, env.arith op (env.eval a) (env.eval b))
  | _ => none

theorem compounds_of_mem {op : ArithOp} (h : op ∈ augOps) : op.compounds = true := by
  cases op <;> first | rfl | exact absurd h (by decide)

/-- An assignment is written if its operands are. -/
theorem written_assignment {op : Option ArithOp} {a b : Expr} :
    (Expr.node (.assignment op) [a, b]).written = true ↔ op.all ArithOp.compounds = true ∧
      (Level.unary ≤ a.level ∧ a.written = true) ∧ Level.assignment ≤ b.level ∧
      b.written = true := by
  rw [written_two]
  rfl

/-- `x op= e` written out. -/
theorem expand_stores (site : Site) {op : ArithOp} {a b : Expr} {new : List Element}
    (hexpr : site.expr = .node (.assignment (some op)) [a, b])
    (h : pCompoundAssignment site = some new) (hlevel : (BinaryOp.arith op).level ≤ b.level)
    (hregroups : regroups op b = true) :
    ∃ e, site.ReadsAs new (plug site.parents e) ∧
      ∀ (w : Nat) (V : Type) (env : Env w V), stored env e = stored env site.expr := by
  obtain ⟨l, g, g', r, hparts, htext, ⟨hl, -⟩, ⟨hr, -⟩, -, -⟩ :=
    Site.joined (t := .assign (some op)) hexpr rfl
  have hwritten := hexpr ▸ site.expr_written.2
  rw [written_assignment] at hwritten
  obtain ⟨-, ⟨halevel, ha⟩, -, hb⟩ := hwritten
  obtain ⟨-, rfl⟩ : op ∈ augOps ∧ l ++ [.white ' ', .token (.assign none), .white ' '] ++ l ++
      [.white ' ', .token (.binary (.arith op)), .white ' '] ++ r = new := by
    simpa [pCompoundAssignment, hexpr, hparts] using h
  have hop := binary_level_bounds (.arith op)
  have hunary : Level.cast ≤ Level.unary := by decide
  have hlow : Level.assignment ≤ Level.conditional := by decide
  have hapart := site.apart_text
  rw [htext, apart_append, apart_append, apart_cons, apart_append] at hapart
  have hlapart := hapart.1
  have hrapart := hapart.2.1.2.1.2.2.1
  refine ⟨.node (.assignment none) [a, graft a (.arith op) b],
    site.readsAs_plug ?_ ?_ ?_ (site.apart_edited ?_ ?_ ?_), ?_⟩
  · simp [Expr.print, Expr.printAll, Kind.arrange, graft_print, hl, hr]
  · rw [hexpr]
    exact le_rfl
  · rw [written_assignment, graft_level]
    exact ⟨rfl, ⟨halevel, ha⟩, by omega, graft_written ha (by omega) hb hlevel⟩
  · exact apart_spaced (apart_spaced hlapart _ hlapart) _ hrapart
  · rw [htext]
    simp only [List.append_assoc]
    rw [head_append (hl ▸ print_ne_nil ha), head_append (hl ▸ print_ne_nil ha)]
  · intro x hx
    rw [last_append (hr ▸ print_ne_nil hb)] at hx
    refine .inl ?_
    have hsplit : l ++ (g ++ .token (.assign (some op)) :: (g' ++ r)) =
        (l ++ (g ++ .token (.assign (some op)) :: g')) ++ r := by simp
    rw [htext, hsplit, last_append (hr ▸ print_ne_nil hb)]
    exact hx
  · intro w V env
    rw [hexpr, stored, stored, Env.eval_graft hregroups]

/-- `x = x op e` made short. -/
theorem contract_stores (site : Site) {op : ArithOp} {a b c : Expr} {new : List Element}
    (hexpr : site.expr = .node (.assignment none) [a, .node (.binary (.arith op)) [b, c]])
    (h : pCompoundAssignment site = some new) :
    ∃ e, site.ReadsAs new (plug site.parents e) ∧
      ∀ (w : Nat) (V : Type) (env : Env w V), stored env e = stored env site.expr := by
  have hwritten := hexpr ▸ site.expr_written.2
  rw [written_assignment, written_binary] at hwritten
  obtain ⟨-, ⟨halevel, ha⟩, -, ⟨hblevel, hb⟩, hclevel, hc⟩ := hwritten
  have hflat : tokens site.text =
      [a.print, [.assign none], b.print, [.binary (.arith op)], c.print].flatten := by
    rw [site.spelled, hexpr]
    simp [Expr.print, Expr.printAll, Kind.arrange]
  obtain ⟨hjoin, hparts⟩ := parts_spec site.tight.last hflat
  rw [pCompoundAssignment, hexpr] at h
  simp only [List.map_cons, List.map_nil, List.length_singleton] at hjoin hparts h
  generalize parts [a.print.length, 1, b.print.length, 1, c.print.length] site.text = ps
    at hjoin hparts h
  obtain _ | ⟨⟨hl, -, hgap⟩, _ | ⟨⟨-, -, -⟩, _ | ⟨⟨hrl, -, -⟩, _ | ⟨⟨-, -, -⟩, _ | ⟨⟨hrr, -, -⟩, _ | _⟩⟩⟩⟩⟩ :=
    hparts
  rename_i l eq rl o rr
  simp only [Option.ite_none_right_eq_some, Option.some.injEq] at h
  obtain ⟨⟨hop, hsame⟩, rfl⟩ := h
  obtain rfl : a = b := print_inj ha hb (by rw [← hl, ← hrl, hsame])
  have hgap : l.gap = [] := by
    cases hcons : l.gap with
    | nil => rfl
    | cons x g =>
      have hx := site.tight.head x (by rw [← hjoin]; simp [joinParts, hcons])
      exact absurd (hgap x (by simp [hcons])) (by simp [hx])
  have htext : site.text = l.text ++ ((eq.gap ++ eq.text ++ rl.gap ++ rl.text ++ o.gap ++ o.text ++
      rr.gap) ++ rr.text) := by
    rw [← hjoin]
    simp [joinParts, hgap]
  have hapart := site.apart_text
  rw [htext, apart_append, apart_append] at hapart
  have hop' := binary_level_bounds (.arith op)
  have hlow : Level.assignment ≤ Level.conditional := by decide
  refine ⟨.node (.assignment (some op)) [a, c],
    site.readsAs_plug ?_ ?_ ?_ (site.apart_edited ?_ ?_ ?_), ?_⟩
  · simp [Expr.print, Expr.printAll, Kind.arrange, hl, hrr]
  · rw [hexpr]
    exact le_rfl
  · rw [written_assignment]
    exact ⟨compounds_of_mem hop, ⟨halevel, ha⟩, by omega, hc⟩
  · exact apart_spaced hapart.1 _ hapart.2.1.2.1
  · rw [htext, List.append_assoc, head_append (hl ▸ print_ne_nil ha),
      head_append (hl ▸ print_ne_nil ha)]
  · intro x hx
    rw [last_append (hrr ▸ print_ne_nil hc)] at hx
    rw [htext, ← List.append_assoc, last_append (hrr ▸ print_ne_nil hc)]
    exact .inl hx
  · intro w V env
    rw [hexpr]
    rfl

/-- **Compound assignments.** Made short, an assignment always stores what it stored
before. It may be written out if its right side binds at least as tightly as the
operator and its own operators of that level may be regrouped. -/
theorem compoundAssignment_stores (site : Site) {new : List Element}
    (h : pCompoundAssignment site = some new)
    (hexpand : ∀ op a b, site.expr = .node (.assignment (some op)) [a, b] →
      (BinaryOp.arith op).level ≤ b.level ∧ regroups op b = true) :
    ∃ e, site.ReadsAs new (plug site.parents e) ∧
      ∀ (w : Nat) (V : Type) (env : Env w V), stored env e = stored env site.expr := by
  have hsome := h
  unfold pCompoundAssignment at hsome
  split at hsome
  · rename_i a op b c hexpr
    exact contract_stores site hexpr h
  · rename_i op a b hexpr
    obtain ⟨hlevel, hregroups⟩ := hexpand op a b hexpr
    exact expand_stores site hexpr h hlevel hregroups
  · cases hsome

/-- `x *= a * b`, in `(x *= a * b)`. -/
def scaleSite : Site where
  head := []
  before := [.token .lparen]
  text := spaced [.name ['x'], .assign (some .mul), .name ['a'], .binary (.arith .mul), .name ['b']]
  after := [.token .rparen]
  tail := []
  parents := [⟨.parenthesized, [], []⟩]
  expr := .node (.assignment (some .mul))
    [.ident ['x'], .node (.binary (.arith .mul)) [.ident ['a'], .ident ['b']]]
  written := by decide
  surrounds := fun _ => rfl
  spelled := rfl
  tight := by constructor <;> decide
  apart := by decide

theorem scale_expanded : ∃ e, scaleSite.ReadsAs (spaced [.name ['x'], .assign none, .name ['x'],
      .binary (.arith .mul), .name ['a'], .binary (.arith .mul), .name ['b']])
      (plug scaleSite.parents e) ∧
    ∀ (w : Nat) (V : Type) (env : Env w V), stored env e = stored env scaleSite.expr := by
  refine compoundAssignment_stores scaleSite rfl ?_
  intro op a b h
  cases h
  decide

/-- `x *= a + b` -/
def scaleSumSite : Site where
  head := []
  before := []
  text := spaced [.name ['x'], .assign (some .mul), .name ['a'], .binary (.arith .add), .name ['b']]
  after := []
  tail := []
  parents := []
  expr := .node (.assignment (some .mul))
    [.ident ['x'], .node (.binary (.arith .add)) [.ident ['a'], .ident ['b']]]
  written := by decide
  surrounds := fun e => by simp [plug]
  spelled := rfl
  tight := by constructor <;> decide
  apart := by decide

theorem scale_sum_regrouped : ∃ site new, pCompoundAssignment site = some new ∧
    ¬∃ e, site.ReadsAs new (plug site.parents e) ∧
      ∀ (w : Nat) (V : Type) (env : Env w V), stored env e = stored env site.expr := by
  refine ⟨scaleSumSite, spaced [.name ['x'], .assign none, .name ['x'], .binary (.arith .mul),
    .name ['a'], .binary (.arith .add), .name ['b']], rfl, ?_⟩
  rintro ⟨e, hreads, hstored⟩
  have hsum : scaleSumSite.ReadsAs (spaced [.name ['x'], .assign none, .name ['x'],
      .binary (.arith .mul), .name ['a'], .binary (.arith .add), .name ['b']])
      (.node (.assignment none) [.ident ['x'], .node (.binary (.arith .add))
        [.node (.binary (.arith .mul)) [.ident ['x'], .ident ['a']], .ident ['b']]]) :=
    ⟨by decide, rfl, by decide⟩
  obtain rfl := hreads.unique hsum
  have hdiffer := hstored 32 _ (plainEnv 32 fun x => if x = ['x'] then 2 else 1)
  have hvalue := congrArg (Option.map Prod.snd) hdiffer
  exact absurd hvalue (by decide)

end MeleeHarness.SrcMutate
