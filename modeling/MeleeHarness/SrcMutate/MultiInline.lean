import MeleeHarness.SrcMutate.Inline
import MeleeHarness.SrcMutate.ParseTree

/-!
# Several helpers at once

`_expr_inline_sites` and `_block_inline_sites` in the text of the function, and
`p_multi_inline`, which makes several of these extractions in one step.

* `mem_exprInlineSites`, `mem_blockInlineSites`: where the sites are and what their
  helpers are called;
* `multiInline_applicable_iff`: any choice can be applied and defines each helper once,
  unless the name of a helper is already taken in the unit.
-/

namespace MeleeHarness.SrcMutate.Cst

open Lib

/-- The span that is replaced, the text of the helper and the text of the call; `hid` is
the name of the helper. -/
structure InlineSite where
  start : Nat
  stop : Nat
  helper : Bytes
  call : Bytes
  hid : Bytes
  deriving DecidableEq, Repr

def commaJoined (items : List Bytes) : Bytes := (ascii ", ").intercalate items

def paramList (decls : List Bytes) : Bytes := if decls = [] then ascii "void" else commaJoined decls

/-! ## Identifiers -/

def nodeText (n : Node) : Bytes := n.spot.text

/-- The identifiers that name locals, in the order in which they are met. -/
def localOccs (locals : List Bytes) (nodes : List Node) : List Node :=
  nodes.filter fun m => isA [.identifier] m.spot ∧ nodeText m ∈ locals

def occOrder (occs : List Node) : List Bytes := (occs.map nodeText).eraseDups

def occOf (occs : List Node) (x : Bytes) : List Node := occs.filter (nodeText · = x)

section
variable (types : Nat × Nat → Option Text)

def occType (nodes : List Node) : Option Text :=
  (nodes.filterMap fun n => types n.spot.span).find? (· ≠ [])

def usableType (occs : List Node) (x : Bytes) : Option (Bytes × Text) := do
  let t ← occType types (occOf occs x)
  guard (usableTempType t)
  return (x, t)

/-! ## Value helpers -/

def inlinePosOk (n : Node) : Bool :=
  match n.parents with
  | [] => true
  | par :: _ =>
    if isA [.expressionStatement, .updateExpression] par then false
    else if isA [.assignmentExpression] par then (par.field .left).map Spot.span ≠ some n.spot.span
    else if isA [.pointerExpression] par then fieldText par .operator ≠ some (ascii "&")
    else if isA [.callExpression] par then (par.field .function).map Spot.span ≠ some n.spot.span
    else true

/-- What a node stores to or takes the address of. -/
def writtenPlace (m : Place) : Option Place :=
  if isA [.assignmentExpression] m then m.field .left
  else if isA [.updateExpression] m then (m.field .argument).or m.onlyNamed
  else if isA [.pointerExpression] m ∧ fieldText m .operator = some (ascii "&") then
    (m.field .argument).or m.onlyNamed
  else none

def baseNonptrFree (ftypes : List (Bytes × Text)) (lv : Place) : Bool :=
  match (exprBaseId lv).bind fun x => ftypes.lookup x with
  | some t => !pointerSpelling t
  | none => false

def inlineByvalUnsafe (n : Node) (ftypes : List (Bytes × Text)) : Bool :=
  n.iterSubtree.any fun m => (writtenPlace m.spot).any (baseNonptrFree ftypes)

def spelled (p : Bytes × Text) : Bytes := encode p.2 ++ ascii " " ++ p.1

def exprInlineSite (fname : Bytes) (locals : List Bytes) (n : Node) : Option InlineSite := do
  guard (isA tempExprTypes n.spot)
  let typ ← types n.spot.span
  guard (usableTempType typ ∧ inlinePosOk n)
  let occs := localOccs locals n.iterSubtree
  let order := occOrder occs
  guard (order.length ≤ 6)
  let ftypes ← order.mapM (usableType types occs)
  guard (!inlineByvalUnsafe n ftypes)
  let hid := fname ++ ascii "_pi" ++ decimal n.spot.start
  return {
    start := n.spot.start
    stop := n.spot.stop
    helper := ascii "static inline " ++ encode typ ++ ascii " " ++ hid ++ ascii "(" ++
      paramList (ftypes.map spelled) ++ ascii ")\n\x7b\n    return " ++ nodeText n ++ ascii ";\n\x7d\n\n"
    call := hid ++ ascii "(" ++ commaJoined order ++ ascii ")"
    hid := hid }

end

def fnName (fn : Node) : Bytes := ((fnNameOf fn.spot).filter (· ≠ [])).getD (ascii "fn")

def exprInlineSites (ctx : Ctx) : List InlineSite :=
  match ctx.types with
  | none => []
  | some types =>
    ctx.fn.iterSubtree.filterMap (exprInlineSite types (fnName ctx.fn) (localNames ctx.fn))

/-! ## Block helpers -/

/-- Whether the target of a `break` or `continue` is not in the run. -/
def jumpEscapesRun (jump : Node) (runStart runEnd : Nat) : Bool :=
  let loops := [.forStatement, .whileStatement, .doStatement]
  let targets := if isA [.breakStatement] jump.spot then .switchStatement :: loops else loops
  match jump.parents.find? (isA targets) with
  | some p => !(runStart ≤ p.start ∧ p.stop ≤ runEnd)
  | none => true

/-- The verbatim spelling of the declarations of a function, later ones first. -/
def declSpellMap (fn : Node) (src : Bytes) : List (Bytes × Bytes) :=
  let params := (parameterNodes fn.spot).filterMap fun p => (declaredName p).map fun x => (x, p.text)
  let decls := ((bodyOf fn.spot).toList.flatMap Spot.namedChildren).filter (isA [.declaration])
  let locals := decls.filterMap fun d =>
    match declarators d with
    | [kid] => do
      let inner ← if isA [.initDeclarator] kid then kid.field .declarator else some kid
      let x ← declaredName kid
      return (x, slice src d.start inner.stop)
    | _ => none
  (params ++ locals).reverse

/-- A local that its initializer can be written again for: the text of the declaration,
the locals that the initializer reads, and where the declaration begins. -/
structure Rederived where
  text : Bytes
  free : List Bytes
  start : Nat

def rederivableLocals (fn : Node) (locals : List Bytes) : List (Bytes × Rederived) :=
  let decls := ((bodyOf fn.spot).toList.flatMap Spot.namedChildren).filter (isA [.declaration])
  (decls.filterMap fun d =>
    match declarators d with
    | [idc] => do
      guard (isA [.initDeclarator] idc)
      let x ← declaredName idc
      let init ← idc.field .value
      let nodes := Located.iterSubtree ⟨[], init⟩
      guard (!nodes.any fun m => isA [.assignmentExpression, .updateExpression] m.spot)
      let free := (occOrder (localOccs locals nodes)).filter (· ≠ x)
      return (x, ⟨d.text, free, d.start⟩)
    | _ => none).reverse

/-- The locals that are first assigned in the run and not used behind it. -/
def runLocal (order : List Bytes) (occs : List Node) (fn : Node) (runEnd : Nat) : List Bytes :=
  let after := (fn.iterSubtree.filter fun m => isA [.identifier] m.spot ∧ runEnd ≤ m.spot.start).map
    nodeText
  (order.filter (· ∉ after)).filter fun x =>
    match (stableSort (·.spot.start) (occOf occs x)).head? with
    | some ⟨par :: _, first⟩ =>
      isA [.assignmentExpression] par ∧ fieldText par .operator = some (ascii "=") ∧
        (par.field .left).map Spot.span = some first.span
    | _ => false

/-- The names that are declared in the run. -/
def declInside (nodes : List Node) : List Bytes :=
  (nodes.filter fun m => isA [.declaration] m.spot).flatMap fun d =>
    (declarators d.spot).filterMap declaredName

/-- What a variant of a helper passes: the names by value, what is declared in the helper
instead with where it stood, and parameters and arguments in the place of these. -/
structure Passed where
  inParams : List Bytes
  prelude : List (Nat × Bytes)
  extraDecls : List Bytes
  extraArgs : List Bytes
  rederived : Bool

/-- The loop over the names that are declared again in the helper. -/
def rederiveLoop (spell : List (Bytes × Bytes)) (outParams : List Bytes) :
    List (Bytes × Rederived) → List Bytes → List Bytes → Passed → Passed
  | [], _, drop, passed =>
    if drop = [] then passed
    else { passed with inParams := passed.inParams.filter (· ∉ drop), rederived := true }
  | (x, r) :: rest, seen, drop, passed =>
    if r.free.any fun f => f ∈ outParams ∨ spell.lookup f = none then
      rederiveLoop spell outParams rest seen drop passed
    else
      let fresh := r.free.filter (· ∉ seen)
      rederiveLoop spell outParams rest (seen ++ fresh) (drop ++ [x])
        { passed with
          prelude := passed.prelude ++ [(r.start, r.text)]
          extraDecls := passed.extraDecls ++ fresh.filterMap fun f => spell.lookup f
          extraArgs := passed.extraArgs ++ fresh }

def rederive (spell : List (Bytes × Bytes)) (rmap : List (Bytes × Rederived))
    (outParams : List Bytes) (passed : Passed) : Passed :=
  let targets := passed.inParams.filterMap fun x => (rmap.lookup x).map fun r => (x, r)
  let targets := targets.filter fun (x, _) => !targets.any fun (y, r) => y ≠ x ∧ x ∈ r.free
  rederiveLoop spell outParams targets (passed.inParams ++ outParams) [] passed

/-- The text of the run with the out-parameters dereferenced. -/
def dereferenced (src : Bytes) (runStart runEnd : Nat) (occs : List Node) (outParams : List Bytes) :
    Bytes :=
  let derefs := outParams.flatMap fun x => (occOf occs x).map fun n =>
    (n.spot.start - runStart, n.spot.stop - runStart, ascii "(*" ++ x ++ ascii ")")
  (stableSort Prod.fst derefs).reverse.foldl
    (fun text (s, e, rep) => text.take s ++ rep ++ text.drop e) (slice src runStart runEnd)

/-- The helper for a run of statements, which are given with the nodes above them;
`rmap` is empty for the variant that passes all locals. -/
def blockSite (ctx : Ctx) (types : Nat × Nat → Option Text) (parents : List Place)
    (run : List Place) (locals : List Bytes) (spell : List (Bytes × Bytes))
    (rmap : List (Bytes × Rederived)) : Option InlineSite := do
  let runStart ← run.head?.map Spot.start
  let runEnd ← run.getLast?.map Spot.stop
  let nodes := run.flatMap fun s => Located.iterSubtree ⟨parents, s⟩
  guard (!nodes.any fun m => isA [.returnStatement, .gotoStatement] m.spot)
  guard (!nodes.any fun m =>
    isA [.breakStatement, .continueStatement] m.spot && jumpEscapesRun m runStart runEnd)
  let occs := localOccs locals nodes
  let order := (occOrder occs).filter (· ∉ declInside nodes)
  let temps := (runLocal order occs ctx.fn runEnd).filter fun x => (spell.lookup x).isSome
  let order := order.filter (· ∉ temps)
  let prelude := temps.filterMap fun x => do
    let first ← (stableSort (·.spot.start) (occOf occs x)).head?
    let text ← spell.lookup x
    return (first.spot.start, text ++ ascii ";")
  let out := (nodes.filterMap fun m => (writtenPlace m.spot).bind storageBase).filter fun x =>
    x ∈ order ∧ (occType types (occOf occs x)).isSome
  let ptypes ← order.mapM (usableType types occs)
  guard (order.length ≤ 6)
  let inParams := order.filter (· ∉ out)
  let outParams := order.filter (· ∈ out)
  let passed := rederive spell rmap outParams ⟨inParams, prelude, [], [], false⟩
  let hid := fnName ctx.fn ++ ascii "_blk" ++ decimal runStart ++
    if passed.rederived then ascii "r" else []
  let typeOf x := encode ((ptypes.lookup x).getD [])
  let decls := passed.inParams.map (fun x => typeOf x ++ ascii " " ++ x) ++ passed.extraDecls ++
    outParams.map fun x => typeOf x ++ ascii " *" ++ x
  let args := passed.inParams ++ passed.extraArgs ++ outParams.map (ascii "&" ++ ·)
  let pre := (stableSort Prod.fst passed.prelude).flatMap fun (_, text) => text ++ ascii "\n    "
  return {
    start := runStart
    stop := runEnd
    helper := ascii "static inline void " ++ hid ++ ascii "(" ++ paramList decls ++
      ascii ")\n\x7b\n    " ++ pre ++ dereferenced ctx.src runStart runEnd occs outParams ++
      ascii "\n\x7d\n\n"
    call := hid ++ ascii "(" ++ commaJoined args ++ ascii ");"
    hid := hid }

/-- The four parts that the source compares. -/
def InlineSite.parts (site : InlineSite) : Nat × Nat × Bytes × Bytes :=
  (site.start, site.stop, site.helper, site.call)

/-- Runs of one to five statements. -/
def runsOf : List Place → List (List Place)
  | [] => []
  | s :: rest => ((List.range (min (rest.length + 1) 5)).map fun d => (s :: rest).take (d + 1)) ++
    runsOf rest

def blockInlineSites (ctx : Ctx) : List InlineSite :=
  match ctx.types, bodyOf ctx.fn.spot with
  | some types, some body =>
    let stmts := body.namedChildren.filter (isA stmtTypes)
    let locals := localNames ctx.fn
    let spell := declSpellMap ctx.fn ctx.src
    let rmap := rederivableLocals ctx.fn locals
    let parents := body :: ctx.fn.spot :: ctx.fn.parents
    (runsOf stmts).flatMap fun run =>
      let site := blockSite ctx types parents run locals spell []
      let rsite := if rmap.isEmpty then none else blockSite ctx types parents run locals spell rmap
      site.toList ++ rsite.toList.filter fun r => site.map InlineSite.parts ≠ some r.parts
  | _, _ => []

/-! ## The choice -/

def InlineSite.Clear (a b : InlineSite) : Prop := a.stop ≤ b.start ∨ b.stop ≤ a.start

instance (a b : InlineSite) : Decidable (a.Clear b) := inferInstanceAs (Decidable (_ ∨ _))

/-- The loop over the shuffled sites. -/
def multiChosen (k : Nat) : List InlineSite → List InlineSite → List InlineSite
  | chosen, [] => chosen
  | chosen, site :: rest =>
    if chosen.any fun c => ¬site.Clear c then multiChosen k chosen rest
    else if k ≤ chosen.length + 1 then chosen ++ [site]
    else multiChosen k (chosen ++ [site]) rest

def inlineSites (ctx : Ctx) : List InlineSite := exprInlineSites ctx ++ blockInlineSites ctx

/-- The helper before the function and the call in the place of what it does. -/
def inlineEdits (fn : Node) (site : InlineSite) : List Permute.Edit :=
  [⟨fn.spot.start, fn.spot.start, site.helper⟩, ⟨site.start, site.stop, site.call⟩]

/-- `shuffled` and `k` are what the random source gives: the sites in some order, and a
number from 2 to 5 that is not more than there are. -/
def pMultiInline (ctx : Ctx) (shuffled : List InlineSite) (k : Nat) : Option (List Permute.Edit) :=
  if (inlineSites ctx).length < 2 then none
  else
    let chosen := multiChosen k [] shuffled
    if chosen.length < 2 then none else some (chosen.flatMap (inlineEdits ctx.fn))

theorem multiInline_some {ctx : Ctx} {shuffled : List InlineSite} {k : Nat}
    (hsites : 2 ≤ (inlineSites ctx).length) (hchosen : 2 ≤ (multiChosen k [] shuffled).length) :
    pMultiInline ctx shuffled k =
      some ((multiChosen k [] shuffled).flatMap (inlineEdits ctx.fn)) := by
  rw [pMultiInline, if_neg (by omega)]
  exact if_neg (by omega)

/-! ## Names -/

theorem decimal_digit {n : Nat} {b : UInt8} (h : b ∈ decimal n) :
    ∃ c : Char, c.isDigit = true ∧ b = c.toNat.toUInt8 := by
  obtain ⟨c, hc, rfl⟩ := List.mem_map.mp h
  exact ⟨c, Nat.isDigit_of_mem_toDigits (by decide) (by decide) hc, rfl⟩

/-- A digit is found in its byte. -/
theorem digit_byte {c : Char} (h : c.isDigit = true) : Char.ofNat c.toNat.toUInt8.toNat = c := by
  have hlt : c.toNat < 256 :=
    Nat.lt_of_le_of_lt (Char.isDigit_iff_toNat.mp h).2 (by decide : '9'.toNat < 256)
  have hbyte : c.toNat.toUInt8.toNat = c.toNat := by
    rw [Nat.toUInt8, UInt8.toNat_ofNat']
    exact Nat.mod_eq_of_lt hlt
  rw [hbyte, Char.ofNat_toNat]

theorem decimal_inj {m n : Nat} (h : decimal m = decimal n) : m = n := by
  have hback : ∀ n, (decimal n).map (fun b => Char.ofNat b.toNat) = Nat.toDigits 10 n := by
    intro n
    rw [decimal, List.map_map]
    conv_rhs => rw [← List.map_id (Nat.toDigits 10 n)]
    apply List.map_congr_left
    intro c hc
    exact digit_byte (Nat.isDigit_of_mem_toDigits (by decide) (by decide) hc)
  have hdigits : Nat.toDigits 10 m = Nat.toDigits 10 n := by rw [← hback, ← hback, h]
  rw [← Nat.ofDigitChars_ten_toDigits (n := m), hdigits, Nat.ofDigitChars_ten_toDigits]

/-- No digit is an `r`. -/
theorem decimal_ne_marked {m n : Nat} : decimal m ≠ decimal n ++ ascii "r" := by
  intro h
  have hmem : (114 : UInt8) ∈ decimal m := by
    rw [h]
    exact List.mem_append_right _ (by decide)
  obtain ⟨c, hc, hbyte⟩ := decimal_digit hmem
  have hback := digit_byte hc
  rw [← hbyte] at hback
  rw [← hback] at hc
  exact absurd hc (by decide)

/-- What a helper for the text at `start` may be called. -/
def HelperName (fname : Bytes) (start : Nat) (hid : Bytes) : Prop :=
  hid = fname ++ ascii "_pi" ++ decimal start ∨ hid = fname ++ ascii "_blk" ++ decimal start ∨
    hid = fname ++ ascii "_blk" ++ (decimal start ++ ascii "r")

/-- The name tells where the text stood. -/
theorem HelperName.start_eq {fname hid : Bytes} {s s' : Nat} (h : HelperName fname s hid)
    (h' : HelperName fname s' hid) : s = s' := by
  have hkind : ∀ a b : Bytes, fname ++ ascii "_pi" ++ a ≠ fname ++ ascii "_blk" ++ b := by
    intro a b hab
    rw [List.append_assoc, List.append_assoc, List.append_cancel_left_eq] at hab
    cases hab
  rcases h with rfl | rfl | rfl <;> rcases h' with h | h | h
  · exact decimal_inj (List.append_cancel_left h)
  · exact absurd h (hkind _ _)
  · exact absurd h (hkind _ _)
  · exact absurd h.symm (hkind _ _)
  · exact decimal_inj (List.append_cancel_left h)
  · exact absurd (List.append_cancel_left h) decimal_ne_marked
  · exact absurd h.symm (hkind _ _)
  · exact absurd (List.append_cancel_left h).symm decimal_ne_marked
  · exact decimal_inj (List.append_cancel_right (List.append_cancel_left h))

/-! ## Where the sites are -/

/-- The tree of a definition of a function as the parser gives it: no token is without
text, and no expression and no block stands at the left edge, where the type is. -/
structure Ctx.Parsed (ctx : Ctx) : Prop where
  under : Under (top ctx.root) ctx.fn
  solid : ctx.root.solid = true
  definition : ctx.fn.spot.tree.isNamed = true
  begins : ∀ t ∈ ctx.fn.spot.tree.leftmost, ∀ k ∈ t.type?, k ∉ .compoundStatement :: tempExprTypes
  body : ∀ b, bodyOf ctx.fn.spot = some b → b.tree.isNamed = true ∧ isA [.compoundStatement] b = true

/-- The text of a site is not empty, is in the function and is not where it begins. -/
structure InlineSite.Within (site : InlineSite) (fn : Node) : Prop where
  after : fn.spot.start < site.start
  proper : site.start < site.stop
  inside : site.stop ≤ fn.spot.stop

section
variable {ctx : Ctx} {site : InlineSite}

theorem isA_iff {types : List NodeType} {s : Place} :
    isA types s = true ↔ ∃ k ∈ types, s.type? = some k := by
  rw [isA, Option.any_eq_true]
  simp only [decide_eq_true_eq]
  constructor
  · rintro ⟨k, hs, hk⟩
    exact ⟨k, hk, hs⟩
  · rintro ⟨k, hk, hs⟩
    exact ⟨k, hs, hk⟩

theorem Ctx.Parsed.fn_solid (h : ctx.Parsed) : ctx.fn.spot.tree.solid = true := h.under.solid h.solid

/-- A node that cannot stand at the left edge begins behind it. -/
theorem Ctx.Parsed.start_lt (h : ctx.Parsed) {n : Node} (hn : Under ctx.fn n) {k : NodeType}
    (hk : n.spot.type? = some k) (hedge : k ∈ .compoundStatement :: tempExprTypes) :
    ctx.fn.spot.start < n.spot.start := by
  have hle := hn.bounds.1
  by_contra hlt
  have hstart : n.spot.start = ctx.fn.spot.start := by omega
  exact h.begins _ (hn.leftmost h.fn_solid h.definition hstart) k hk hedge

theorem mem_exprInlineSites (hsite : site ∈ exprInlineSites ctx) :
    ∃ n, Under ctx.fn n ∧ isA tempExprTypes n.spot = true ∧ site.start = n.spot.start ∧
      site.stop = n.spot.stop ∧ site.hid = fnName ctx.fn ++ ascii "_pi" ++ decimal site.start := by
  unfold exprInlineSites at hsite
  split at hsite
  · cases hsite
  · obtain ⟨n, hn, hsome⟩ := List.mem_filterMap.mp hsite
    simp only [exprInlineSite, guard, Option.bind_eq_bind, Option.bind_eq_some_iff, Option.pure_def,
      Option.some.injEq] at hsome
    obtain ⟨_, htype, typ, -, _, -, _, -, ftypes, -, _, -, rfl⟩ := hsome
    refine ⟨n, mem_iterSubtree.mp hn, ?_, rfl, rfl, rfl⟩
    by_contra hnot
    simp [hnot] at htype

theorem exprInlineSites_within (h : ctx.Parsed) (hsite : site ∈ exprInlineSites ctx) :
    site.Within ctx.fn ∧ HelperName (fnName ctx.fn) site.start site.hid := by
  obtain ⟨n, hn, htype, hstart, hstop, hhid⟩ := mem_exprInlineSites hsite
  obtain ⟨k, hk, htype⟩ := isA_iff.mp htype
  have hlt := h.start_lt hn htype (List.mem_cons_of_mem _ hk)
  have hnamed : n.spot.tree.isNamed = true := by
    cases hn with
    | self => exact h.definition
    | child _ hc => exact (List.mem_filter.mp hc).2
  refine ⟨⟨by omega, ?_, ?_⟩, .inl hhid⟩
  · rw [hstart, hstop]
    exact Spot.start_lt_stop (hn.solid h.fn_solid) hnamed
  · rw [hstop]
    exact hn.bounds.2

/-- A run begins with one of the statements and is part of them. -/
theorem mem_runsOf {stmts run : List Place} (h : run ∈ runsOf stmts) :
    run ≠ [] ∧ run.Sublist stmts := by
  induction stmts with
  | nil => cases h
  | cons s rest ih =>
    rw [runsOf, List.mem_append, List.mem_map] at h
    rcases h with ⟨d, -, rfl⟩ | h
    · exact ⟨by simp, List.take_sublist _ _⟩
    · exact ⟨(ih h).1, (ih h).2.cons s⟩

theorem blockSite_spec {types : Nat × Nat → Option Text} {parents run : List Place}
    {locals : List Bytes} {spell : List (Bytes × Bytes)} {rmap : List (Bytes × Rederived)}
    (h : blockSite ctx types parents run locals spell rmap = some site) :
    ∃ a b, run.head? = some a ∧ run.getLast? = some b ∧ site.start = a.start ∧
      site.stop = b.stop ∧ HelperName (fnName ctx.fn) site.start site.hid := by
  simp only [blockSite, guard, Option.bind_eq_bind, Option.bind_eq_some_iff, Option.pure_def,
    Option.some.injEq] at h
  obtain ⟨start, hhead, stop, hlast, _, -, _, -, ptypes, -, _, -, rfl⟩ := h
  obtain ⟨a, ha, rfl⟩ := Option.map_eq_some_iff.mp hhead
  obtain ⟨b, hb, rfl⟩ := Option.map_eq_some_iff.mp hlast
  refine ⟨a, b, ha, hb, rfl, rfl, ?_⟩
  dsimp only
  split
  · exact .inr (.inr (List.append_assoc _ _ _))
  · exact .inr (.inl (List.append_nil _))

theorem mem_blockInlineSites (hsite : site ∈ blockInlineSites ctx) :
    ∃ (body : Place) (run : List Place) (a b : Place), bodyOf ctx.fn.spot = some body ∧
      run.Sublist body.namedChildren ∧
      run.head? = some a ∧ run.getLast? = some b ∧ site.start = a.start ∧ site.stop = b.stop ∧
      HelperName (fnName ctx.fn) site.start site.hid := by
  unfold blockInlineSites at hsite
  split at hsite
  · rename_i types body htypes hbody
    obtain ⟨run, hrun, hmem⟩ := List.mem_flatMap.mp hsite
    have hsub := (mem_runsOf hrun).2.trans List.filter_sublist
    rw [List.mem_append] at hmem
    rcases hmem with hmem | hmem
    · obtain ⟨a, b, h⟩ := blockSite_spec (Option.mem_toList.mp hmem)
      exact ⟨body, run, a, b, hbody, hsub, h⟩
    · obtain ⟨hmem, -⟩ := List.mem_filter.mp hmem
      have hsome := Option.mem_toList.mp hmem
      split at hsome
      · cases hsome
      · obtain ⟨a, b, h⟩ := blockSite_spec hsome
        exact ⟨body, run, a, b, hbody, hsub, h⟩
  · cases hsite

/-- The first and the last of places in order. -/
theorem head_last_ordered {run : List Place} {a b : Place} (ha : run.head? = some a)
    (hb : run.getLast? = some b) (hordered : run.Pairwise fun a b => a.stop ≤ b.start) :
    a = b ∨ a.stop ≤ b.start := by
  cases run with
  | nil => cases ha
  | cons c run =>
    obtain rfl := Option.some.inj ha
    rw [List.pairwise_cons] at hordered
    cases run with
    | nil => exact .inl (Option.some.inj hb)
    | cons d run =>
      rw [List.getLast?_cons_cons] at hb
      exact .inr (hordered.1 b (List.mem_of_getLast? hb))

theorem blockInlineSites_within (h : ctx.Parsed) (hsite : site ∈ blockInlineSites ctx) :
    site.Within ctx.fn ∧ HelperName (fnName ctx.fn) site.start site.hid := by
  obtain ⟨body, run, a, b, hbody, hsub, ha, hb, hstart, hstop, hhid⟩ := mem_blockInlineSites hsite
  refine ⟨?_, hhid⟩
  obtain ⟨hnamed, htype⟩ := h.body body hbody
  obtain ⟨k, hk, htype⟩ := isA_iff.mp htype
  obtain rfl := List.mem_singleton.mp hk
  have hunder : Under ctx.fn ⟨ctx.fn.spot :: ctx.fn.parents, body⟩ :=
    .child .self (List.mem_filter.mpr ⟨Spot.field_mem hbody, hnamed⟩)
  have hchild : ∀ c ∈ run, c ∈ body.namedChildren := fun c hc => hsub.subset hc
  have hbounds : ∀ c ∈ run, body.start ≤ c.start ∧ c.start < c.stop ∧ c.stop ≤ body.stop := by
    intro c hc
    have hmem := hchild c hc
    have hle := Spot.children_bounds (Spot.namedChildren_mem hmem)
    have hsolid := (Under.child hunder hmem).solid h.fn_solid
    exact ⟨hle.1, Spot.start_lt_stop hsolid (List.mem_filter.mp hmem).2, hle.2⟩
  have hafter := h.start_lt hunder htype List.mem_cons_self
  have hinside := hunder.bounds.2
  have hma := hbounds a (List.mem_of_head? ha)
  have hmb := hbounds b (List.mem_of_getLast? hb)
  have hordered : run.Pairwise fun a b => a.stop ≤ b.start :=
    ((Spot.spotsFrom_ordered _ _).sublist List.filter_sublist).sublist hsub
  change _ ≤ ctx.fn.spot.stop at hinside
  change _ < body.start at hafter
  rcases head_last_ordered ha hb hordered with rfl | hle
  · exact ⟨by omega, by omega, by dsimp only at hinside; omega⟩
  · exact ⟨by omega, by omega, by dsimp only at hinside; omega⟩

theorem inlineSites_within (h : ctx.Parsed) (hsite : site ∈ inlineSites ctx) :
    site.Within ctx.fn ∧ HelperName (fnName ctx.fn) site.start site.hid := by
  rcases List.mem_append.mp hsite with hsite | hsite
  · exact exprInlineSites_within h hsite
  · exact blockInlineSites_within h hsite

end

/-! ## Any choice can be applied -/

theorem InlineSite.Clear.symm {a b : InlineSite} (h : a.Clear b) : b.Clear a := Or.symm h

/-- A site that no chosen one is in the way of. -/
theorem clear_concat {chosen : List InlineSite} {site : InlineSite}
    (h : chosen.Pairwise InlineSite.Clear) (hany : ¬chosen.any (fun c => ¬site.Clear c) = true) :
    (chosen ++ [site]).Pairwise InlineSite.Clear := by
  refine List.pairwise_append.mpr ⟨h, List.pairwise_singleton _ _, ?_⟩
  intro c hc d hd
  obtain rfl := List.mem_singleton.mp hd
  by_contra hnot
  exact hany (List.any_eq_true.mpr ⟨c, hc, decide_eq_true fun hclear => hnot hclear.symm⟩)

/-- What is chosen is some of the sites, and they leave each other alone. -/
theorem multiChosen_spec {k : Nat} {chosen sites : List InlineSite}
    (h : chosen.Pairwise InlineSite.Clear) :
    (multiChosen k chosen sites).Pairwise InlineSite.Clear ∧
      ∀ c ∈ multiChosen k chosen sites, c ∈ chosen ∨ c ∈ sites := by
  fun_induction multiChosen k chosen sites with
  | case1 chosen => exact ⟨h, fun c hc => .inl hc⟩
  | case2 chosen site rest hany ih =>
    obtain ⟨hclear, hmem⟩ := ih h
    exact ⟨hclear, fun c hc => (hmem c hc).imp_right (List.mem_cons_of_mem _)⟩
  | case3 chosen site rest hany hk =>
    refine ⟨clear_concat h hany, fun c hc => ?_⟩
    rcases List.mem_append.mp hc with hc | hc
    · exact .inl hc
    · exact .inr (List.mem_singleton.mp hc ▸ List.mem_cons_self)
  | case4 chosen site rest hany hk ih =>
    obtain ⟨hclear, hmem⟩ := ih (clear_concat h hany)
    refine ⟨hclear, fun c hc => ?_⟩
    rcases hmem c hc with hc | hc
    · rcases List.mem_append.mp hc with hc | hc
      · exact .inl hc
      · exact .inr (List.mem_singleton.mp hc ▸ List.mem_cons_self)
    · exact .inr (List.mem_cons_of_mem _ hc)

/-- The names of the functions that are defined before the function. -/
def definedBefore (ctx : Ctx) : List Bytes :=
  ((top ctx.root).iterSubtree.filter fun n =>
    isA [.functionDefinition] n.spot ∧ n.spot.start < ctx.fn.spot.start).filterMap
    fun n => fnNameOf n.spot

/-- The edits are accepted, and define each helper once, before the function and under a
name of its own. -/
structure Applicable (ctx : Ctx) (chosen : List InlineSite) (edits : List Permute.Edit) : Prop where
  made : edits = chosen.flatMap (inlineEdits ctx.fn)
  accepted : ∃ out, Permute.applyEdits ctx.src edits = .ok out ∧
    ctx.src.take ctx.fn.spot.start ++ (chosen.map (·.helper)).flatten <+: out
  clear : chosen.Pairwise InlineSite.Clear
  after : ∀ c ∈ chosen, ctx.fn.spot.start < c.start
  once : ∀ c ∈ chosen, (definedBefore ctx ++ chosen.map (·.hid)).count c.hid = 1
  distinct : (chosen.map (·.hid)).Nodup
  fresh : ∀ c ∈ chosen, c.hid ∉ definedFunctions ctx.root

section
variable {ctx : Ctx} {chosen : List InlineSite}

theorem mem_definedFunctions {x : Bytes} (h : x ∈ definedBefore ctx) : x ∈ definedFunctions ctx.root := by
  obtain ⟨n, hn, hname⟩ := List.mem_filterMap.mp h
  obtain ⟨hn, htype⟩ := List.mem_filter.mp hn
  refine List.mem_filterMap.mpr ⟨n, List.mem_filter.mpr ⟨hn, ?_⟩, hname⟩
  rw [decide_eq_true_eq] at htype
  exact htype.1

/-- Sites that leave each other alone have helpers of different names. -/
theorem hids_nodup (h : ctx.Parsed) (hmem : ∀ c ∈ chosen, c ∈ inlineSites ctx)
    (hclear : chosen.Pairwise InlineSite.Clear) : (chosen.map (·.hid)).Nodup := by
  rw [List.Nodup, List.pairwise_map]
  refine List.Pairwise.imp_of_mem ?_ hclear
  intro a b ha hb hab heq
  obtain ⟨hwa, hna⟩ := inlineSites_within h (hmem a ha)
  obtain ⟨hwb, hnb⟩ := inlineSites_within h (hmem b hb)
  have hstart := (heq ▸ hna : HelperName _ _ b.hid).start_eq hnb
  have := hwa.proper
  have := hwb.proper
  rw [InlineSite.Clear] at hab
  omega

theorem fn_stop_le (h : ctx.Parsed) : ctx.fn.spot.stop ≤ ctx.src.length := by
  have hbounds := h.under.bounds.2
  simpa [top, Spot.stop, SyntaxTree.size, Ctx.src] using hbounds

theorem inlineEdits_inside (h : ctx.Parsed) (hmem : ∀ c ∈ chosen, c ∈ inlineSites ctx) :
    ∀ e ∈ chosen.flatMap (inlineEdits ctx.fn), e.Inside ctx.src := by
  intro e he
  obtain ⟨c, hc, he⟩ := List.mem_flatMap.mp he
  obtain ⟨hafter, hproper, hinside⟩ := (inlineSites_within h (hmem c hc)).1
  have hstop := fn_stop_le h
  rw [inlineEdits, List.mem_cons, List.mem_singleton] at he
  rcases he with rfl | rfl
  · exact ⟨by dsimp only; omega, by dsimp only; omega, by dsimp only; omega⟩
  · exact ⟨by dsimp only; omega, by dsimp only; omega, by dsimp only; omega⟩

theorem inlineEdits_clear (h : ctx.Parsed) (hmem : ∀ c ∈ chosen, c ∈ inlineSites ctx)
    (hclear : chosen.Pairwise InlineSite.Clear) :
    (chosen.flatMap (inlineEdits ctx.fn)).Pairwise Permute.Edit.Clear := by
  rw [List.pairwise_flatMap]
  constructor
  · intro c hc
    have hafter := (inlineSites_within h (hmem c hc)).1.after
    simp only [inlineEdits, List.pairwise_cons, List.mem_singleton, forall_eq, Permute.Edit.Clear,
      List.not_mem_nil, false_imp_iff, implies_true, List.Pairwise.nil, and_true]
    omega
  · refine List.Pairwise.imp_of_mem ?_ hclear
    intro a b ha hb hab
    obtain ⟨haa, hap, -⟩ := (inlineSites_within h (hmem a ha)).1
    obtain ⟨hba, hbp, -⟩ := (inlineSites_within h (hmem b hb)).1
    simp only [inlineEdits, List.mem_cons, List.not_mem_nil, or_false, forall_eq_or_imp, forall_eq,
      Permute.Edit.Clear, true_and, and_true, implies_true]
    rw [InlineSite.Clear] at hab
    omega

/-- The insertions come first, one for each helper. -/
theorem inlineEdits_first (h : ctx.Parsed) (hmem : ∀ c ∈ chosen, c ∈ inlineSites ctx) :
    (chosen.flatMap (inlineEdits ctx.fn)).filter (fun e => e.start = (ctx.fn.spot.start : Int)) =
      (chosen.map (·.helper)).map fun text => ⟨ctx.fn.spot.start, ctx.fn.spot.start, text⟩ := by
  induction chosen with
  | nil => rfl
  | cons c chosen ih =>
    have hafter := (inlineSites_within h (hmem c List.mem_cons_self)).1.after
    have hlater : (c.start : Int) ≠ ctx.fn.spot.start := by omega
    rw [List.flatMap_cons, List.filter_append, ih fun d hd => hmem d (List.mem_cons_of_mem _ hd)]
    simp [inlineEdits, hlater]

theorem inlineEdits_accepted (h : ctx.Parsed) (hmem : ∀ c ∈ chosen, c ∈ inlineSites ctx)
    (hclear : chosen.Pairwise InlineSite.Clear) (hne : chosen ≠ []) :
    ∃ out, Permute.applyEdits ctx.src (chosen.flatMap (inlineEdits ctx.fn)) = .ok out ∧
      ctx.src.take ctx.fn.spot.start ++ (chosen.map (·.helper)).flatten <+: out := by
  have hinside := inlineEdits_inside h hmem
  have hnot := Permute.not_overlapping_of_clear hinside (inlineEdits_clear h hmem hclear)
  have hok := ((Permute.applyEdits_splice _ _ hinside).2.2.1 hnot).1
  refine ⟨_, hok, Permute.applyEdits_starts ?_ (by simpa using hne) (inlineEdits_first h hmem) hok⟩
  intro e he
  obtain ⟨c, hc, he⟩ := List.mem_flatMap.mp he
  have hafter := (inlineSites_within h (hmem c hc)).1.after
  rw [inlineEdits, List.mem_cons, List.mem_singleton] at he
  rcases he with rfl | rfl
  · exact Int.le_refl _
  · exact Int.ofNat_le.mpr (Nat.le_of_lt hafter)

/-- Of two or more sites that leave each other alone each is clear of another. -/
theorem exists_clear (hclear : chosen.Pairwise InlineSite.Clear) (hlen : 2 ≤ chosen.length)
    {c : InlineSite} (hc : c ∈ chosen) : ∃ d ∈ chosen, c.Clear d := by
  match chosen, hclear, hlen with
  | a :: b :: rest, hclear, _ =>
    rw [List.pairwise_cons] at hclear
    rcases List.mem_cons.mp hc with rfl | hc
    · exact ⟨b, by simp, hclear.1 b List.mem_cons_self⟩
    · exact ⟨a, List.mem_cons_self, (hclear.1 c hc).symm⟩

theorem applicable_of_fresh (h : ctx.Parsed) (hmem : ∀ c ∈ chosen, c ∈ inlineSites ctx)
    (hclear : chosen.Pairwise InlineSite.Clear) (hne : chosen ≠ [])
    (hfresh : ∀ c ∈ chosen, c.hid ∉ definedFunctions ctx.root) :
    Applicable ctx chosen (chosen.flatMap (inlineEdits ctx.fn)) where
  made := rfl
  accepted := inlineEdits_accepted h hmem hclear hne
  clear := hclear
  after c hc := (inlineSites_within h (hmem c hc)).1.after
  once c hc := by
    have hnone : c.hid ∉ definedBefore ctx := fun hx => hfresh c hc (mem_definedFunctions hx)
    rw [List.count_append, List.count_eq_zero_of_not_mem hnone,
      List.count_eq_one_of_mem (hids_nodup h hmem hclear) (List.mem_map_of_mem hc)]
  distinct := hids_nodup h hmem hclear
  fresh := hfresh

end

/-- **Several helpers at once.** Every choice that the pass can make can be applied,
inserts each helper once before the function and replaces texts that are apart, under
names that are new, exactly if no site that is clear of another one has a helper with the
name of a function of the unit. -/
theorem multiInline_applicable_iff (ctx : Ctx) (h : ctx.Parsed) :
    (∀ shuffled k edits, shuffled.Perm (inlineSites ctx) → 2 ≤ k →
      k ≤ min 5 (inlineSites ctx).length → pMultiInline ctx shuffled k = some edits →
      Applicable ctx (multiChosen k [] shuffled) edits) ↔
    ∀ a ∈ inlineSites ctx, (∃ b ∈ inlineSites ctx, a.Clear b) → a.hid ∉ definedFunctions ctx.root := by
  constructor
  · rintro happlies a ha ⟨b, hb, hab⟩
    have hne : b ≠ a := by
      rintro rfl
      have := (inlineSites_within h ha).1.proper
      rw [InlineSite.Clear] at hab
      omega
    -- the shuffle that begins with the two
    have hb' : b ∈ (inlineSites ctx).erase a := (List.mem_erase_of_ne hne).mpr hb
    have hperm : (a :: b :: ((inlineSites ctx).erase a).erase b).Perm (inlineSites ctx) :=
      (((List.perm_cons_erase hb').symm.cons a).trans (List.perm_cons_erase ha).symm)
    have hlen := hperm.length_eq
    rw [List.length_cons, List.length_cons] at hlen
    have hchosen : multiChosen 2 [] (a :: b :: ((inlineSites ctx).erase a).erase b) = [a, b] := by
      simp [multiChosen, hab.symm]
    have hpass := multiInline_some (by omega : 2 ≤ (inlineSites ctx).length)
      (by rw [hchosen]; exact Nat.le_refl 2)
    have happ := happlies _ 2 _ hperm (Nat.le_refl 2) (by omega) hpass
    exact happ.fresh a (by rw [hchosen]; exact List.mem_cons_self)
  · intro hfree shuffled k edits hperm _ _ hpass
    obtain ⟨hclear, hmem⟩ := @multiChosen_spec k [] shuffled .nil
    have hsites : ∀ c ∈ multiChosen k [] shuffled, c ∈ inlineSites ctx := fun c hc =>
      hperm.subset ((hmem c hc).resolve_left List.not_mem_nil)
    simp only [pMultiInline] at hpass
    split at hpass
    · cases hpass
    · split at hpass
      · cases hpass
      · rename_i hlen
        obtain rfl := Option.some.inj hpass
        have hne : multiChosen k [] shuffled ≠ [] := by
          intro hnil
          simp [hnil] at hlen
        refine applicable_of_fresh h hsites hclear hne fun c hc => ?_
        obtain ⟨d, hd, hcd⟩ := exists_clear hclear (by omega) hc
        exact hfree c (hsites c hc) ⟨d, hsites d hd, hcd⟩

/-! ## A unit with a helper in it -/

/-- `a+n` in parentheses, as an operand. -/
def sumTree (side : FieldName) (n : String) : Tree :=
  .node (some side) .parenthesizedExpression [mark "(",
    .node none .binaryExpression [ident (some .left) "a",
      .token (some .operator) (.other ['+']) false (ascii "+"),
      .token (some .right) .numberLiteral true (ascii n)], mark ")"]

/-- `int f(int a)\x7breturn (a+1)*(a+2);\x7d` -/
def productTree : Tree :=
  .node none .functionDefinition [
    .token (some .type) .primitiveType true (ascii "int"), .gap (ascii " "),
    .node (some .declarator) .functionDeclarator [ident (some .declarator) "f",
      .node (some .parameters) .parameterList [mark "(",
        .node none .parameterDeclaration [.token (some .type) .primitiveType true (ascii "int"),
          .gap (ascii " "), ident (some .declarator) "a"], mark ")"]],
    .node (some .body) .compoundStatement [mark "\x7b",
      .node none .returnStatement [mark "return", .gap (ascii " "),
        .node none .binaryExpression [sumTree .left "1",
          .token (some .operator) (.other ['*']) false (ascii "*"), sumTree .right "2"], mark ";"],
      mark "\x7d"]]

/-- `void helper()\x7b\x7d` -/
def emptyTree (helper : String) : Tree :=
  .node none .functionDefinition [
    .token (some .type) .primitiveType true (ascii "void"), .gap (ascii " "),
    .node (some .declarator) .functionDeclarator [ident (some .declarator) helper,
      .node (some .parameters) .parameterList [mark "(", mark ")"]],
    .node (some .body) .compoundStatement [mark "\x7b", mark "\x7d"]]

def unitTree (helper : String) : Tree :=
  .node none .translationUnit [emptyTree helper, productTree]

/-- A function of that name stands before `f`; all is of type `int`. -/
def unitCtx (helper : String) : Ctx where
  root := unitTree helper
  fn := ⟨[⟨0, unitTree helper⟩], (emptyTree helper).size, productTree⟩
  types := some fun _ => some "int".toList

theorem unitCtx_parsed {helper : String} (h : (unitTree helper).solid = true) :
    (unitCtx helper).Parsed where
  under := by
    refine .child (ℓ := top (unitTree helper)) .self ?_
    simp [top, unitTree, Spot.namedChildren, Spot.children, Spot.spotsFrom, SyntaxTree.children,
      SyntaxTree.isNamed, emptyTree, productTree]
  solid := h
  definition := rfl
  begins := by
    simp [unitCtx, productTree, SyntaxTree.leftmost, SyntaxTree.leftmostOf, SyntaxTree.type?,
      tempExprTypes]
  body := by
    intro b hb
    obtain rfl := Option.some.inj hb
    exact ⟨rfl, rfl⟩

theorem unit_applicable :
    Applicable (unitCtx "f_pi99") (multiChosen 2 [] (inlineSites (unitCtx "f_pi99")).reverse)
      ((multiChosen 2 [] (inlineSites (unitCtx "f_pi99")).reverse).flatMap
        (inlineEdits (unitCtx "f_pi99").fn)) := by
  have hpick : 2 ≤ (multiChosen 2 [] (inlineSites (unitCtx "f_pi99")).reverse).length ∧
      2 ≤ (inlineSites (unitCtx "f_pi99")).length := by decide +kernel
  obtain ⟨hchosen, hsites⟩ := hpick
  exact (multiInline_applicable_iff (unitCtx "f_pi99") (unitCtx_parsed (by decide))).mpr
    (by decide +kernel) _ 2 _ (List.reverse_perm _) (Nat.le_refl 2) (by omega)
    (multiInline_some hsites hchosen)

/-- The sum `a+1` stands at 36, and `f_pi36` is already there. -/
theorem helper_defined_twice : ∃ ctx : Ctx, ctx.Parsed ∧ ∃ shuffled k edits,
    shuffled.Perm (inlineSites ctx) ∧ 2 ≤ k ∧ k ≤ min 5 (inlineSites ctx).length ∧
    pMultiInline ctx shuffled k = some edits ∧
    ¬Applicable ctx (multiChosen k [] shuffled) edits := by
  have hpick : 2 ≤ (multiChosen 2 [] (inlineSites (unitCtx "f_pi36")).reverse).length ∧
      2 ≤ (inlineSites (unitCtx "f_pi36")).length ∧
      ∃ c ∈ multiChosen 2 [] (inlineSites (unitCtx "f_pi36")).reverse,
        c.hid ∈ definedFunctions (unitCtx "f_pi36").root := by decide +kernel
  obtain ⟨hchosen, hsites, c, hc, htaken⟩ := hpick
  exact ⟨unitCtx "f_pi36", unitCtx_parsed (by decide), _, 2, _, List.reverse_perm _, Nat.le_refl 2,
    by omega, multiInline_some hsites hchosen, fun happ => happ.fresh c hc htaken⟩

end MeleeHarness.SrcMutate.Cst
