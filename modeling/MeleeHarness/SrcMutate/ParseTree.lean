import MeleeHarness.Lib.SyntaxTree
import MeleeHarness.Permute.Edits

/-!
# The parse tree of a translation unit

What the passes that cut and paste text see: the nodes that the parser gives, with their
types, their fields and their places in the source.
-/

namespace MeleeHarness.SrcMutate.Cst

open Lib

/-- The types of nodes that the passes tell apart. -/
inductive NodeType where
  | identifier | numberLiteral | comment
  | binaryExpression | callExpression | fieldExpression | castExpression | subscriptExpression
  | unaryExpression | pointerExpression | parenthesizedExpression | assignmentExpression
  | updateExpression | conditionalExpression | sizeofExpression | argumentList
  | functionDefinition | declaration | initDeclarator | functionDeclarator | pointerDeclarator
  | arrayDeclarator | parenthesizedDeclarator | parameterList | parameterDeclaration
  | attributeSpecifier | msCallModifier | msDeclspecModifier | sizedTypeSpecifier
  | storageClassSpecifier | typeQualifier | primitiveType | typeIdentifier
  | expressionStatement | ifStatement | forStatement | whileStatement | doStatement
  | switchStatement | returnStatement | compoundStatement | breakStatement | continueStatement
  | labeledStatement | gotoStatement
  | translationUnit
  | other (name : Text)
  deriving DecidableEq, Repr

inductive FieldName where
  | declarator | body | type | value | argument | operator | left | right | function | arguments
  | parameters | size
  | other (name : Text)
  deriving DecidableEq, Repr

abbrev Tree := SyntaxTree NodeType FieldName

abbrev Place := Spot NodeType FieldName

abbrev Node := Located NodeType FieldName

def stmtTypes : List NodeType :=
  [.expressionStatement, .ifStatement, .forStatement, .whileStatement, .doStatement,
    .switchStatement, .returnStatement, .compoundStatement, .breakStatement, .continueStatement,
    .labeledStatement, .gotoStatement]

def tempExprTypes : List NodeType :=
  [.binaryExpression, .callExpression, .fieldExpression, .castExpression, .subscriptExpression,
    .unaryExpression, .pointerExpression]

def mark (s : String) : Tree := .token none (.other s.toList) false (ascii s)

def ident (label : Option FieldName) (s : String) : Tree := .token label .identifier true (ascii s)

/-- The node has one of the types. -/
def isA (types : List NodeType) (s : Place) : Bool := s.type?.any (· ∈ types)

theorem isA_subset {types types' : List NodeType} (hsub : types ⊆ types') {s : Place}
    (h : isA types s = true) : isA types' s = true := by
  obtain ⟨type, htype, hmem⟩ := (Option.any_eq_true _ _).mp h
  exact (Option.any_eq_true _ _).mpr ⟨type, htype, decide_eq_true (hsub (of_decide_eq_true hmem))⟩

/-- The source, the function to be changed in it, and what clang says of spans. -/
structure Ctx where
  root : Tree
  fn : Node
  types : Option (Nat × Nat → Option Text)

def Ctx.src (ctx : Ctx) : Bytes := ctx.root.text

def top (root : Tree) : Node := ⟨[], 0, root⟩

def encode (t : Text) : Bytes := t.flatMap String.utf8EncodeChar

def decimal (n : Nat) : Bytes := (Nat.toDigits 10 n).map fun c => c.toNat.toUInt8

/-! ## Loops down the tree -/

/-- What a loop does at a node: it is done, or it goes on with a child. -/
inductive Move (α : Type) where
  | found (a : α)
  | child (i : Nat)
  | stuck

mutual

def descend {α : Type} (f : Place → Move α) (pos : Nat) : Tree → Option α
  | .node label type children =>
    match f ⟨pos, .node label type children⟩ with
    | .found a => some a
    | .child i => descendAt f pos i children
    | .stuck => none
  | t =>
    match f ⟨pos, t⟩ with
    | .found a => some a
    | _ => none

def descendAt {α : Type} (f : Place → Move α) (pos : Nat) : Nat → List Tree → Option α
  | _, [] => none
  | 0, t :: _ => descend f pos t
  | i + 1, t :: rest => descendAt f (pos + t.size) i rest

end

def toField {α : Type} (s : Place) (f : FieldName) : Move α :=
  match s.tree.children.findIdx? (·.label = some f) with
  | some i => .child i
  | none => .stuck

/-- `field(s, f) or only_named(s)` -/
def toFieldOrNamed {α : Type} (s : Place) (f : FieldName) : Move α :=
  match s.tree.children.findIdx? (·.label = some f) with
  | some i => .child i
  | none =>
    match s.tree.children.findIdx? (·.isNamed) with
    | some i => .child i
    | none => .stuck

mutual

theorem descend_named {f : Place → Move Place} (hf : ∀ s d, f s = .found d → d = s) {d : Place}
    (hd : d.tree.isNamed = true) : ∀ (t : Tree) (parents : List Place) (pos : Nat),
    descend f pos t = some d →
      t.isNamed = true ∧ f d = .found d ∧ ∃ above, Under ⟨parents, pos, t⟩ ⟨above, d⟩
  | .gap text, parents, pos, h => by
    rw [descend] at h
    · split at h
      · rename_i e hfound
        obtain rfl := Option.some.inj h
        obtain rfl := hf _ _ hfound
        exact ⟨hd, hfound, parents, .self⟩
      · cases h
    · simp
  | .token label type named text, parents, pos, h => by
    rw [descend] at h
    · split at h
      · rename_i e hfound
        obtain rfl := Option.some.inj h
        obtain rfl := hf _ _ hfound
        exact ⟨hd, hfound, parents, .self⟩
      · cases h
    · simp
  | .node label type children, parents, pos, h => by
    refine ⟨rfl, ?_⟩
    rw [descend] at h
    split at h
    · rename_i e hfound
      obtain rfl := Option.some.inj h
      obtain rfl := hf _ _ hfound
      exact ⟨hfound, parents, .self⟩
    · rename_i k hchild
      obtain ⟨c, hc, hnamed, hfound, above, hunder⟩ := descendAt_named hf hd children
        (⟨pos, .node label type children⟩ :: parents) pos k h
      have hmem : c ∈ (⟨pos, .node label type children⟩ : Place).namedChildren :=
        List.mem_filter.mpr ⟨hc, hnamed⟩
      exact ⟨hfound, above, (Under.child .self hmem).trans hunder⟩
    · cases h

theorem descendAt_named {f : Place → Move Place} (hf : ∀ s d, f s = .found d → d = s) {d : Place}
    (hd : d.tree.isNamed = true) : ∀ (ts : List Tree) (parents : List Place) (pos k : Nat),
    descendAt f pos k ts = some d → ∃ c ∈ Spot.spotsFrom pos ts, c.tree.isNamed = true ∧
      f d = .found d ∧ ∃ above, Under ⟨parents, c⟩ ⟨above, d⟩
  | [], _, _, _, h => by
    rw [descendAt] at h
    cases h
  | t :: ts, parents, pos, 0, h => by
    rw [descendAt] at h
    obtain ⟨hnamed, hunder⟩ := descend_named hf hd t parents pos h
    exact ⟨⟨pos, t⟩, List.mem_cons_self, hnamed, hunder⟩
  | t :: ts, parents, pos, k + 1, h => by
    rw [descendAt] at h
    obtain ⟨c, hc, hrest⟩ := descendAt_named hf hd ts parents (pos + t.size) k h
    exact ⟨c, List.mem_cons_of_mem _ hc, hrest⟩

end

/-- The identifier that is found by following the `declarator` fields. -/
def declIdentifierNode (s : Place) : Option Place :=
  descend (fun d => if isA [.identifier] d then .found d else toField d .declarator) s.start s.tree

def declaredName (s : Place) : Option Bytes := (declIdentifierNode s).map Spot.text

def fnNameOf (s : Place) : Option Bytes := declaredName s

def functionDeclaratorOf (s : Place) : Option Place :=
  descend (fun d => if isA [.functionDeclarator] d then .found d else toField d .declarator) s.start s.tree

/-- The declarator of the definition is a node of the unit. -/
theorem functionDeclaratorOf_under {root : Tree} {fn : Node} (hfn : Under (top root) fn)
    {fdecl : Place} (h : functionDeclaratorOf fn.spot = some fdecl)
    (hnamed : fdecl.tree.isNamed = true) : isA [.functionDeclarator] fdecl = true ∧
      ∃ above, Under (top root) ⟨above, fdecl⟩ := by
  have hf : ∀ s d : Place, (if isA [.functionDeclarator] s then Move.found s
      else toField s .declarator) = .found d → isA [.functionDeclarator] s = true ∧ d = s := by
    intro s d hfound
    split at hfound
    · rename_i htype
      exact ⟨htype, (Move.found.inj hfound).symm⟩
    · simp only [toField] at hfound
      split at hfound
      · cases hfound
      · cases hfound
  obtain ⟨-, hfound, above, hunder⟩ := descend_named (fun s d hsd => (hf s d hsd).2) hnamed fn.spot.tree
    fn.parents fn.spot.start h
  exact ⟨(hf _ _ hfound).1, above, hfn.trans hunder⟩

/-- The leftmost identifier that an lvalue is rooted at. -/
def exprBaseId (s : Place) : Option Bytes :=
  descend (fun cur =>
    if isA [.identifier] cur then .found cur.text
    else if isA [.fieldExpression] cur then toField cur .argument
    else if isA [.subscriptExpression, .parenthesizedExpression, .pointerExpression] cur then
      toFieldOrNamed cur .argument
    else if isA [.castExpression] cur then toField cur .value
    else .stuck) s.start s.tree

def fieldText (s : Place) (f : FieldName) : Option Bytes := (s.field f).map Spot.text

/-- The variable whose own storage a write to an lvalue modifies. -/
def storageBase (s : Place) : Option Bytes :=
  descend (fun cur =>
    if isA [.identifier] cur then .found cur.text
    else if isA [.fieldExpression] cur then
      if fieldText cur .operator = some (ascii "->") then .stuck else toField cur .argument
    else if isA [.parenthesizedExpression, .subscriptExpression] cur then
      toFieldOrNamed cur .argument
    else if isA [.castExpression] cur then toField cur .value
    else .stuck) s.start s.tree

/-! ## Declarations -/

/-- The children of a declaration that are not its type. -/
def declarators (d : Place) : List Place :=
  d.namedChildren.filter fun c => (d.field .type).map Spot.span ≠ some c.span

def parameterNodes (fn : Place) : List Place :=
  match (functionDeclaratorOf fn).bind (·.field .parameters) with
  | some list => list.namedChildren.filter (isA [.parameterDeclaration])
  | none => []

def declarationNodes (fn : Node) : List Node := fn.iterSubtree.filter fun n => isA [.declaration] n.spot

/-- The names of the parameters of a function and of the declarations in it. -/
def localNames (fn : Node) : List Bytes :=
  (parameterNodes fn.spot).filterMap declaredName ++
    (declarationNodes fn).flatMap fun d => (declarators d.spot).filterMap declaredName

def bodyOf (fn : Place) : Option Place := fn.field .body

/-- The names of the functions that are defined in the unit. -/
def definedFunctions (root : Tree) : List Bytes :=
  ((top root).iterSubtree.filter fun n => isA [.functionDefinition] n.spot).filterMap
    fun n => fnNameOf n.spot

end MeleeHarness.SrcMutate.Cst
