import MeleeHarness.Lib.C.Call
import MeleeHarness.Lib.Run

/-!
# What the mutation passes see of a function

The expression nodes of a function with the parents they have in the parse tree, the
declarators that introduce its locals, and the types that clang gives for spans.
-/

namespace MeleeHarness.SrcMutate

open Lib Lib.C

/-- The types of expression nodes in the grammar. -/
inductive NodeType where
  | literal
  | identifier
  | unaryExpression
  | binaryExpression
  | conditionalExpression
  | commaExpression
  | assignmentExpression
  | updateExpression
  | pointerExpression
  | fieldExpression
  | subscriptExpression
  | castExpression
  | sizeofExpression
  | parenthesizedExpression
  | callExpression
  deriving DecidableEq, Repr

def kindType : Kind → NodeType
  | .unary _ => .unaryExpression
  | .binary _ => .binaryExpression
  | .conditional => .conditionalExpression
  | .comma => .commaExpression
  | .assignment _ => .assignmentExpression
  | .update _ _ => .updateExpression
  | .addressOf | .deref => .pointerExpression
  | .field _ | .arrow _ => .fieldExpression
  | .subscript => .subscriptExpression
  | .cast _ => .castExpression
  | .sizeof _ => .sizeofExpression
  | .parenthesized => .parenthesizedExpression
  | .call => .callExpression

def nodeType : Expr → NodeType
  | .val _ => .literal
  | .ident _ => .identifier
  | .node k _ => kindType k

def tempExprTypes : List NodeType :=
  [.binaryExpression, .callExpression, .fieldExpression, .castExpression, .subscriptExpression,
    .unaryExpression, .pointerExpression]

def usableTempType (typ : Text) : Bool :=
  typ ≠ [] ∧ typ ≠ "void".toList ∧ !typ.any (· ∈ ['(', '[', '\x7b'])

/-! ## Declarators -/

inductive Declarator where
  | identifier (x : Name)
  | pointer (d : Declarator)
  | array (d : Declarator)
  | function (d : Declarator)
  | init (d : Declarator)
  | parenthesized (d : Declarator)

/-- The name that a declarator introduces. -/
def Declarator.name : Declarator → Name
  | .identifier x => x
  | .pointer d | .array d | .function d | .init d | .parenthesized d => d.name

/-- The name that is found by following the `declarator` fields; the grammar has no
such field for what stands in parentheses. -/
def declaredName : Declarator → Option Name
  | .identifier x => some x
  | .pointer d | .array d | .function d | .init d => declaredName d
  | .parenthesized _ => none

theorem declaredName_eq {d : Declarator} {x : Name} (h : declaredName d = some x) : d.name = x := by
  induction d with
  | identifier y => exact Option.some.inj h
  | pointer d ih | array d ih | function d ih | init d ih => exact ih h
  | parenthesized => cases h

/-! ## Nodes -/

/-- What the whole expression belongs to. -/
inductive Holder where
  | expressionStatement
  | other
  deriving DecidableEq, Repr

abbrev Span := Nat × Nat

/-- An expression node, its parents in the expression from the inside out, and the
spans of the nodes below it. -/
structure Node where
  holder : Holder
  parents : List Frame
  expr : Expr
  span : List Nat → Span

/-- A function: its name, the declarators of its parameters and of the declarations
in its body, and its expression nodes in the order in which they are visited. -/
structure Fn where
  name : Text
  params : List Declarator
  declarations : List Declarator
  nodes : List Node

def Fn.declarators (fn : Fn) : List Declarator := fn.params ++ fn.declarations

def localNames (fn : Fn) : List Name := fn.declarators.filterMap declaredName

structure Ctx where
  fn : Fn
  types : Option (Span → Option Text)

mutual

/-- The identifiers in an expression and the ways that lead to them, in the order in
which the nodes are visited. -/
def identifiers (way : List Nat) : Expr → List (List Nat × Name)
  | .val _ => []
  | .ident x => [(way, x)]
  | .node _ children => childIdentifiers way 0 children

def childIdentifiers (way : List Nat) (i : Nat) : List Expr → List (List Nat × Name)
  | [] => []
  | e :: rest => childIdentifiers way (i + 1) rest ++ identifiers (way ++ [i]) e

end

def occType (types : Span → Option Text) (spans : List Span) : Option Text :=
  (spans.filterMap types).find? (· ≠ [])

/-- The names found are those that the expression mentions. -/
theorem identifiers_names (e : Expr) (way : List Nat) :
    (identifiers way e).map Prod.snd = e.names := by
  induction e generalizing way with
  | val => rfl
  | ident => rfl
  | node k children ih =>
    have hchildren : ∀ i, (childIdentifiers way i children).map Prod.snd =
        (Expr.iterChildren children).filterMap Expr.ident? := by
      induction children with
      | nil => exact fun _ => rfl
      | cons c rest ihs =>
        intro i
        rw [childIdentifiers, List.map_append, ih c List.mem_cons_self,
          ihs (fun d hd => ih d (List.mem_cons_of_mem _ hd)), Expr.iterChildren,
          List.filterMap_append]
        rfl
    rw [identifiers, hchildren, Expr.names, Expr.iterSubtree]
    rfl

/-! ## A machine of unbounded integers -/

def plainUnary : UnaryOp → Val → Option Val
  | .plus, .int n => some (.int n)
  | .minus, .int n => some (.int (-n))
  | .bitNot, .int n => some (.int (-n - 1))
  | .not, .int n => some (.int (if n = 0 then 1 else 0))
  | _, _ => none

def plainBinary : ArithOp → Val → Val → Option Val
  | .add, .int a, .int b => some (.int (a + b))
  | .add, .ptr b off, .int d => some (.ptr b (off + d))
  | .sub, .int a, .int b => some (.int (a - b))
  | .mul, .int a, .int b => some (.int (a * b))
  | .lt, .int a, .int b => some (.int (if a < b then 1 else 0))
  | .eq, .int a, .int b => some (.int (if a = b then 1 else 0))
  | .ne, .int a, .int b => some (.int (if a = b then 0 else 1))
  | _, _, _ => none

def plainTruth : Val → Option Bool
  | .int n => some (n ≠ 0)
  | _ => some true

def noGlobals : Name → Option (Block ⊕ Val) := fun _ => none

def scalar (ty : String) (v : Val) : Obj := ⟨ty.toList, fun off => if off = 0 then some v else none⟩

/-- Scalars one apart, no conversion and no functions to call. -/
def plainMachine (global : Name → Option (Block ⊕ Val)) : Machine where
  unary := plainUnary
  binary := plainBinary
  truth := plainTruth
  convert _ v := some v
  offset _ := 0
  fit _ _ v := some v
  global := global
  call _ _ _ _ _ := False

end MeleeHarness.SrcMutate
