import Smil.Proofs.Grammar

/-!
# The nodes of a tree

A tree is looked at node by node: the trees right below a node, the sigils that can introduce a node
of its kind, and whether the trees below are of the kinds that their places ask for.
-/

namespace Smil.Expr

/-- The nodes right below a node. -/
def children : Expr → List Expr
  | namedVar name _ => [name]
  | assign target source _ => [target, source]
  | binary left _ right _ => [left, right]
  | print args _ => args
  | push e _ | lengthOf e _ => [e]
  | pop target _ => [target]
  | loop condition thenBody elseBody _ => condition :: (thenBody ++ elseBody)
  | comment .. | input .. | var .. | hello _ | nop _ | exit .. | clear _ | unknown _ => []

/-- `NodeOf x e` says that `x` is a node of the tree `e`, at any depth. -/
inductive NodeOf (x : Expr) : Expr → Prop
  | root : NodeOf x x
  | inside {child e : Expr} (hchild : child ∈ e.children) (h : NodeOf x child) : NodeOf x e

/-- The sigils that introduce a node of this kind. A name that is computed may be negated or not. -/
def sigils : Expr → List Sigil
  | comment .. => [.comment]
  | input .. => [.input]
  | var _ false _ => [.varStart]
  | var _ true _ => [.negatedVarStart]
  | namedVar .. => [.varStart, .negatedVarStart]
  | assign .. => [.assign]
  | binary _ op _ _ => [.operator op]
  | print .. => [.printStart]
  | hello _ => [.hello]
  | nop _ => [.nop]
  | exit .. => [.exit]
  | push .. => [.stackPush]
  | pop .. => [.stackPop]
  | clear _ => [.stackClear]
  | loop .. => [.loopStart]
  | lengthOf .. => [.lengthOf]
  | unknown _ => []

/-- The index of a node that is an input. -/
def index? : Expr → Option Nat
  | input index _ => some index
  | _ => none

/-- An expression that is no operator with its sides. -/
def IsOperand (e : Expr) : Prop :=
  e.tightness = 3

/-- The trees right below a node are of the kinds that their places ask for, and the node itself is
no unknown token. -/
def ChildrenFit : Expr → Prop
  | namedVar name _ => name.yieldsValue = true
  | assign target source _ => target.isAssignable = true ∧ source.yieldsValue = true
  | binary left _ right _ => left.yieldsValue = true ∧ right.yieldsValue = true
  | print args _ => ∀ arg ∈ args, arg.yieldsValue = true
  | push e _ | lengthOf e _ => e.yieldsValue = true
  | pop target _ => target.isAssignable = true
  | loop condition thenBody elseBody _ => condition.yieldsValue = true ∧
    (∀ stmt ∈ thenBody, stmt.isStatement = true) ∧ ∀ stmt ∈ elseBody, stmt.isStatement = true
  | comment .. | input .. | var .. | hello _ | nop _ | exit .. | clear _ => True
  | unknown _ => False

end Smil.Expr
