import Smil.Expr.Basic
import Smil.Text.Blank

/-!
# Programs as text

The text of a tree is its sigils in order, with one space between any two. Not every tree has a
text of its own: there are no brackets, so an operator on the right of another must bind more
tightly, the operand of a length reaches to the end of the chain it stands in, and a nested name
is told from a plain one by the sigil that it starts with. The trees that keep to these rules are
the grammar of the language.
-/

namespace Smil

namespace Expr

/-! ### Trees without places -/

mutual

/-- A tree with every span taken away. -/
def erase : Expr → Expr
  | comment text _ => .comment text .nowhere
  | input index _ => .input index .nowhere
  | var name inverted _ => .var name inverted .nowhere
  | namedVar name _ => .namedVar name.erase .nowhere
  | assign target source _ => .assign target.erase source.erase .nowhere
  | binary left op right _ => .binary left.erase op right.erase .nowhere
  | print args _ => .print (eraseAll args) .nowhere
  | hello _ => .hello .nowhere
  | nop _ => .nop .nowhere
  | exit code _ => .exit code .nowhere
  | push e _ => .push e.erase .nowhere
  | pop target _ => .pop target.erase .nowhere
  | clear _ => .clear .nowhere
  | loop condition thenBody elseBody _ =>
    .loop condition.erase (eraseAll thenBody) (eraseAll elseBody) .nowhere
  | lengthOf operand _ => .lengthOf operand.erase .nowhere
  | unknown token => .unknown { token with span := .nowhere }

/-- Trees with every span taken away. -/
def eraseAll : List Expr → List Expr
  | [] => []
  | e :: es => e.erase :: eraseAll es

end

/-- Whether an expression is a value does not depend on where it stands. -/
@[simp] theorem yieldsValue_erase (e : Expr) : e.erase.yieldsValue = e.yieldsValue := by
  cases e <;> simp only [erase, yieldsValue]

/-- Whether an expression can be assigned to does not depend on where it stands. -/
@[simp] theorem isAssignable_erase (e : Expr) : e.erase.isAssignable = e.isAssignable := by
  cases e <;> simp only [erase, isAssignable]

/-- Whether an expression is a statement does not depend on where it stands. -/
@[simp] theorem isStatement_erase (e : Expr) : e.erase.isStatement = e.isStatement := by
  cases e <;> simp only [erase, isStatement]

/-! Trees that differ in their spans only are of the same kind. -/

/-- Trees that are the same up to places are values alike. -/
theorem yieldsValue_congr {e e' : Expr} (h : e.erase = e'.erase) :
    e.yieldsValue = e'.yieldsValue := by
  rw [← yieldsValue_erase, h, yieldsValue_erase]

/-- Trees that are the same up to places can be assigned to alike. -/
theorem isAssignable_congr {e e' : Expr} (h : e.erase = e'.erase) :
    e.isAssignable = e'.isAssignable := by
  rw [← isAssignable_erase, h, isAssignable_erase]

/-- Trees that are the same up to places are statements alike. -/
theorem isStatement_congr {e e' : Expr} (h : e.erase = e'.erase) :
    e.isStatement = e'.isStatement := by
  rw [← isStatement_erase, h, isStatement_erase]

/-! ### Inputs -/

mutual

/-- One more than the highest index of an input in a tree. -/
def inputs : Expr → Nat
  | input index _ => index + 1
  | namedVar name _ => name.inputs
  | assign target source _ => max target.inputs source.inputs
  | binary left _ right _ => max left.inputs right.inputs
  | print args _ => inputsAll args
  | push e _ | pop e _ | lengthOf e _ => e.inputs
  | loop condition thenBody elseBody _ =>
    max condition.inputs (max (inputsAll thenBody) (inputsAll elseBody))
  | comment .. | var .. | hello _ | nop _ | exit .. | clear _ | unknown _ => 0

/-- One more than the highest index of an input in several trees. -/
def inputsAll : List Expr → Nat
  | [] => 0
  | e :: es => max e.inputs (inputsAll es)

end

/-! ### Text -/

mutual

/-- The text of a tree. -/
def text : Expr → List Char
  | input index _ => (List.replicate (index + 1) Sigil.input.text.toList).flatten
  | var name inverted _ =>
    (if inverted then Sigil.negatedVarStart else Sigil.varStart).text.toList ++
      (name.toList ++ Sigil.varEnd.text.toList)
  | namedVar name _ =>
    Sigil.varStart.text.toList ++ ' ' :: (name.text ++ ' ' :: Sigil.varEnd.text.toList)
  | assign target source _ => target.text ++ ' ' :: (Sigil.assign.text.toList ++ ' ' :: source.text)
  | binary left op right _ =>
    left.text ++ ' ' :: ((Sigil.operator op).text.toList ++ ' ' :: right.text)
  | print args _ =>
    Sigil.printStart.text.toList ++ (texts args ++ ' ' :: Sigil.printEnd.text.toList)
  | hello _ => Sigil.hello.text.toList
  | exit .. => Sigil.exit.text.toList
  | push e _ => Sigil.stackPush.text.toList ++ ' ' :: e.text
  | pop target _ => Sigil.stackPop.text.toList ++ ' ' :: target.text
  | clear _ => Sigil.stackClear.text.toList
  | loop condition thenBody elseBody _ =>
    Sigil.loopStart.text.toList ++ ' ' :: (condition.text ++ ' ' ::
      (Sigil.loopThen.text.toList ++ (texts thenBody ++ ' ' ::
        (Sigil.loopElse.text.toList ++ (texts elseBody ++ ' ' :: Sigil.loopEnd.text.toList)))))
  | lengthOf operand _ => Sigil.lengthOf.text.toList ++ ' ' :: operand.text
  | comment .. | nop _ | unknown _ => []

/-- The texts of several trees, each with a space in front. -/
def texts : List Expr → List Char
  | [] => []
  | e :: es => ' ' :: (e.text ++ texts es)

end

/-! ### The grammar -/

/-- A text that can be the name of a variable: it has no white space around it, is not taken for
the start of a nested name, and does not hold the sigil that ends it. -/
structure IsName (name : String) : Prop where
  trimmed : Text.trim name = name
  notNested : ¬ Sigil.varStart.text.toList <+: name.toList
  notEnded : ¬ Sigil.varEnd.text.toList <:+: name.toList

/-- How tightly the outermost operator of a chain binds; a single operand binds tightest. -/
def tightness : Expr → Nat
  | binary _ op _ _ => op.precedence.rank
  | _ => 3

/-- Whether a chain ends with a length, which takes all operators that follow. -/
def endsInLength : Expr → Bool
  | binary _ _ right _ => right.endsInLength
  | lengthOf .. => true
  | _ => false

/-- Whether a chain starts with the sigil of a variable that is not inverted. -/
def opensName : Expr → Bool
  | binary left _ _ _ => left.opensName
  | var _ inverted _ => !inverted
  | namedVar .. => true
  | _ => false

/-- Where a value may stand: in an operator chain, or where nothing goes on. -/
inductive Role where
  | chained
  | whole

/-- The values of the grammar. A pop reads its target as an expression of its own, so it is no
operand of an operator. -/
inductive IsTerm : Role → Expr → Prop
  | var {name : String} (inverted : Bool) (span : Span) (hname : IsName name) :
      IsTerm .chained (.var name inverted span)
  | namedVar {name : Expr} (span : Span) (hname : IsTerm .chained name)
      (hopens : name.opensName = true) : IsTerm .chained (.namedVar name span)
  | input (index : Nat) (span : Span) : IsTerm .chained (.input index span)
  | lengthOf {operand : Expr} (span : Span) (hoperand : IsTerm .whole operand) :
      IsTerm .chained (.lengthOf operand span)
  | binary {left right : Expr} (op : Operator) (span : Span) (hleft : IsTerm .chained left)
      (hright : IsTerm .chained right) (hends : left.endsInLength = false)
      (hlooser : op.precedence.rank ≤ left.tightness)
      (htighter : op.precedence.rank < right.tightness) :
      IsTerm .chained (.binary left op right span)
  | chain {e : Expr} (h : IsTerm .chained e) : IsTerm .whole e
  | pop {target : Expr} (span : Span) (htarget : IsTerm .chained target)
      (hassignable : target.isAssignable = true) : IsTerm .whole (.pop target span)

/-- The assignments of the grammar. -/
inductive IsAssign : Expr → Prop
  | intro {target source : Expr} (span : Span) (htarget : IsTerm .chained target)
      (hassignable : target.isAssignable = true) (hsource : IsTerm .whole source) :
      IsAssign (.assign target source span)

/-- The statements of the grammar. -/
inductive IsSentence : Expr → Prop
  | assign {e : Expr} (h : IsAssign e) : IsSentence e
  | print {args : List Expr} (span : Span) (hargs : ∀ arg ∈ args, IsTerm .whole arg) :
      IsSentence (.print args span)
  | hello (span : Span) : IsSentence (.hello span)
  | exit (span : Span) : IsSentence (.exit 0 span)
  | push {e : Expr} (span : Span) (he : IsTerm .whole e) : IsSentence (.push e span)
  | pop {target : Expr} (span : Span) (htarget : IsTerm .chained target)
      (hassignable : target.isAssignable = true) : IsSentence (.pop target span)
  | clear (span : Span) : IsSentence (.clear span)
  | loop {condition : Expr} {thenBody elseBody : List Expr} (span : Span)
      (hcondition : IsTerm .whole condition ∨ IsAssign condition)
      (hthen : ∀ stmt ∈ thenBody, IsSentence stmt) (helse : ∀ stmt ∈ elseBody, IsSentence stmt) :
      IsSentence (.loop condition thenBody elseBody span)

end Expr

namespace Program

/-- The words of a program: the texts of its statements, with a start marker in front and an end
marker behind them if asked for. -/
def words (start stop : Bool) (p : Program) : List (List Char) :=
  (if start then [Sigil.programStart.text.toList] else []) ++
    (p.statements.map Expr.text ++ if stop then [Sigil.programEnd.text.toList] else [])

/-- The text of a program, with one space between any two words. -/
def render (start stop : Bool) (p : Program) : String :=
  String.ofList ([' '].intercalate (p.words start stop))

end Program

end Smil
