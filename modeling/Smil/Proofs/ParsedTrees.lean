import Smil.Proofs.ReaderInvariants

/-!
# The shape of trees that are read

Every tree that is read has the right kind of node at every place and at every depth: statements in
lists of statements, values as operands, variables as targets, and no unknown tokens. The reader
checks this node by node, with one exception. The target of an assignment is whatever was pending,
so the invariant of reading is that the pending expression has the right shape as well.
-/

namespace Smil.Expr

mutual

/-- Whether every node below a tree is of the kind that its place asks for, and none is unknown. -/
@[simp] def isSound : Expr → Bool
  | namedVar name _ => name.yieldsValue && name.isSound
  | assign target source _ =>
    target.isAssignable && target.isSound && (source.yieldsValue && source.isSound)
  | binary left _ right _ =>
    left.yieldsValue && left.isSound && (right.yieldsValue && right.isSound)
  | print args _ => valuesSound args
  | push e _ | lengthOf e _ => e.yieldsValue && e.isSound
  | pop target _ => target.isAssignable && target.isSound
  | loop condition thenBody elseBody _ =>
    condition.yieldsValue && condition.isSound &&
      (statementsSound thenBody && statementsSound elseBody)
  | comment .. | input .. | var .. | hello _ | nop _ | exit .. | clear _ => true
  | unknown _ => false

/-- Whether all of several trees are values with the right shape. -/
@[simp] def valuesSound : List Expr → Bool
  | [] => true
  | e :: es => e.yieldsValue && e.isSound && valuesSound es

/-- Whether all of several trees are statements with the right shape. -/
@[simp] def statementsSound : List Expr → Bool
  | [] => true
  | e :: es => e.isStatement && e.isSound && statementsSound es

end

/-- A value with the right shape. -/
def SoundValue (e : Expr) : Prop :=
  e.yieldsValue = true ∧ e.isSound = true

/-- A statement with the right shape. -/
def SoundStatement (e : Expr) : Prop :=
  e.isStatement = true ∧ e.isSound = true

/-- A target with the right shape. -/
def SoundTarget (e : Expr) : Prop :=
  e.isAssignable = true ∧ e.isSound = true

/-- All values of a list are sound if each of them is. -/
theorem valuesSound_iff {es : List Expr} : valuesSound es = true ↔ ∀ e ∈ es, SoundValue e := by
  induction es with
  | nil => simp [valuesSound]
  | cons e es ih => simp [valuesSound, ih, SoundValue]

/-- All statements of a list are sound if each of them is. -/
theorem statementsSound_iff {es : List Expr} :
    statementsSound es = true ↔ ∀ e ∈ es, SoundStatement e := by
  induction es with
  | nil => simp [statementsSound]
  | cons e es ih => simp [statementsSound, ih, SoundStatement]

/-- What names a variable is a value. -/
theorem SoundTarget.soundValue {e : Expr} (h : e.SoundTarget) : e.SoundValue := by
  refine ⟨?_, h.2⟩
  cases e with
  | var name inverted span => rfl
  | namedVar name span => rfl
  | _ => cases h.1

section

variable {e target left right condition : Expr} {args thenBody elseBody : List Expr}
  {op : Operator} {span : Span}

/-- What names a variable has to be a value. -/
theorem isSound_namedVar : (namedVar e span).isSound = true ↔ e.SoundValue := by
  simp [isSound, SoundValue]

/-- An assignment is of a value to something that can be assigned to. -/
theorem isSound_assign :
    (assign target e span).isSound = true ↔ target.SoundTarget ∧ e.SoundValue := by
  simp [isSound, SoundTarget, SoundValue]

/-- Both sides of an operator have to be values. -/
theorem isSound_binary :
    (binary left op right span).isSound = true ↔ left.SoundValue ∧ right.SoundValue := by
  simp [isSound, SoundValue]

/-- What is printed has to be values. -/
theorem isSound_print : (print args span).isSound = true ↔ ∀ arg ∈ args, arg.SoundValue := by
  rw [isSound, valuesSound_iff]

/-- What is pushed has to be a value. -/
theorem isSound_push : (push e span).isSound = true ↔ e.SoundValue := by
  simp [isSound, SoundValue]

/-- A length is that of a value. -/
theorem isSound_lengthOf : (lengthOf e span).isSound = true ↔ e.SoundValue := by
  simp [isSound, SoundValue]

/-- A pop is into something that can be assigned to. -/
theorem isSound_pop : (pop target span).isSound = true ↔ target.SoundTarget := by
  simp [isSound, SoundTarget]

/-- The condition of a loop has to be a value, and its bodies hold statements. -/
theorem isSound_loop :
    (loop condition thenBody elseBody span).isSound = true ↔ condition.SoundValue ∧
      (∀ stmt ∈ thenBody, stmt.SoundStatement) ∧ ∀ stmt ∈ elseBody, stmt.SoundStatement := by
  rw [isSound, ← statementsSound_iff, ← statementsSound_iff]
  simp [SoundValue]

end

/-- A tree has the right shape if its children fit and have the right shape themselves. -/
theorem isSound_of_children {e : Expr} (hfit : e.ChildrenFit)
    (hchildren : ∀ child ∈ e.children, child.isSound = true) : e.isSound = true := by
  cases e with
  | namedVar name span => exact isSound_namedVar.mpr ⟨hfit, hchildren name (by simp [children])⟩
  | assign target source span =>
    exact isSound_assign.mpr ⟨⟨hfit.1, hchildren target (by simp [children])⟩,
      hfit.2, hchildren source (by simp [children])⟩
  | binary left op right span =>
    exact isSound_binary.mpr ⟨⟨hfit.1, hchildren left (by simp [children])⟩,
      hfit.2, hchildren right (by simp [children])⟩
  | print args span => exact isSound_print.mpr fun arg harg => ⟨hfit arg harg, hchildren arg harg⟩
  | push e span => exact isSound_push.mpr ⟨hfit, hchildren e (by simp [children])⟩
  | lengthOf e span => exact isSound_lengthOf.mpr ⟨hfit, hchildren e (by simp [children])⟩
  | pop target span => exact isSound_pop.mpr ⟨hfit, hchildren target (by simp [children])⟩
  | loop condition thenBody elseBody span =>
    obtain ⟨hcondition, hthen, helse⟩ := hfit
    refine isSound_loop.mpr ⟨⟨hcondition, hchildren condition (by simp [children])⟩, ?_, ?_⟩
    · exact fun stmt hstmt => ⟨hthen stmt hstmt, hchildren stmt (by simp [children, hstmt])⟩
    · exact fun stmt hstmt => ⟨helse stmt hstmt, hchildren stmt (by simp [children, hstmt])⟩
  | unknown token => exact hfit.elim
  | _ => rfl

namespace Parser

/-- The pending expression, if there is one, has the right shape. -/
def Reading.Sound (s : Reading) : Prop :=
  ∀ e ∈ s.pending, e.isSound = true

/-- Trees of the right shape: the reader checks each node when it is built, and the pending
expression has been checked before. -/
def shape : ReaderInvariant where
  Kept := Reading.Sound
  Failure _ := True
  Later _ _ := True
  Known e _ := e.isSound = true
  Seen _ := True
  Taken _ _ := True
  Place _ := True
  later_trans _ _ := trivial
  known_later h _ := h
  seen_of_taken _ := trivial
  place_of_seen _ := trivial
  place_of_known _ := trivial
  known_node _ _ _ _ := isSound_of_children
  later_refl _ := trivial
  kept_cursor hs _ := ⟨hs, trivial⟩
  taken_token _ := trivial
  kept_pending _ he := ⟨fun _ hpending => Option.some.inj hpending ▸ he, trivial⟩
  known_pending hs he := hs _ he
  kept_input hs _ _ := ⟨⟨hs, trivial⟩, rfl⟩
  failure _ _ := trivial

end Parser

end Smil.Expr

namespace Smil

/-- Every program that is read has the right shape. -/
theorem statementsSound_of_parse {source : String} {p : Program} (h : parse source = .ok p) :
    Expr.statementsSound p.statements = true := by
  have hstart : Expr.Parser.Reading.Sound ⟨Cursor.ofString source, none, 0⟩ := nofun
  obtain ⟨s, -, -, hstatements⟩ := (Expr.Parser.shape.of_parse hstart).1 p h
  exact Expr.statementsSound_iff.mpr fun stmt hstmt =>
    ⟨(hstatements stmt hstmt).2, (hstatements stmt hstmt).1⟩

end Smil
