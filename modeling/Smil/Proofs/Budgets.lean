import Smil.Proofs.Consumption

/-!
# Budgets are never used up

The readers of programs nest and repeat on a budget. Any budget of at least the number of unread
characters gives the same answer, be it a result or an error: what is read inside a construct or in
one turn of a loop takes characters, so the budget falls no faster than the text does, and where no
text is left the answer is that at the end of the input. So it is the text alone that ends reading.
-/

namespace Smil.Expr.Parser

/-! ### Readers that agree -/

/-- Two readers answer the same wherever at most `n` characters are unread. -/
def Agree {α : Type} (n : Nat) (x y : Reader α) : Prop :=
  ∀ s, s.cursor.rest.length ≤ n → x s = y s

namespace Agree

variable {α β : Type} {n m : Nat} {x y z : Reader α}

/-- A reader agrees with itself. -/
theorem refl (n : Nat) (x : Reader α) : Agree n x x :=
  fun _ _ => rfl

/-- Two readers agree if they do so with a third. -/
theorem of_common (hx : Agree n z x) (hy : Agree n z y) : Agree n x y :=
  fun s hs => (hx s hs).symm.trans (hy s hs)

/-- Only the first steps differ. -/
theorem before (hx : Agree n x y) (f : α → Reader β) : Agree n (x >>= f) (y >>= f) := by
  intro s hs
  change Except.bind (x s) _ = Except.bind (y s) _
  rw [hx s hs]

end Agree

/-- Readers of which the first leaves no more to read than there was, and that answer the same as
long as there is room for what is unread. -/
def agreement : ReaderLogic where
  toKnowledge := shrinking.toKnowledge
  Judged n s x y P := shrinking.Holds s x P ∧ (s.cursor.rest.length ≤ n → x s = y s)
  judged_pure h := ⟨shrinking.logic.judged_pure (n := 0) h, fun _ => rfl⟩
  judged_throw hplace hcause :=
    ⟨shrinking.logic.judged_throw (n := 0) hplace hcause, fun _ => rfl⟩
  judged_bind {_ _ n s x y f g P Q} hx hf := by
    refine ⟨hx.1.bind fun a s' hlater ha => (hf a s' hlater ha).1, fun hs => ?_⟩
    have hfirst := hx.2 hs
    cases hread : x s with
    | error e => rw [run_bind_of_error hread, run_bind_of_error (hfirst.symm.trans hread)]
    | ok r =>
      obtain ⟨⟨ha, hlater⟩, -⟩ := (hx.1 trivial).1 r.1 r.2 hread
      rw [run_bind_of_ok hread, run_bind_of_ok (hfirst.symm.trans hread)]
      exact (hf r.1 r.2 hlater ha).2 (Nat.le_trans hlater hs)
  judged_mono hm h := ⟨h.1, fun hs => h.2 (Nat.le_trans hs hm)⟩
  judged_end h heq :=
    ⟨h.1, fun hs => heq (List.length_eq_zero_iff.mp (Nat.le_zero.mp hs))⟩
  judged_nextToken := ⟨ReaderInvariant.holds_nextToken, fun _ => rfl⟩
  judged_token {_ n s f g Q} hend h := by
    refine ⟨shrinking.logic.judged_token (n := 0) (g := g)
      (fun token s' hlater htaken hkind => (hend token s' hlater htaken hkind).1)
      fun token s' hlater htaken hkind => (h token s' hlater htaken hkind).1, fun hs => ?_⟩
    rw [run_bind_of_ok (nextToken_eq s), run_bind_of_ok (nextToken_eq s)]
    have hlater : shrinking.Later s s.pastToken := s.cursor.readsTo_token.length_le
    by_cases hkind : s.cursor.token.1.kind = .endOfInput
    · exact (hend _ s.pastToken hlater trivial hkind).2 (Nat.le_trans hlater hs)
    · have hlt : s.pastToken.cursor.rest.length + 2 ≤ s.cursor.rest.length :=
        Cursor.length_token_add_two_le hkind
      exact (h _ s.pastToken hlater trivial hkind).2 (by omega)
  judged_peekToken := ⟨shrinking.logic.judged_peekToken (n := 0), fun _ => rfl⟩
  judged_setPending he := ⟨shrinking.logic.judged_setPending (n := 0) he, fun _ => rfl⟩
  judged_pendingExpr := ⟨shrinking.logic.judged_pendingExpr (n := 0), fun _ => rfl⟩
  judged_countSoFar := ⟨shrinking.logic.judged_countSoFar (n := 0), fun _ => rfl⟩
  judged_nameOrNested hplace :=
    ⟨shrinking.logic.judged_nameOrNested (n := 0) hplace, fun _ => rfl⟩
  judged_inputIndex htaken hkind :=
    ⟨shrinking.logic.judged_inputIndex (n := 0) htaken hkind, fun _ => rfl⟩
  judged_lineText := ⟨shrinking.logic.judged_lineText (n := 0), fun _ => rfl⟩

/-- Readers that are judged to agree do so. -/
theorem agree_of_judged {α : Type} {n : Nat} {x y : Reader α} {P : α → Reading → Prop}
    (h : ∀ s, agreement.Judged n s x y P) : Agree n x y :=
  fun s => (h s).2

/-- Readers that agree and take characters can be read inside constructs. -/
theorem Agree.ready {n : Nat} {sub sub' : Reader Expr} (hsub : Agree n sub sub')
    (htakes : Consumes 2 sub fun _ => True) : agreement.Ready n sub sub' where
  read s := ⟨(htakes.ready n).read s, hsub s⟩
  turn {_ k s f g Q} hk h := by
    refine ⟨(htakes.ready n).turn (g := g) hk fun e s' hlater he => (h e s' hlater he).1, ?_⟩
    intro hs
    have hfirst := hsub s (Nat.le_trans hs hk)
    cases hread : sub s with
    | error e => rw [run_bind_of_error hread, run_bind_of_error (hfirst.symm.trans hread)]
    | ok r =>
      have hle := (htakes s r.1 r.2 hread).2
      have hlater : r.2.cursor.rest.length ≤ s.cursor.rest.length := by omega
      rw [run_bind_of_ok hread, run_bind_of_ok (hfirst.symm.trans hread)]
      exact (h r.1 r.2 hlater trivial).2 (by omega)

/-! ### Constructs -/

section Constructs

variable {n : Nat} {sub sub' : Reader Expr} {budget budget' : Nat} (hsub : Agree n sub sub')
  (htakes : Consumes 2 sub fun _ => True) (hbudget : n ≤ budget) (hbudget' : n ≤ budget')

include hsub

/-- Values agree as the expressions do. -/
theorem agree_value : Agree n (value sub) (value sub') :=
  hsub.before _

include htakes

/-- Operands agree. -/
theorem agree_operand : Agree n (operand sub) (operand sub') :=
  agree_of_judged fun _ => ReaderLogic.judged_operand (hsub.ready htakes)

include hbudget hbudget'

/-- Two budgets give the same if both give what the least budget gives. -/
theorem agree_of_least {α : Type} {x : Reader Expr → Nat → Reader α} {P : α → Reading → Prop}
    (h : ∀ {sub' budget}, agreement.Ready n sub sub' → n ≤ budget →
      ∀ s, agreement.Judged n s (x sub n) (x sub' budget) P) :
    Agree n (x sub budget) (x sub' budget') := by
  have hown := agree_of_judged (h ((Agree.refl n sub).ready htakes) hbudget)
  have hother := agree_of_judged (h (hsub.ready htakes) hbudget')
  exact hown.of_common hother

/-- The arguments of a print agree. -/
theorem agree_printArgs (span : Span) (args : List Expr) :
    Agree n (printArgs sub span budget args) (printArgs sub' span budget' args) := by
  apply agree_of_least hsub htakes hbudget hbudget'
  intro sub' budget hready hbudget s
  exact ReaderLogic.judged_printArgs hready trivial hbudget

/-- The conditions of a loop agree. -/
theorem agree_loopCondition (span : Span) (last : Option Expr) :
    Agree n (loopCondition sub span budget last) (loopCondition sub' span budget' last) := by
  apply agree_of_least hsub htakes hbudget hbudget'
  intro sub' budget hready hbudget s
  exact ReaderLogic.judged_loopCondition hready trivial hbudget fun _ _ => trivial

/-- The sections of a loop agree. -/
theorem agree_loopSection (closing : Sigil) (span : Span) (body : List Expr) :
    Agree n (loopSection sub closing span budget body)
      (loopSection sub' closing span budget' body) := by
  apply agree_of_least hsub htakes hbudget hbudget'
  intro sub' budget hready hbudget s
  exact ReaderLogic.judged_loopSection hready closing trivial hbudget

/-- The statements of a program agree. -/
theorem agree_statementsFrom (body : List Expr) :
    Agree n (statementsFrom sub budget body) (statementsFrom sub' budget' body) := by
  apply agree_of_least hsub htakes hbudget hbudget'
  intro sub' budget hready hbudget s
  exact ReaderLogic.judged_statementsFrom hready hbudget

end Constructs

/-! ### Whole programs -/

variable {n budget budget' : Nat}

/-- With enough budget for the text, it does not matter how much more there is. -/
theorem agree_expression (hbudget : n ≤ budget) (hbudget' : n ≤ budget') :
    Agree n (expression budget) (expression budget') := by
  have hown := agree_of_judged (ReaderLogic.ready_expression (L := agreement) hbudget).read
  have hother := agree_of_judged (ReaderLogic.ready_expression (L := agreement) hbudget').read
  exact hown.of_common hother

/-- A program is the same with any budget that is enough for its text. -/
theorem agree_program (hbudget : n ≤ budget) (hbudget' : n ≤ budget') :
    Agree n (program budget) (program budget') := by
  have hown := agree_of_judged fun _ => ReaderLogic.judged_program (L := agreement) hbudget
  have hother := agree_of_judged fun _ => ReaderLogic.judged_program (L := agreement) hbudget'
  exact hown.of_common hother

end Smil.Expr.Parser
