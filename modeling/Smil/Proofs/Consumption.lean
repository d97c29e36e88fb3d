import Smil.Proofs.ReaderInvariants

/-!
# How much is read

A reader that succeeds has taken the characters of its sigils. An expression and an operand take two
characters or more, whatever budget they are read with, so a budget of the number of unread
characters is enough for a loop that reads one after another. What is read as an operand is never
itself an operator with its sides.
-/

namespace Smil

/-! ### Tokens -/

namespace Cursor

/-- A token right at the cursor takes two characters or more, except at the end of the input. -/
theorem length_scan_add_two_le (c : Cursor) :
    c.scan.1.kind ≠ .endOfInput → c.scan.2.rest.length + 2 ≤ c.rest.length := by
  unfold scan
  split
  · rename_i rest hrest
    simp only [cut, skip, hrest, List.drop, List.length_cons]
    omega
  · rename_i a b rest _ hrest
    simp only [cut, skip, hrest, List.drop, List.length_cons]
    omega
  · exact fun h => absurd rfl h

/-- A token takes two characters or more, except at the end of the input. -/
theorem length_token_add_two_le {c : Cursor} (h : c.token.1.kind ≠ .endOfInput) :
    c.token.2.rest.length + 2 ≤ c.rest.length :=
  Nat.le_trans (length_scan_add_two_le _ h) (c.readsTo_skipWhile isGap).length_le

end Cursor

namespace Expr.Parser

/-! ### Readers that consume -/

/-- Whenever a reader succeeds, its result has a property and at least `n` characters have been
read. -/
def Consumes {α : Type} (n : Nat) (r : Reader α) (P : α → Prop) : Prop :=
  ∀ s a s', r s = .ok (a, s') → P a ∧ s'.cursor.rest.length + n ≤ s.cursor.rest.length

variable {α : Type} {n m : Nat} {P : α → Prop}

/-- A reader that consumes so much consumes less. -/
theorem Consumes.mono {x : Reader α} (hx : Consumes n x P) (h : m ≤ n) : Consumes m x P := by
  intro s a s' hread
  obtain ⟨ha, hle⟩ := hx s a s' hread
  exact ⟨ha, by omega⟩

/-- What is left to read does not get longer. -/
def shrinking : ReaderInvariant where
  Kept _ := True
  Failure _ := True
  Later s s' := s'.cursor.rest.length ≤ s.cursor.rest.length
  Known _ _ := True
  Seen _ := True
  Taken _ _ := True
  Place _ := True
  later_trans h h' := Nat.le_trans h' h
  known_later _ _ := trivial
  seen_of_taken _ := trivial
  place_of_seen _ := trivial
  place_of_known _ := trivial
  known_node _ _ _ _ _ _ := trivial
  later_refl _ := Nat.le_refl _
  kept_cursor _ hc := ⟨trivial, hc.length_le⟩
  taken_token _ := trivial
  kept_pending _ _ := ⟨trivial, Nat.le_refl _⟩
  known_pending _ _ := trivial
  kept_input {s _} _ _ _ := ⟨⟨trivial, (s.cursor.readsTo_skip _).length_le⟩, trivial⟩
  failure _ _ := trivial

/-- A reader that leaves no more to read than there was. -/
theorem consumes_of_judged {r : Reader α} {Q : α → Reading → Prop}
    (h : ∀ s, shrinking.logic.Judged 0 s r r Q) (hP : ∀ a s', Q a s' → P a) : Consumes 0 r P := by
  intro s a s' hread
  obtain ⟨⟨ha, hle⟩, -⟩ := (h s trivial).1 a s' hread
  exact ⟨hP a s' ha, hle⟩

/-- A reader that consumes something leaves no more to read than there was. -/
theorem Consumes.holds {r : Reader α} (h : Consumes n r P) (s : Reading) :
    shrinking.Holds s r fun a _ => P a := by
  intro _
  refine ⟨?_, fun _ _ => trivial⟩
  intro a s' hread
  exact ⟨h.mono (Nat.zero_le n) s a s' hread, trivial⟩

/-- Readers inside constructs only have to leave no more to read. -/
theorem Consumes.ready {sub : Reader Expr} (h : Consumes n sub fun _ => True) (budget : Nat) :
    shrinking.logic.Ready budget sub sub :=
  shrinking.ready h.holds budget

/-! ### Tokens, the pending expression and the checks -/

/-- The next token is the one at the cursor, and the cursor moves behind it. -/
theorem nextToken_eq (s : Reading) : nextToken s = .ok (s.cursor.token.1, s.pastToken) := rfl

/-- Looking at a token leaves the state as it is. -/
theorem peekToken_eq (s : Reading) : peekToken s = .ok (s.cursor.token.1, s) := rfl

/-- Reading a token takes nothing or more. -/
theorem consumes_nextToken : Consumes 0 nextToken fun _ => True :=
  consumes_of_judged (fun _ => shrinking.logic.judged_nextToken) fun _ _ _ => trivial

/-- A token that is not the end of the input takes two characters. -/
theorem two_le_of_nextToken {s s' : Reading} {token : Token} (h : nextToken s = .ok (token, s'))
    (hkind : token.kind ≠ .endOfInput) : s'.cursor.rest.length + 2 ≤ s.cursor.rest.length := by
  cases h
  exact Cursor.length_token_add_two_le hkind

/-- A reader that starts with a token and fails at the end of the input takes two characters. -/
theorem consumes_token {f : Token → Reader α}
    (hend : ∀ token s, token.kind = .endOfInput → ∃ e, f token s = .error e)
    (hf : ∀ token, Consumes 0 (f token) P) : Consumes 2 (nextToken >>= f) P := by
  intro s a s' hread
  obtain ⟨token, s₁, htoken, hrest⟩ := ok_of_run_bind hread
  by_cases hkind : token.kind = .endOfInput
  · obtain ⟨e, hfails⟩ := hend token s₁ hkind
    cases hfails.symm.trans hrest
  · have hle := two_le_of_nextToken htoken hkind
    obtain ⟨ha, hle'⟩ := hf token s₁ a s' hrest
    exact ⟨ha, by omega⟩

/-- Looking at an operator takes nothing. -/
theorem consumes_peekOperator : Consumes 0 peekOperator fun _ => True :=
  consumes_of_judged (fun _ => ReaderLogic.judged_peekOperator) fun _ _ _ => trivial

/-- Remembering an expression takes nothing. -/
theorem consumes_setPending (e : Expr) : Consumes 0 (setPending e) fun _ => True :=
  consumes_of_judged (fun _ => shrinking.logic.judged_setPending trivial) fun _ _ _ => trivial

/-- Adding to a body takes nothing. -/
theorem consumes_collect (e : Expr) (body : List Expr) :
    Consumes 0 (collect e body) fun _ => True :=
  consumes_of_judged (fun _ => ReaderLogic.judged_collect trivial) fun _ _ _ => trivial

/-- Accepting a value takes nothing. -/
theorem consumes_expectValue (e : Expr) : Consumes 0 (expectValue e) fun _ => True :=
  consumes_of_judged (fun _ => ReaderLogic.judged_expectValue trivial) fun _ _ _ => trivial

/-- Accepting a target takes nothing. -/
theorem consumes_expectAssignable (e : Expr) : Consumes 0 (expectAssignable e) fun _ => True :=
  consumes_of_judged (fun _ => ReaderLogic.judged_expectAssignable trivial) fun _ _ _ => trivial

/-- A sigil that is expected takes its characters. -/
theorem consumes_expectSigil (sigil : Sigil) : Consumes 2 (expectSigil sigil) fun _ => True := by
  apply consumes_token
  · intro token s hkind
    rw [if_neg (by rw [hkind]; exact Token.Kind.noConfusion)]
    exact ⟨_, rfl⟩
  · intro token s a s' hread
    split at hread
    · cases hread
      exact ⟨trivial, Nat.le_refl _⟩
    · cases hread

/-- A comment takes the rest of its line. -/
theorem consumes_commentLine (span : Span) : Consumes 0 (commentLine span) fun _ => True := by
  intro s e s' hread
  cases hread
  exact ⟨trivial, s.cursor.readsTo_readLine.length_le⟩

/-- Building the tree of a chain takes nothing. -/
theorem consumes_tree (yard : Yard) (first : Operator × Span) :
    Consumes 0 (yard.tree first : Reader Expr) fun _ => True := by
  intro s e s' hread
  change (yard.tree first >>= fun e => .ok (e, s)) = .ok (e, s') at hread
  cases htree : yard.tree first with
  | error error =>
    rw [htree] at hread
    cases hread
  | ok tree =>
    rw [htree] at hread
    cases hread
    exact ⟨trivial, Nat.le_refl _⟩

/-! ### Constructs -/

section Constructs

variable {sub : Reader Expr} (hsub : Consumes n sub fun _ => True)

include hsub

/-- The conditions of a loop take nothing or more. -/
theorem consumes_loopCondition (span : Span) (budget : Nat) (last : Option Expr) :
    Consumes 0 (loopCondition sub span budget last) fun _ => True :=
  consumes_of_judged (fun _ => ReaderLogic.judged_loopCondition (hsub.ready budget) trivial
    (Nat.le_refl _) fun _ _ => trivial) fun _ _ _ => trivial

/-- A section of a loop takes nothing or more. -/
theorem consumes_loopSection (closing : Sigil) (span : Span) (budget : Nat) (body : List Expr) :
    Consumes 0 (loopSection sub closing span budget body) fun _ => True :=
  consumes_of_judged (fun _ => ReaderLogic.judged_loopSection (hsub.ready budget) closing trivial
    (Nat.le_refl _)) fun _ _ _ => trivial

/-- What a sigil introduces is never an operator with its sides. -/
theorem consumes_construct (budget : Nat) (token : Token) :
    Consumes 0 (construct sub budget token) IsOperand :=
  consumes_of_judged (fun _ => ReaderLogic.judged_construct (hsub.ready budget) trivial
    (Nat.le_refl _)) fun _ _ he => he.2

/-- An operand takes two characters or more. -/
theorem consumes_operand : Consumes 2 (operand sub) IsOperand := by
  rw [operand_eq]
  apply consumes_token
  · intro token s hkind
    unfold operandBehind
    rw [hkind]
    exact ⟨_, rfl⟩
  · intro token
    exact consumes_of_judged (fun _ => ReaderLogic.judged_operandBehind (hsub.ready 0) trivial)
      fun _ _ he => he.2

/-- A construct with the chain that it may start takes two characters or more. -/
theorem consumes_chained (budget : Nat) : Consumes 2 (chained sub budget) fun _ => True := by
  rw [chained_eq]
  apply consumes_token
  · intro token s hkind
    unfold behindToken construct
    rw [hkind, run_bind_of_error (x := unexpected token) rfl]
    exact ⟨_, rfl⟩
  · intro token
    exact consumes_of_judged (fun _ => ReaderLogic.judged_behindToken (hsub.ready budget) trivial
      (Nat.le_refl _)) fun _ _ _ => trivial

end Constructs

/-- An expression takes two characters or more. -/
theorem consumes_expression (budget : Nat) : Consumes 2 (expression budget) fun _ => True := by
  induction budget with
  | zero =>
    intro s e s' hread
    cases hread
  | succ budget ih => exact consumes_chained ih budget

end Expr.Parser

end Smil
