import Smil.Proofs.Budgets
import Smil.Proofs.Descent
import Smil.Proofs.Scanning

/-!
# What calls come to

What a call of the machine with open calls comes to is said in the words of the readers. A loop is
entered in the middle, with what it has read so far, so the readers of names and of inputs are
restated to start there. Any budget that is not less than the number of unread characters gives the
same, which makes it an outcome of the call alone.
-/

namespace Smil

namespace Expr.Parser

variable {n : Nat} {sub sub' : Reader Expr} {budget budget' : Nat}

/-! ### Loops from the middle -/

/-- Reads a variable behind what has been read of its name, which is in reverse. -/
def nameFrom (sub : Reader Expr) (inverted : Bool) (span : Span) (read : List Char) :
    Reader Expr := do
  let s ← get
  match scanName s.cursor.rest read s.cursor.position with
  | .closed name after =>
    set { s with cursor := after }
    return .var (String.ofList (Text.trimChars name)) inverted span
  | .nested inside =>
    set { s with cursor := inside }
    let name ← value sub
    expectSigil .varEnd
    return .namedVar name span
  | .unterminated | .missing => throw (.placed (.unterminated "variable") span)

/-- Reads an input behind some of its sigils, which have led to `index`. -/
def inputsFrom (span : Span) (index : Nat) : Reader Expr := do
  let s ← get
  let last := inputRun index s.cursor.rest
  set { s with
    cursor := s.cursor.skip (2 * (last - index)), inputCount := max s.inputCount (last + 1) }
  return .input last span

/-- A further sigil raises the index. -/
theorem inputsFrom_sigil (span : Span) (index : Nat) (tail : List Char) (position : Position)
    (pending : Option Expr) (count : Nat) :
    inputsFrom span index ⟨⟨':' :: '$' :: tail, position⟩, pending, count⟩ =
      inputsFrom span (index + 1)
        ⟨⟨tail, (position.after ':').after '$'⟩, pending, count⟩ := by
  obtain ⟨more, _, hlast, _⟩ := exists_inputRun (index + 1) tail
  have hlast' : inputRun index (':' :: '$' :: tail) = index + 1 + more := by rw [inputRun, hlast]
  have hleft : index + 1 + more - index = more + 1 := by omega
  have hleft' : index + 1 + more - (index + 1) = more := by omega
  unfold inputsFrom
  rw [run_bind_of_ok (x := get) rfl, run_bind_of_ok (x := get) rfl]
  dsimp only
  rw [hlast, hlast', hleft, hleft']
  rfl

/-- Where no further sigil stands, the index is that of the input. -/
theorem inputsFrom_end (span : Span) (index : Nat) {s : Reading}
    (h : ¬ Sigil.input.text.toList <+: s.cursor.rest) :
    inputsFrom span index s =
      .ok (.input index span, { s with inputCount := max s.inputCount (index + 1) }) := by
  have hlast : inputRun index s.cursor.rest = index := inputRun_append 0 index h
  unfold inputsFrom
  rw [run_bind_of_ok (x := get) rfl, hlast, Nat.sub_self]
  rfl

/-- A nested name starts no earlier than the name. -/
theorem length_of_nested {rest name : List Char} {position : Position} {inside : Cursor}
    (h : scanName rest name position = .nested inside) : inside.rest.length ≤ rest.length := by
  have hcursor : (scanName rest name position).cursor? = some inside := by
    rw [h]
    rfl
  exact (readsTo_scanName hcursor).length_le

section NameFrom

variable {inverted : Bool} {span : Span} {read : List Char} {s : Reading}

/-- A name that is closed, behind a part of it that has been read. -/
theorem nameFrom_of_closed {name : List Char} {after : Cursor}
    (h : scanName s.cursor.rest read s.cursor.position = .closed name after) :
    nameFrom sub inverted span read s =
      .ok (.var (String.ofList (Text.trimChars name)) inverted span,
        { s with cursor := after }) := by
  unfold nameFrom
  rw [run_bind_of_ok (x := get) rfl, h]
  rfl

/-- A name that turns out to be an expression. -/
theorem nameFrom_of_nested {inside : Cursor}
    (h : scanName s.cursor.rest read s.cursor.position = .nested inside) :
    nameFrom sub inverted span read s = (do
      let name ← value sub
      expectSigil .varEnd
      return .namedVar name span : Reader Expr) { s with cursor := inside } := by
  unfold nameFrom
  rw [run_bind_of_ok (x := get) rfl, h]
  rfl

/-- A name that is not closed. -/
theorem nameFrom_of_unterminated
    (h : scanName s.cursor.rest read s.cursor.position = .unterminated) :
    nameFrom sub inverted span read s = .error (.placed (.unterminated "variable") span) := by
  unfold nameFrom
  rw [run_bind_of_ok (x := get) rfl, h]
  rfl

/-- Behind a part of a name the budget makes no difference either. -/
theorem agree_nameFrom (hsub : Agree n sub sub') :
    Agree n (nameFrom sub inverted span read) (nameFrom sub' inverted span read) := by
  intro s hs
  cases hscan : scanName s.cursor.rest read s.cursor.position with
  | closed name after => rw [nameFrom_of_closed hscan, nameFrom_of_closed hscan]
  | nested inside =>
    rw [nameFrom_of_nested hscan, nameFrom_of_nested hscan]
    exact (agree_value hsub).before _ _ (Nat.le_trans (length_of_nested hscan) hs)
  | unterminated => rw [nameFrom_of_unterminated hscan, nameFrom_of_unterminated hscan]
  | missing => exact absurd hscan (scanName_ne_missing _ _ _)

/-- A character that belongs to the name is read first. -/
theorem nameFrom_cons {c : Char} {rest : List Char} {position : Position} {pending : Option Expr}
    {count : Nat}
    (h : scanName (c :: rest) read position = scanName rest (c :: read) (position.after c)) :
    nameFrom sub inverted span read ⟨⟨c :: rest, position⟩, pending, count⟩ =
      nameFrom sub inverted span (c :: read) ⟨⟨rest, position.after c⟩, pending, count⟩ := by
  unfold nameFrom
  rw [run_bind_of_ok (x := get) rfl, run_bind_of_ok (x := get) rfl, h]
  cases scanName rest (c :: read) (position.after c) <;> rfl

end NameFrom

/-- A chain is closed where no text is left. -/
theorem operators_at_end {s : Reading} (h : s.cursor.rest = []) (first : Operator × Span)
    (yard : Yard) : operators sub first budget yard s = (yard.tree first : Reader Expr) s := by
  cases budget with
  | zero => rfl
  | succ budget => rw [operators, run_bind_of_ok (peekOperator_at_end h)]

/-- The operators and operands that continue a chain, whatever has been read of it. -/
theorem judged_operators {s : Reading} (hsub : agreement.Ready n sub sub') (hbudget : n ≤ budget)
    (first : Operator × Span) (yard : Yard) :
    agreement.Judged n s (operators sub first n yard) (operators sub' first budget yard)
      fun _ _ => True := by
  have htree : ∀ {k s} {yard : Yard}, agreement.Judged k s (yard.tree first : Reader Expr)
      (yard.tree first : Reader Expr) fun _ _ => True :=
    ⟨(consumes_tree _ first).holds _, fun _ => rfl⟩
  induction n generalizing s budget yard with
  | zero =>
    apply agreement.judged_end htree
    intro hrest
    exact (operators_at_end hrest first yard).symm
  | succ n ih =>
    obtain ⟨budget, rfl⟩ := Nat.exists_eq_succ_of_ne_zero (Nat.ne_zero_of_lt hbudget)
    apply agreement.judged_bind ReaderLogic.judged_peekOperator
    intro found s₁ _ _
    cases found with
    | none => exact htree
    | some operator =>
      apply agreement.judged_bind (ReaderLogic.judged_discard agreement.judged_nextToken)
      intro _ s₂ _ _
      apply ReaderLogic.judged_operand_turn hsub (Nat.lt_succ_self n)
      intro e s₃ _ _
      exact ih (hsub.mono (Nat.le_succ n)) (Nat.le_of_succ_le_succ hbudget) _

/-- Chains agree. -/
theorem agree_operators (hsub : Agree n sub sub') (htakes : Consumes 2 sub fun _ => True)
    (hbudget : n ≤ budget) (hbudget' : n ≤ budget') (first : Operator × Span) (yard : Yard) :
    Agree n (operators sub first budget yard) (operators sub' first budget' yard) := by
  apply agree_of_least hsub htakes hbudget hbudget'
  intro sub' budget hready hbudget s
  exact judged_operators hready hbudget first yard

end Expr.Parser

namespace Descent

open Expr.Parser

/-! ### What a call comes to -/

namespace Outcome

variable {α β : Type} {s : Reading}

/-- What a reader comes to, if it is gone on from its result. -/
def ofRead (r : Reader α) (s : Reading) (next : α → Reading → Outcome) : Outcome :=
  match r s with
  | .ok (a, s) => next a s
  | .error e => .fail e

/-- Goes on from an answer. -/
def andThen : Outcome → (Expr → Reading → Outcome) → Outcome
  | answer e s, next => next e s
  | finish program, _ => finish program
  | fail error, _ => fail error

/-- Going on from an answer by giving it changes nothing. -/
theorem andThen_answer (o : Outcome) : o.andThen answer = o := by
  cases o <;> rfl

/-- A reader with a result is gone on from it. -/
theorem ofRead_of_ok {r : Reader α} {a : α} {s' : Reading} (h : r s = .ok (a, s'))
    (next : α → Reading → Outcome) : ofRead r s next = next a s' := by
  unfold ofRead
  rw [h]

/-- A reader that fails ends everything. -/
theorem ofRead_of_error {r : Reader α} {e : Error} (h : r s = .error e)
    (next : α → Reading → Outcome) : ofRead r s next = .fail e := by
  unfold ofRead
  rw [h]

/-- Going on twice is going on by both in turn. -/
theorem ofRead_andThen (r : Reader α) (s : Reading) (next : α → Reading → Outcome)
    (next' : Expr → Reading → Outcome) :
    (ofRead r s next).andThen next' = ofRead r s fun a s => (next a s).andThen next' := by
  cases hread : r s with
  | error e => rw [ofRead_of_error hread, ofRead_of_error hread, andThen]
  | ok result => rw [ofRead_of_ok hread, ofRead_of_ok hread]

/-- Two readers in a row come to what the first does, followed by the second. -/
theorem ofRead_bind (x : Reader α) (f : α → Reader β) (s : Reading)
    (next : β → Reading → Outcome) :
    ofRead (x >>= f) s next = ofRead x s fun a s => ofRead (f a) s next := by
  cases hread : x s with
  | error e => rw [ofRead_of_error (run_bind_of_error hread), ofRead_of_error hread]
  | ok result =>
    rw [ofRead_of_ok hread]
    unfold ofRead
    rw [run_bind_of_ok hread]

/-- Readers with the same result come to the same. -/
theorem ofRead_eq_of_eq {r r' : Reader α} {s' : Reading} (h : r s = r' s')
    (next : α → Reading → Outcome) : ofRead r s next = ofRead r' s' next := by
  unfold ofRead
  rw [h]

/-- Readers that agree come to the same. -/
theorem ofRead_of_agree {n : Nat} {r r' : Reader α} (hr : Agree n r r') (hs : s.unread ≤ n)
    (next : α → Reading → Outcome) : ofRead r s next = ofRead r' s next :=
  ofRead_eq_of_eq (hr s hs) next

/-- What follows may differ where a reader cannot stop. -/
theorem ofRead_congr {m : Nat} {r : Reader α} {P : α → Prop} (htakes : Consumes m r P)
    {next next' : α → Reading → Outcome}
    (h : ∀ a s', s'.unread + m ≤ s.unread → next a s' = next' a s') :
    ofRead r s next = ofRead r s next' := by
  cases hread : r s with
  | error e => rw [ofRead_of_error hread, ofRead_of_error hread]
  | ok result =>
    rw [ofRead_of_ok hread, ofRead_of_ok hread]
    exact h _ _ (htakes s result.1 result.2 hread).2

end Outcome

open Outcome

/-- What a body of a loop leads to. -/
def branchEnd (budget : Nat) (span : Span) : Branch → List Expr → Reading → Outcome
  | .first condition, thenBody, s =>
    ofRead (loopSection (expression budget) .loopEnd span budget []) s fun elseBody s =>
      .answer (.loop condition thenBody elseBody span) s
  | .second condition thenBody, elseBody, s => .answer (.loop condition thenBody elseBody span) s

/-- What the conditions of a loop lead to. -/
def conditionEnd (budget : Nat) (span : Span) : Option Expr → Reading → Outcome
  | none, _ => .fail (.placed (.expectedValue "an empty loop condition") span)
  | some e, s =>
    ofRead (expectValue e) s fun condition s =>
      ofRead (loopSection (expression budget) .loopElse span budget []) s
        (branchEnd budget span (.first condition))

/-- What a call at a point comes to, in the words of the readers. -/
def outcomeAt (budget : Nat) : Point → Reading → Outcome
  | .program, s => ofRead (program budget) s fun program _ => .finish program
  | .statements body, s =>
    ofRead (statementsFrom (expression budget) budget body) s fun body s =>
      .finish ⟨body, s.inputCount⟩
  | .expression, s => ofRead (expression budget) s .answer
  | .operand, s => ofRead (operand (expression budget)) s .answer
  | .name inverted span read, s =>
    ofRead (nameFrom (expression budget) inverted span read) s .answer
  | .inputs span index, s => ofRead (inputsFrom span index) s .answer
  | .arguments span args, s =>
    ofRead (printArgs (expression budget) span budget args) s fun args s =>
      .answer (.print args span) s
  | .conditions span last, s =>
    ofRead (loopCondition (expression budget) span budget last) s (conditionEnd budget span)
  | .branch part span body, s =>
    ofRead (loopSection (expression budget) part.closing span budget body) s
      (branchEnd budget span part)
  | .chain first yard, s => ofRead (operators (expression budget) first budget yard) s .answer

/-- What a call at a point comes to. -/
def outcome (p : Point) (s : Reading) : Outcome :=
  outcomeAt s.unread p s

section Enough

variable {budget budget' : Nat} {s : Reading} (hbudget : s.unread ≤ budget)
  (hbudget' : s.unread ≤ budget')

include hbudget hbudget'

/-- What follows a body is the same with any budget that suffices. -/
theorem branchEnd_eq (span : Span) (part : Branch) (body : List Expr) :
    branchEnd budget span part body s = branchEnd budget' span part body s := by
  cases part with
  | first condition =>
    have hagree := agree_loopSection (agree_expression hbudget hbudget')
      (consumes_expression budget) hbudget hbudget' .loopEnd span []
    exact ofRead_of_agree hagree (Nat.le_refl _) _
  | second condition thenBody => rfl

/-- What follows the conditions is the same with any budget that suffices. -/
theorem conditionEnd_eq (span : Span) (last : Option Expr) :
    conditionEnd budget span last s = conditionEnd budget' span last s := by
  cases last with
  | none => rfl
  | some e =>
    apply ofRead_congr (consumes_expectValue e)
    intro condition s' hs'
    have hle : s'.unread ≤ budget := Nat.le_trans hs' hbudget
    have hle' : s'.unread ≤ budget' := Nat.le_trans hs' hbudget'
    rw [ofRead_of_agree (agree_loopSection (agree_expression hle hle')
      (consumes_expression budget) hle hle' .loopElse span []) (Nat.le_refl _)]
    have htakes' := consumes_expression budget'
    apply ofRead_congr (consumes_loopSection htakes' .loopElse span budget' [])
    intro thenBody s'' hs''
    exact branchEnd_eq (Nat.le_trans hs'' hle) (Nat.le_trans hs'' hle') span _ thenBody

/-- Any two budgets do that are not less than the number of unread characters. -/
theorem outcomeAt_eq (p : Point) : outcomeAt budget p s = outcomeAt budget' p s := by
  have hsub := agree_expression hbudget hbudget'
  have htakes := consumes_expression budget
  have htakes' := consumes_expression budget'
  cases p with
  | program => exact ofRead_of_agree (agree_program hbudget hbudget') (Nat.le_refl _) _
  | statements body =>
    exact ofRead_of_agree (agree_statementsFrom hsub htakes hbudget hbudget' body) (Nat.le_refl _) _
  | expression => exact ofRead_of_agree hsub (Nat.le_refl _) _
  | operand => exact ofRead_of_agree (agree_operand hsub htakes) (Nat.le_refl _) _
  | name inverted span read =>
    exact ofRead_of_agree (agree_nameFrom hsub) (Nat.le_refl _) _
  | inputs span index => rfl
  | arguments span args =>
    exact ofRead_of_agree (agree_printArgs hsub htakes hbudget hbudget' span args) (Nat.le_refl _) _
  | conditions span last =>
    have hagree := agree_loopCondition hsub htakes hbudget hbudget' span last
    rw [outcomeAt, outcomeAt, ofRead_of_agree hagree (Nat.le_refl _)]
    apply ofRead_congr (consumes_loopCondition htakes' span budget' last)
    intro last s' hs'
    exact conditionEnd_eq (Nat.le_trans hs' hbudget) (Nat.le_trans hs' hbudget') span last
  | branch part span body =>
    have hagree := agree_loopSection hsub htakes hbudget hbudget' part.closing span body
    rw [outcomeAt, outcomeAt, ofRead_of_agree hagree (Nat.le_refl _)]
    apply ofRead_congr (consumes_loopSection htakes' part.closing span budget' body)
    intro body s' hs'
    exact branchEnd_eq (Nat.le_trans hs' hbudget) (Nat.le_trans hs' hbudget') span part body
  | chain first yard =>
    have hagree := agree_operators hsub htakes hbudget hbudget' first yard
    exact ofRead_of_agree hagree (Nat.le_refl _) _

end Enough

end Descent

end Smil
