import Smil.Proofs.Outcomes

/-!
# Reading ends

The machine that reads with open calls comes to the answers of the readers. One turn of a call, with
the calls in it taken for what they come to, unfolds to one turn of a reader. Since whatever a call
does weighs less than the call, induction on the weight takes the machine from the start of a call
to its end, and from the start of a source to the program or the error that the source is read as.
-/

namespace Smil.Descent

open Expr.Parser Outcome

/-! ### What a script comes to -/

namespace Script

/-- What a script comes to, if its calls and its further turns come to what they do. -/
def outcome : Script → Outcome
  | done o => o
  | call p s next => (Descent.outcome p s).andThen fun e s => (next e s).outcome
  | again p s => Descent.outcome p s

/-- A script that starts with a reader comes to what the reader does, followed by the rest of the
script. -/
theorem outcome_reads {α : Type} (r : Reader α) (s : Reading) (next : α → Reading → Script) :
    (reads r s next).outcome = ofRead r s fun a s => (next a s).outcome := by
  unfold reads
  split
  · rename_i hread
    rw [ofRead_of_ok hread]
  · rename_i hread
    rw [ofRead_of_error hread]
    rfl

end Script

section Scripts

variable {α β : Type} {budget : Nat} {s : Reading}

/-- A call comes to what the readers do at its point, with any budget that suffices, followed by the
rest. -/
theorem outcome_call (h : s.unread ≤ budget) (p : Point) (next : Expr → Reading → Script) :
    (Script.call p s next).outcome =
      (outcomeAt budget p s).andThen fun e s => (next e s).outcome := by
  rw [outcomeAt_eq h (Nat.le_refl _)]
  rfl

/-- A further turn comes to what the readers do at its point. -/
theorem outcome_again (h : s.unread ≤ budget) (p : Point) :
    (Script.again p s).outcome = outcomeAt budget p s :=
  outcomeAt_eq (Nat.le_refl _) h p

section Sequences

variable {k : β → Reading → Outcome}

/-- A script that reads follows a reader that does so first. -/
theorem outcome_reads_bind {r : Reader α} {n : Nat} {P : α → Prop} (hr : Consumes n r P)
    {next : α → Reading → Script} {f : α → Reader β}
    (h : ∀ a s', s'.unread + n ≤ s.unread → (next a s').outcome = ofRead (f a) s' k) :
    (Script.reads r s next).outcome = ofRead (r >>= f) s k := by
  rw [Script.outcome_reads, ofRead_bind]
  exact ofRead_congr hr h

/-- A token that is taken and not looked at. -/
theorem outcome_discard {next : Token → Reading → Script} {f : PUnit → Reader β}
    (h : ∀ token s', s'.unread ≤ s.unread → (next token s').outcome = ofRead (f ()) s' k) :
    (Script.reads nextToken s next).outcome = ofRead (discard nextToken >>= f) s k := by
  rw [ofRead_bind, ofRead_of_ok (run_discard_of_ok (nextToken_eq s))]
  exact h _ _ s.cursor.readsTo_token.length_le

variable (h : s.unread ≤ budget) {next : Expr → Reading → Script} {f : Expr → Reader β}

include h

/-- A call follows the reader that it comes to. -/
theorem outcome_call_bind {p : Point} {r : Reader Expr}
    (hp : outcomeAt budget p s = ofRead r s .answer) {n : Nat} {P : Expr → Prop}
    (hr : Consumes n r P)
    (hnext : ∀ e s', s'.unread + n ≤ s.unread → (next e s').outcome = ofRead (f e) s' k) :
    (Script.call p s next).outcome = ofRead (r >>= f) s k := by
  rw [outcome_call h, hp, ofRead_andThen, ofRead_bind]
  exact ofRead_congr hr hnext

/-- A call for an expression does what the reader of expressions does. -/
theorem outcome_expression_call
    (hnext : ∀ e s', s'.unread ≤ s.unread → (next e s').outcome = ofRead (f e) s' k) :
    (Script.call .expression s next).outcome = ofRead (expression budget >>= f) s k :=
  outcome_call_bind h rfl ((consumes_expression budget).mono (Nat.zero_le 2)) hnext

/-- A call for a value does what the reader of values does. -/
theorem outcome_value
    (hnext : ∀ e s', s'.unread ≤ s.unread → (next e s').outcome = ofRead (f e) s' k) :
    (Script.value s next).outcome = ofRead (value (expression budget) >>= f) s k := by
  rw [value, bind_assoc]
  apply outcome_expression_call h
  intro e s' hs'
  apply outcome_reads_bind (consumes_expectValue e)
  intro e s'' hs''
  exact hnext e s'' (Nat.le_trans hs'' hs')

end Sequences

/-! ### Expressions and operands -/

/-- At the arguments of a print the readers do what a print does behind its sigil. -/
theorem outcomeAt_arguments (budget : Nat) (span : Span) (s : Reading) :
    outcomeAt budget (.arguments span []) s =
      ofRead (do
        return .print (← printArgs (expression budget) span budget []) span) s .answer := by
  rw [ofRead_bind]
  rfl

/-- At the conditions of a loop the readers do what a loop does behind its sigil. -/
theorem outcomeAt_conditions (budget : Nat) (span : Span) (s : Reading) :
    outcomeAt budget (.conditions span none) s =
      ofRead (loopStatement (expression budget) budget span) s .answer := by
  rw [loopStatement, ofRead_bind]
  apply congrArg (ofRead _ s)
  funext last s
  cases last with
  | none => rfl
  | some e =>
    simp only [ofRead_bind]
    rfl

variable (h : s.unread ≤ budget)

include h

/-- The script behind the token of an expression does what the reader behind this token does. -/
theorem outcome_construct (token : Token) {next : Expr → Reading → Script} {f : Expr → Reader Expr}
    (hnext : ∀ e s', s'.unread ≤ s.unread → (next e s').outcome = ofRead (f e) s' .answer) :
    (Script.construct token s next).outcome =
      ofRead (construct (expression budget) budget token >>= f) s .answer := by
  obtain ⟨kind, text, span⟩ := token
  have htakes := consumes_construct (consumes_expression budget) budget ⟨kind, text, span⟩
  have hhere : ∀ e, (next e s).outcome = ofRead (pure e >>= f) s .answer := by
    intro e
    rw [pure_bind]
    exact hnext e s (Nat.le_refl _)
  have hvalue : ∀ build : Expr → Expr,
      (Script.value s fun e s => next (build e) s).outcome =
        ofRead ((do return build (← value (expression budget))) >>= f) s .answer := by
    intro build
    rw [bind_assoc]
    apply outcome_value h
    intro e s' hs'
    rw [pure_bind]
    exact hnext (build e) s' hs'
  cases kind with
  | sigil sigil =>
    cases sigil with
    | varStart => exact outcome_call_bind h rfl htakes hnext
    | negatedVarStart => exact outcome_call_bind h rfl htakes hnext
    | input => exact outcome_call_bind h rfl htakes hnext
    | assign =>
      change (Script.construct _ s next).outcome =
        ofRead (assignment (expression budget) span >>= f) s .answer
      rw [assignment, bind_assoc, ofRead_bind, ofRead_of_ok (r := get) rfl, Script.construct]
      cases s.pending with
      | none => rfl
      | some e =>
        simp only [bind_assoc, pure_bind]
        apply outcome_reads_bind (consumes_expectAssignable e)
        intro target s' hs'
        apply outcome_value (Nat.le_trans hs' h)
        intro e s'' hs''
        exact hnext _ s'' (by omega)
    | comment =>
      apply outcome_reads_bind (consumes_commentLine span)
      intro e s' hs'
      exact hnext e s' hs'
    | printStart => exact outcome_call_bind h (outcomeAt_arguments budget span s) htakes hnext
    | hello => exact hhere _
    | nop => exact hhere _
    | exit => exact hhere _
    | stackPush => exact hvalue (.push · span)
    | stackPop =>
      change _ = ofRead ((do return .pop (← expectAssignable (← expression budget)) span) >>= f) s _
      simp only [bind_assoc, pure_bind]
      apply outcome_expression_call h
      intro e s' hs'
      apply outcome_reads_bind (consumes_expectAssignable e)
      intro target s'' hs''
      exact hnext _ s'' (by omega)
    | stackClear => exact hhere _
    | loopStart => exact outcome_call_bind h (outcomeAt_conditions budget span s) htakes hnext
    | lengthOf => exact hvalue (.lengthOf · span)
    | _ => rfl
  | unknown => rfl
  | endOfInput => rfl

/-- What may follow an expression. -/
theorem outcome_chained (e : Expr) :
    (Script.chained e s).outcome = ofRead (do
      match ← peekOperator with
      | none => return e
      | some first =>
        operators (expression budget) first budget (.single (← expectValue e))) s .answer := by
  apply outcome_reads_bind consumes_peekOperator
  intro found s' hs'
  cases found with
  | none => rfl
  | some first =>
    apply outcome_reads_bind (consumes_expectValue e)
    intro e s'' hs''
    have hle : s''.unread ≤ budget := Nat.le_trans hs'' (Nat.le_trans hs' h)
    rw [outcome_call hle]
    exact andThen_answer _

/-- The script of an expression does what one turn of the reader of expressions does. -/
theorem outcome_expression :
    (Script.expression s).outcome = ofRead (expression (budget + 1)) s .answer := by
  apply outcome_reads_bind consumes_nextToken
  intro token s' hs'
  have hle : s'.unread ≤ budget := Nat.le_trans hs' h
  apply outcome_construct hle token
  intro e s'' hs''
  exact outcome_chained (Nat.le_trans hs'' hle) e

/-- The script of an operand does what the reader of operands does. -/
theorem outcome_operand :
    (Script.operand s).outcome = ofRead (operand (expression budget)) s .answer := by
  apply outcome_reads_bind consumes_nextToken
  intro token s' hs'
  have hle : s'.unread ≤ budget := Nat.le_trans hs' h
  obtain ⟨kind, text, span⟩ := token
  cases kind with
  | sigil sigil =>
    cases sigil with
    | varStart => exact (outcome_call hle _ _).trans (andThen_answer _)
    | negatedVarStart => exact (outcome_call hle _ _).trans (andThen_answer _)
    | input => exact (outcome_call hle _ _).trans (andThen_answer _)
    | lengthOf =>
      apply outcome_value hle
      intro e s'' hs''
      rfl
    | _ => rfl
  | unknown => rfl
  | endOfInput => rfl

/-! ### Turns of loops -/

omit h in
/-- A token that is only looked at leaves the state as it is. -/
theorem ofRead_peekToken (f : Token → Reader α) (k : α → Reading → Outcome) :
    ofRead (peekToken >>= f) s k = ofRead (f s.cursor.peek) s k := by
  rw [ofRead_bind]
  rfl

omit h in
/-- A token that is neither the end of the text nor the end marker does not end a program. -/
theorem not_isEnd {kind : Token.Kind} (hend : kind = .endOfInput → False)
    (hmarker : kind = .sigil .programEnd → False) : ¬ Script.isEnd kind = true := by
  simp only [Script.isEnd, Bool.or_eq_true, decide_eq_true_eq]
  exact fun h => h.elim hend hmarker

/-- The script of a program behind some statements does what one turn of its loop does. -/
theorem outcome_statements (body : List Expr) : (Script.statements body s).outcome =
    ofRead (statementsFrom (expression budget) (budget + 1) body) s fun body s =>
      .finish ⟨body, s.inputCount⟩ := by
  rw [statementsFrom, ofRead_peekToken]
  split
  case h_1 hkind =>
    rw [Script.statements, hkind]
    rfl
  case h_2 hkind =>
    rw [Script.statements, hkind]
    rfl
  case h_3 hend hmarker =>
    rw [Script.statements, if_neg (not_isEnd hend hmarker)]
    apply outcome_expression_call h
    intro e s' hs'
    apply outcome_reads_bind (consumes_collect e body)
    intro body s'' hs''
    exact outcome_again (by omega) _

/-- The script of a program does what the reader of programs does. -/
theorem outcome_program :
    (Script.program s).outcome = ofRead (program budget) s fun program _ => .finish program := by
  have hstatements : ∀ s', s'.unread ≤ s.unread → (Script.again (.statements []) s').outcome =
      ofRead (do
        let statements ← statementsFrom (expression budget) budget []
        return ⟨statements, (← get).inputCount⟩) s' fun program _ => .finish program := by
    intro s' hs'
    rw [outcome_again (Nat.le_trans hs' h), ofRead_bind]
    rfl
  rw [program, ofRead_peekToken]
  unfold Script.program
  split
  · exact outcome_discard fun _ s' hs' => hstatements s' hs'
  · exact hstatements s (Nat.le_refl _)

/-- The script inside a name does what the reader behind the same part of the name does. -/
theorem outcome_name (inverted : Bool) (span : Span) (read : List Char) :
    (Script.name inverted span read s).outcome =
      ofRead (nameFrom (expression budget) inverted span read) s .answer := by
  obtain ⟨⟨rest, position⟩, pending, count⟩ := s
  unfold Script.name
  split
  case isTrue hclose =>
    have hscan : scanName rest read position =
        .closed read.reverse (Cursor.token ⟨rest, position⟩).2 := by
      unfold scanName
      rw [if_pos hclose]
    rw [ofRead_of_ok (nameFrom_of_closed hscan)]
    rfl
  case isFalse hclose =>
  split
  case isTrue hopen =>
    have hscan : scanName rest read position =
        .nested (Cursor.skipWhile Cursor.isGap ⟨rest, position⟩) := by
      unfold scanName
      rw [if_neg hclose, if_pos hopen]
    rw [ofRead_eq_of_eq (nameFrom_of_nested hscan)]
    have hskip := (Cursor.readsTo_skipWhile Cursor.isGap ⟨rest, position⟩).length_le
    apply outcome_value (Nat.le_trans hskip h)
    intro name s' hs'
    apply outcome_reads_bind (consumes_expectSigil .varEnd)
    intro _ s'' _
    rfl
  case isFalse hopen =>
  split
  case isTrue hend =>
    have hscan : scanName rest read position = .unterminated := by
      unfold scanName
      rw [if_neg hclose, if_neg hopen, if_pos hend]
    rw [ofRead_of_error (nameFrom_of_unterminated hscan)]
    rfl
  case isFalse hend =>
    cases rest with
    | nil => exact absurd ((Cursor.peek_kind_eq_endOfInput _).mpr (by simp)) hend
    | cons c rest =>
      have hscan : scanName (c :: rest) read position =
          scanName rest (c :: read) (position.after c) := by
        rw [scanName, if_neg hclose, if_neg hopen, if_neg hend]
      rw [ofRead_eq_of_eq (nameFrom_cons hscan)]
      exact outcome_again (Nat.le_of_succ_le h) _

/-- The script inside an input does what the reader behind the same sigils does. -/
theorem outcome_inputs (span : Span) (index : Nat) :
    (Script.inputs span index s).outcome = ofRead (inputsFrom span index) s .answer := by
  obtain ⟨⟨rest, position⟩, pending, count⟩ := s
  unfold Script.inputs
  split
  case isTrue hkind =>
    obtain ⟨tail, rfl⟩ := (Cursor.scan_kind_eq_sigil _ (by decide)).mp hkind
    have hle : tail.length ≤ budget := Nat.le_trans (Nat.le_add_right _ 2) h
    have hread := inputsFrom_sigil span index tail position pending count
    refine Eq.trans ?_ (ofRead_eq_of_eq hread .answer).symm
    exact outcome_again (s := ⟨⟨tail, (position.after ':').after '$'⟩, pending, count⟩) hle _
  case isFalse hkind =>
    rw [Cursor.scan_kind_eq_sigil _ (by decide)] at hkind
    rw [ofRead_of_ok (inputsFrom_end span index hkind)]
    rfl

/-- The script between arguments does what one turn of the loop over arguments does. -/
theorem outcome_arguments (span : Span) (args : List Expr) :
    (Script.arguments span args s).outcome =
      ofRead (printArgs (expression budget) span (budget + 1) args) s fun args s =>
        .answer (.print args span) s := by
  rw [printArgs, ofRead_peekToken]
  split
  case h_1 hkind =>
    rw [Script.arguments, if_pos hkind]
    exact outcome_discard fun _ _ _ => rfl
  case h_2 hkind =>
    rw [Script.arguments, hkind]
    rfl
  case h_3 hkind =>
    rw [Script.arguments, hkind]
    rfl
  case h_4 hclose hend hmarker =>
    rw [Script.arguments, if_neg hclose, if_neg (not_isEnd hend hmarker)]
    apply outcome_value h
    intro arg s' hs'
    exact outcome_again (by omega) _

/-- The script between conditions does what one turn of the loop over conditions does. -/
theorem outcome_conditions (span : Span) (last : Option Expr) :
    (Script.conditions span last s).outcome =
      ofRead (loopCondition (expression budget) span (budget + 1) last) s
        (conditionEnd budget span) := by
  rw [loopCondition, ofRead_peekToken]
  split
  case h_1 hkind =>
    rw [Script.conditions, if_pos hkind]
    apply outcome_discard
    intro _ s' hs'
    cases last with
    | none => rfl
    | some e =>
      change _ = ofRead (expectValue e) s' _
      rw [Script.outcome_reads]
      apply ofRead_congr (consumes_expectValue e)
      intro condition s'' hs''
      have hle : s''.unread ≤ budget := Nat.le_trans hs'' (Nat.le_trans hs' h)
      exact outcome_again hle _
  case h_2 hkind =>
    rw [Script.conditions, hkind]
    rfl
  case h_3 hkind =>
    rw [Script.conditions, hkind]
    rfl
  case h_4 hclose hend hmarker =>
    rw [Script.conditions, if_neg hclose, if_neg (not_isEnd hend hmarker)]
    have hrest : ∀ s', s'.unread ≤ s.unread →
        (Script.call .expression s' fun e s => .again (.conditions span (some e)) s).outcome =
          ofRead (do
            let e ← expression budget
            loopCondition (expression budget) span budget (some e)) s'
            (conditionEnd budget span) := by
      intro s' hs'
      apply outcome_expression_call (Nat.le_trans hs' h)
      intro e s'' hs''
      exact outcome_again (by omega) _
    cases last with
    | none => exact hrest s (Nat.le_refl _)
    | some e => exact outcome_reads_bind (consumes_setPending e) fun _ s' hs' => hrest s' hs'

/-- The script inside a body does what one turn of the loop over its statements does. -/
theorem outcome_branch (part : Branch) (span : Span) (body : List Expr) :
    (Script.branch part span body s).outcome =
      ofRead (loopSection (expression budget) part.closing span (budget + 1) body) s
        (branchEnd budget span part) := by
  rw [loopSection, ofRead_peekToken]
  split
  case isTrue hclose =>
    rw [Script.branch, if_pos hclose]
    apply outcome_discard
    intro _ s' hs'
    cases part with
    | first condition => exact outcome_again (Nat.le_trans hs' h) _
    | second condition thenBody => rfl
  case isFalse hclose =>
    split
    case h_1 hkind =>
      rw [Script.branch, if_neg hclose, if_pos (Or.inl hkind)]
      rfl
    case h_2 hkind =>
      rw [Script.branch, if_neg hclose, if_pos (Or.inr (Or.inl hkind))]
      rfl
    case h_3 hkind =>
      rw [Script.branch, if_neg hclose, if_pos (Or.inr (Or.inr hkind))]
      rfl
    case h_4 hkind =>
      rw [Script.branch, if_neg hclose, hkind]
      rfl
    case h_5 hkind =>
      rw [Script.branch, if_neg hclose, hkind]
      rfl
    case h_6 hthen helse hloopEnd hend hmarker =>
      rw [Script.branch, if_neg hclose, if_neg (by simp_all), if_neg (not_isEnd hend hmarker)]
      apply outcome_expression_call h
      intro e s' hs'
      apply outcome_reads_bind (consumes_collect e body)
      intro body s'' hs''
      exact outcome_again (by omega) _

/-- The script inside a chain of operators does what one turn of the loop over operators does. -/
theorem outcome_chain (first : Operator × Span) (yard : Expr.Yard) :
    (Script.chain first yard s).outcome =
      ofRead (operators (expression budget) first (budget + 1) yard) s .answer := by
  rw [operators]
  apply outcome_reads_bind consumes_peekOperator
  intro found s' hs'
  cases found with
  | none => exact Script.outcome_reads _ _ _
  | some operator =>
    apply outcome_discard
    intro _ s'' hs''
    have hle : s''.unread ≤ budget := Nat.le_trans hs'' (Nat.le_trans hs' h)
    apply outcome_call_bind hle rfl (consumes_operand (consumes_expression budget))
    intro e s₃ hs₃
    exact outcome_again (by omega) _

end Scripts

/-- One turn of a call comes to what the call does. -/
theorem outcome_body (p : Point) (s : Reading) : (body p s).outcome = outcome p s := by
  -- A loop spends one of its budget on the turn that is unfolded, so it is given one more.
  have hle := Nat.le_refl s.unread
  have hsucc := Nat.le_succ s.unread
  have hsub := Agree.refl s.unread (expression s.unread)
  have htakes := consumes_expression s.unread
  cases p with
  | program => exact outcome_program hle
  | statements body =>
    have hagree := agree_statementsFrom hsub htakes hsucc hle body
    exact (outcome_statements hle body).trans (ofRead_of_agree hagree hle _)
  | expression =>
    exact (outcome_expression hle).trans (ofRead_of_agree (agree_expression hsucc hle) hle _)
  | operand => exact outcome_operand hle
  | name inverted span read => exact outcome_name hle inverted span read
  | inputs span index => exact outcome_inputs hle span index
  | arguments span args =>
    have hagree := agree_printArgs hsub htakes hsucc hle span args
    exact (outcome_arguments hle span args).trans (ofRead_of_agree hagree hle _)
  | conditions span last =>
    have hagree := agree_loopCondition hsub htakes hsucc hle span last
    exact (outcome_conditions hle span last).trans (ofRead_of_agree hagree hle _)
  | branch part span body =>
    have hagree := agree_loopSection hsub htakes hsucc hle part.closing span body
    exact (outcome_branch hle part span body).trans (ofRead_of_agree hagree hle _)
  | chain first yard =>
    have hagree := agree_operators hsub htakes hsucc hle first yard
    exact (outcome_chain hle first yard).trans (ofRead_of_agree hagree hle _)

/-! ### From the start of a call to its end -/

namespace Config

/-- The machine when a call has come to its end. -/
def resume (next : Expr → Reading → Script) (calls : List Frame) : Outcome → Config
  | .answer e s => running (next e s) calls
  | .finish program => halted (.ok program)
  | .fail error => halted (.error error)

/-- Some number of steps leads from one moment of the machine to another. -/
def Leads (c c' : Config) : Prop :=
  ∃ n, c.after n = c'

variable {c c' c'' : Config}

/-- No step at all leads from a moment to itself. -/
theorem Leads.refl (c : Config) : c.Leads c :=
  ⟨0, rfl⟩

/-- One step more at the start. -/
theorem Leads.step (h : c.step.Leads c') : c.Leads c' := by
  obtain ⟨n, hn⟩ := h
  exact ⟨n + 1, hn⟩

/-- Steps are counted one number after the other. -/
theorem after_add (n m : Nat) (c : Config) : c.after (n + m) = (c.after n).after m := by
  induction n generalizing c with
  | zero => rw [Nat.zero_add, after]
  | succ n ih =>
    rw [Nat.succ_add, after, after]
    exact ih c.step

/-- Steps can be taken one number after the other. -/
theorem Leads.trans (h : c.Leads c') (h' : c'.Leads c'') : c.Leads c'' := by
  obtain ⟨n, rfl⟩ := h
  obtain ⟨m, rfl⟩ := h'
  exact ⟨n + m, after_add n m c⟩

end Config

open Config

/-- A call is carried out: the machine comes from its start to its end, and an answer leaves less to
read than the call weighs. -/
structure Ends (p : Point) (s : Reading) : Prop where
  leads : ∀ next calls, (running (body p s) (⟨p, s, next⟩ :: calls)).Leads
    (resume next calls (outcome p s))
  below : ∀ e s', outcome p s = .answer e s' → 3 * s'.unread < p.weight s

/-- A script comes to its end if whatever weighs less than its bound does. -/
theorem leads_of_below {bound : Nat} {turns : Bool} {script : Script}
    (hends : ∀ p s, p.weight s < bound → Ends p s) (hscript : script.Below bound turns)
    (f : Frame) (calls : List Frame) :
    (running script (f :: calls)).Leads (resume f.next calls script.outcome) ∧
      ∀ e s', script.outcome = .answer e s' → 3 * s'.unread < bound := by
  induction script with
  | done o =>
    refine ⟨Leads.step ?_, ?_⟩
    · cases o <;> exact Leads.refl _
    · rintro e s' rfl
      exact hscript
  | again p s =>
    obtain ⟨-, -, hweight⟩ := hscript
    have hp := hends p s hweight
    refine ⟨Leads.step (hp.leads f.next calls), ?_⟩
    intro e s' hanswer
    exact Nat.lt_trans (hp.below e s' hanswer) hweight
  | call p s next ih =>
    obtain ⟨hweight, hnext⟩ := hscript
    have hp := hends p s hweight
    have hleads : (running (.call p s next) (f :: calls)).Leads
        (resume next (f :: calls) (outcome p s)) := Leads.step (hp.leads next (f :: calls))
    rw [Script.outcome]
    cases houtcome : outcome p s with
    | answer e s' =>
      -- The answer leaves less to read than the call weighs, which is what the rest relies on.
      rw [houtcome] at hleads
      obtain ⟨hgoes, hbelow⟩ := ih e s' (hnext e s' (hp.below e s' houtcome))
      exact ⟨hleads.trans hgoes, hbelow⟩
    | finish program =>
      rw [houtcome] at hleads
      exact ⟨hleads, nofun⟩
    | fail error =>
      rw [houtcome] at hleads
      exact ⟨hleads, nofun⟩

/-- Every call is carried out. -/
theorem ends (p : Point) (s : Reading) : Ends p s := by
  induction hbound : p.weight s using Nat.strongRecOn generalizing p s with
  | ind bound ih =>
    subst hbound
    have hends : ∀ q s', q.weight s' < p.weight s → Ends q s' := by
      intro q s' hlt
      exact ih (q.weight s') hlt q s' rfl
    -- What the turn comes to does not depend on the call, so any frame bounds the answer.
    have hturn := leads_of_below hends (below_body p s)
    rw [outcome_body] at hturn
    refine ⟨?_, ?_⟩
    · intro next calls
      exact (hturn ⟨p, s, next⟩ calls).1
    · exact (hturn ⟨p, s, Script.answer⟩ []).2

/-- A program that has been read, or the error of reading it, halts the machine. -/
theorem resume_finish (next : Expr → Reading → Script) (calls : List Frame) (r : Reader Program)
    (s : Reading) :
    resume next calls (ofRead r s fun program _ => .finish program) = .halted (r.run' s) := by
  change _ = halted ((fun result => result.1) <$> r s)
  cases hread : r s with
  | error e => exact congrArg (resume next calls) (ofRead_of_error hread _)
  | ok result => exact congrArg (resume next calls) (ofRead_of_ok hread _)

/-- The machine reads a source as the readers do. -/
theorem leads_parse (source : String) : (Config.start source).Leads (.halted (parse source)) := by
  have hcall := (ends .program ⟨Cursor.ofString source, none, 0⟩).leads Script.answer []
  rw [outcome, outcomeAt, resume_finish] at hcall
  exact Leads.step hcall

/-- Reading ends, for every source. The machine that reads with open calls, which has no budget and
nothing else that makes it stop, comes to the program or the error that the source is read as; and
at every moment on the way expressions and operands are answered with fewer unread characters than
they were called with, turns of loops start with fewer than the turn before, calls for expressions
and operands inside others start with fewer than those around them, and no more of them are open
than there are characters and one. Its calls for expressions and operands come to what the readers
of these do, which take two characters or more whenever they succeed, with any budget at all, and
the readers of programs come to the same with more budget than they are given. -/
theorem parse_terminates (source : String) :
    (∃ n, (Config.start source).after n = .halted (parse source)) ∧
    (∀ n, ((Config.start source).after n).Progresses source.length) ∧
    (∀ s next calls, ∃ n, (running (.call .expression s next) calls).after n =
      resume next calls (ofRead (expression s.unread) s .answer)) ∧
    (∀ s next calls, ∃ n, (running (.call .operand s next) calls).after n =
      resume next calls (ofRead (operand (expression s.unread)) s .answer)) ∧
    (∀ budget, Consumes 2 (expression budget) fun _ => True) ∧
    (∀ budget, Consumes 2 (operand (expression budget)) fun _ => True) ∧
    ∀ more, (program (source.length + more)).run' ⟨Cursor.ofString source, none, 0⟩ =
      parse source := by
  refine ⟨leads_parse source, progresses_after source, ?_, ?_, consumes_expression, ?_, ?_⟩
  · intro s next calls
    exact Leads.step ((ends .expression s).leads next calls)
  · intro s next calls
    exact Leads.step ((ends .operand s).leads next calls)
  · intro budget s e s' hread
    obtain ⟨-, hle⟩ := consumes_operand (consumes_expression budget) s e s' hread
    exact ⟨trivial, hle⟩
  · intro more
    have hbudget : (Cursor.ofString source).rest.length ≤ source.length + more := by
      change source.toList.length ≤ _
      rw [String.length_toList]
      exact Nat.le_add_right _ _
    have hagree := agree_program hbudget (Nat.le_refl _) ⟨Cursor.ofString source, none, 0⟩
      (Nat.le_refl _)
    exact congrArg (Functor.map Prod.fst) hagree

end Smil.Descent
