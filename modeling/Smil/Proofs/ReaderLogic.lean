import Smil.Proofs.Nodes
import Smil.Proofs.ReaderParts

/-!
# A logic of readers

The readers of programs are followed here once and for all. A judgement says something about what a
reader does from a state, and it comes with rules: how it carries over from two steps to their
sequence, what holds of the few readers that look at the text or at the state themselves, and what
follows for a node from the trees below it. Any judgement with these rules holds of all readers of
programs, whatever budgets they have.

A judgement is about two readers, which may have different budgets, and about some room that they
have. The budget of the first is the room, and that of the second is not less. A token takes room
away, and where no room is left the two need to do the same only where no text is left either.
-/

namespace Smil.Expr.Parser

/-! ### Judgements and their rules -/

/-- What is known of the tokens and trees that are read, and of the places that errors have. What is
known of a tree depends on the state, and states follow each other. -/
structure Knowledge where
  /-- How a state comes after another. -/
  Later : Reading → Reading → Prop
  /-- What is known of a tree that has been read by then. -/
  Known : Expr → Reading → Prop
  /-- What is known of a token that is looked at. -/
  Seen : Token → Prop
  /-- What is known of a token right behind it. -/
  Taken : Token → Reading → Prop
  /-- The places that an error may have. -/
  Place : Span → Prop
  later_trans {s₁ s₂ s₃ : Reading} : Later s₁ s₂ → Later s₂ s₃ → Later s₁ s₃
  known_later {e : Expr} {s s' : Reading} : Known e s → Later s s' → Known e s'
  seen_of_taken {token : Token} {s : Reading} : Taken token s → Seen token
  place_of_seen {token : Token} : Seen token → Place token.span
  place_of_known {e : Expr} {s : Reading} : Known e s → Place e.span
  /-- A node other than an input comes from its sigil and from the trees below it. -/
  known_node {token : Token} {e : Expr} {s : Reading} : Seen token →
    (∃ sigil ∈ e.sigils, token.kind = .sigil sigil) → e.span = token.span → e.index? = none →
    e.ChildrenFit → (∀ child ∈ e.children, Known child s) → Known e s

namespace Knowledge

variable (K : Knowledge)

/-- A tree that is a value. -/
def Value (e : Expr) (s : Reading) : Prop :=
  K.Known e s ∧ e.yieldsValue = true

/-- A tree that is a statement. -/
def Statement (e : Expr) (s : Reading) : Prop :=
  K.Known e s ∧ e.isStatement = true

/-- A tree that names a variable. -/
def Target (e : Expr) (s : Reading) : Prop :=
  K.Known e s ∧ e.isAssignable = true

/-- An operator that is seen at a place. -/
def SeenOperator (op : Operator) (span : Span) : Prop :=
  ∃ token, K.Seen token ∧ token.kind = .sigil (.operator op) ∧ token.span = span

/-- Nothing is known, and nothing has to be. -/
def nothing : Knowledge where
  Later _ _ := True
  Known _ _ := True
  Seen _ := True
  Taken _ _ := True
  Place _ := True
  later_trans _ _ := trivial
  known_later _ _ := trivial
  seen_of_taken _ := trivial
  place_of_seen _ := trivial
  place_of_known _ := trivial
  known_node _ _ _ _ _ _ := trivial

variable {K} {e : Expr} {s s' : Reading}

/-- A value stays one. -/
theorem Value.later (h : K.Value e s) (hlater : K.Later s s') : K.Value e s' :=
  ⟨K.known_later h.1 hlater, h.2⟩

/-- A statement stays one. -/
theorem Statement.later (h : K.Statement e s) (hlater : K.Later s s') : K.Statement e s' :=
  ⟨K.known_later h.1 hlater, h.2⟩

/-- A target stays one. -/
theorem Target.later (h : K.Target e s) (hlater : K.Later s s') : K.Target e s' :=
  ⟨K.known_later h.1 hlater, h.2⟩

/-- A leaf other than an input comes from its sigil. -/
theorem known_leaf {token : Token} {sigil : Sigil} (hseen : K.Seen token)
    (hkind : token.kind = .sigil sigil) (hsigil : sigil ∈ e.sigils) (hspan : e.span = token.span)
    (hindex : e.index? = none) (hfit : e.ChildrenFit) (hleaf : e.children = []) : K.Known e s := by
  refine K.known_node hseen ⟨sigil, hsigil, hkind⟩ hspan hindex hfit ?_
  rw [hleaf]
  exact List.forall_mem_nil _

/-- An operator with its sides. -/
theorem value_binary {left right : Expr} {op : Operator} {span : Span} (hleft : K.Value left s)
    (hop : K.SeenOperator op span) (hright : K.Value right s) :
    K.Value (.binary left op right span) s := by
  obtain ⟨token, hseen, hkind, hspan⟩ := hop
  refine ⟨K.known_node hseen ⟨_, List.mem_singleton_self _, hkind⟩ hspan.symm rfl
    ⟨hleft.2, hright.2⟩ ?_, rfl⟩
  exact List.forall_mem_cons.mpr ⟨hleft.1, List.forall_mem_singleton.mpr hright.1⟩

end Knowledge

/-- A judgement about readers with the rules that it has to obey. -/
structure ReaderLogic extends Knowledge where
  /-- What is said of two readers that start in a state, where a result of theirs has a property in
  the state that they leave. -/
  Judged {α : Type} (n : Nat) (s : Reading) (x y : Reader α) (P : α → Reading → Prop) : Prop
  judged_pure {α : Type} {n : Nat} {s : Reading} {a : α} {P : α → Reading → Prop} :
    P a s → Judged n s (pure a) (pure a) P
  judged_throw {α : Type} {n : Nat} {s : Reading} {cause : Cause} {span : Span}
    {P : α → Reading → Prop} :
    Place span → cause.category = .syntactic ∨ cause.category = .assignability →
    Judged n s (throw (.placed cause span)) (throw (.placed cause span)) P
  judged_bind {α β : Type} {n : Nat} {s : Reading} {x y : Reader α} {f g : α → Reader β}
    {P : α → Reading → Prop} {Q : β → Reading → Prop} : Judged n s x y P →
    (∀ a s', Later s s' → P a s' → Judged n s' (f a) (g a) Q) →
    Judged n s (x >>= f) (y >>= g) Q
  /-- Less room is room. -/
  judged_mono {α : Type} {n m : Nat} {s : Reading} {x y : Reader α}
    {P : α → Reading → Prop} : m ≤ n → Judged n s x y P → Judged m s x y P
  /-- Without room it is enough that the readers do the same where no text is left. -/
  judged_end {α : Type} {s : Reading} {x y : Reader α} {P : α → Reading → Prop} :
    Judged 0 s x x P → (s.cursor.rest = [] → x s = y s) → Judged 0 s x y P
  judged_nextToken {n : Nat} {s : Reading} : Judged n s nextToken nextToken Taken
  /-- A token takes room away, except at the end of the input. -/
  judged_token {β : Type} {n : Nat} {s : Reading} {f g : Token → Reader β}
    {Q : β → Reading → Prop} :
    (∀ token s', Later s s' → Taken token s' → token.kind = .endOfInput →
      Judged (n + 1) s' (f token) (g token) Q) →
    (∀ token s', Later s s' → Taken token s' → token.kind ≠ .endOfInput →
      Judged n s' (f token) (g token) Q) →
    Judged (n + 1) s (nextToken >>= f) (nextToken >>= g) Q
  judged_peekToken {n : Nat} {s : Reading} :
    Judged n s peekToken peekToken fun token _ => Seen token
  judged_setPending {n : Nat} {s : Reading} {e : Expr} : Known e s →
    Judged n s (setPending e) (setPending e) fun _ _ => True
  judged_pendingExpr {n : Nat} {s : Reading} :
    Judged n s pendingExpr pendingExpr fun found s' => ∀ e ∈ found, Known e s'
  judged_countSoFar {n : Nat} {s : Reading} :
    Judged n s countSoFar countSoFar fun count s' => count = s'.inputCount
  judged_nameOrNested {n : Nat} {s : Reading} {span : Span} : Place span →
    Judged n s (nameOrNested span) (nameOrNested span) fun _ _ => True
  judged_inputIndex {n : Nat} {s : Reading} {token : Token} : Taken token s →
    token.kind = .sigil .input →
    Judged n s inputIndex inputIndex fun index s' => Known (.input index token.span) s'
  judged_lineText {n : Nat} {s : Reading} : Judged n s lineText lineText fun _ _ => True

namespace ReaderLogic

variable {L : ReaderLogic} {n budget : Nat} {s : Reading} {α β : Type} {P : α → Reading → Prop}

/-! ### Tokens, the pending expression and the checks -/

/-- What is known of a result may be weakened. -/
theorem judged_imp {x y : Reader α} {Q : α → Reading → Prop} (h : L.Judged n s x y P)
    (hPQ : ∀ a s', L.Later s s' → P a s' → Q a s') : L.Judged n s x y Q := by
  rw [← bind_pure x, ← bind_pure y]
  apply L.judged_bind h
  intro a s' hlater ha
  exact L.judged_pure (hPQ a s' hlater ha)

/-- A token takes room away from what follows what it introduces, which fails at the end of the
input. -/
theorem judged_turn {k : Nat} {x y : Token → Reader α} {f g : α → Reader β}
    {Q : β → Reading → Prop}
    (hend : ∀ token s', L.Taken token s' → token.kind = .endOfInput →
      L.Judged (k + 1) s' (x token) (y token) fun _ _ => False)
    (hx : ∀ token s', L.Taken token s' → L.Judged k s' (x token) (y token) P)
    (h : ∀ a s', L.Later s s' → P a s' → L.Judged k s' (f a) (g a) Q) :
    L.Judged (k + 1) s ((nextToken >>= x) >>= f) ((nextToken >>= y) >>= g) Q := by
  rw [bind_assoc, bind_assoc]
  apply L.judged_token
  · intro token s₁ _ htaken hkind
    apply L.judged_bind (hend token s₁ htaken hkind)
    exact fun a s₂ _ hfalse => hfalse.elim
  · intro token s₁ hlater₁ htaken _
    apply L.judged_bind (hx token s₁ htaken)
    intro a s₂ hlater₂ ha
    exact h a s₂ (L.later_trans hlater₁ hlater₂) ha

/-- A step whose result is not used. -/
theorem judged_discard {x y : Reader α} (hx : L.Judged n s x y P) :
    L.Judged n s (discard x) (discard y) fun _ _ => True := by
  change L.Judged n s (x >>= fun _ => pure PUnit.unit) (y >>= fun _ => pure PUnit.unit) _
  apply L.judged_bind hx
  intro a s' _ _
  exact L.judged_pure trivial

/-- An operator is seen at the place that comes with it. -/
theorem judged_peekOperator : L.Judged n s peekOperator peekOperator fun found _ =>
    ∀ op span, found = some (op, span) → L.SeenOperator op span := by
  apply L.judged_bind L.judged_peekToken
  intro token s' _ hseen
  apply L.judged_pure
  intro op span hfound
  obtain ⟨op', hop, heq⟩ := Option.map_eq_some_iff.mp hfound
  cases heq
  refine ⟨token, hseen, ?_, rfl⟩
  cases hkind : token.kind with
  | sigil sigil =>
    rw [hkind] at hop
    cases sigil with
    | operator op' =>
      cases hop
      rfl
    | _ => cases hop
  | _ =>
    rw [hkind] at hop
    cases hop

/-- A statement is added to those collected so far, and anything else becomes pending. -/
theorem judged_collect {e : Expr} {body : List Expr} (he : L.Known e s) :
    L.Judged n s (collect e body) (collect e body) fun body' s' =>
      ∀ stmt ∈ body', stmt ∈ body ∨ L.Statement stmt s' := by
  rw [collect]
  by_cases hstatement : e.isStatement
  · rw [if_pos hstatement]
    apply L.judged_pure
    exact List.forall_mem_cons.mpr ⟨Or.inr ⟨he, hstatement⟩, fun stmt hstmt => Or.inl hstmt⟩
  · rw [if_neg hstatement]
    apply L.judged_bind (L.judged_setPending he)
    intro _ s' _ _
    exact L.judged_pure fun stmt hstmt => Or.inl hstmt

/-- Those that are collected behind a statement or a pending expression. -/
theorem judged_collect_bind {e : Expr} {body : List Expr} {f g : List Expr → Reader (List Expr)}
    (he : L.Known e s) (h : ∀ body' s', L.Judged n s' (f body') (g body') fun body'' s'' =>
      ∀ stmt ∈ body'', stmt ∈ body' ∨ L.Statement stmt s'') :
    L.Judged n s (collect e body >>= f) (collect e body >>= g) fun body'' s'' =>
      ∀ stmt ∈ body'', stmt ∈ body ∨ L.Statement stmt s'' := by
  apply L.judged_bind (judged_collect he)
  intro body' s' _ hbody'
  apply judged_imp (h body' s')
  intro body'' s'' hlater hbody'' stmt hstmt
  rcases hbody'' stmt hstmt with hmem | hstatement
  · exact (hbody' stmt hmem).imp id fun hstatement => hstatement.later hlater
  · exact Or.inr hstatement

/-- Only a value is accepted. -/
theorem judged_expectValue {e : Expr} (he : L.Known e s) :
    L.Judged n s (expectValue e) (expectValue e) L.Value := by
  rw [expectValue]
  by_cases hvalue : e.yieldsValue
  · rw [if_pos hvalue]
    exact L.judged_pure ⟨he, hvalue⟩
  · rw [if_neg hvalue]
    exact L.judged_throw (L.place_of_known he) (Or.inl rfl)

/-- Only a target is accepted. -/
theorem judged_expectAssignable {e : Expr} (he : L.Known e s) :
    L.Judged n s (expectAssignable e) (expectAssignable e) L.Target := by
  rw [expectAssignable]
  by_cases htarget : e.isAssignable
  · rw [if_pos htarget]
    exact L.judged_pure ⟨he, htarget⟩
  · rw [if_neg htarget]
    exact L.judged_throw (L.place_of_known he) (Or.inr rfl)

/-- Only the sigil itself is accepted. -/
theorem judged_expectSigil (sigil : Sigil) :
    L.Judged n s (expectSigil sigil) (expectSigil sigil) fun _ _ => True := by
  apply L.judged_bind L.judged_nextToken
  intro token s' _ htaken
  by_cases hkind : token.kind = .sigil sigil
  · simp only [if_pos hkind]
    exact L.judged_pure trivial
  · simp only [if_neg hkind]
    exact L.judged_throw (L.place_of_seen (L.seen_of_taken htaken)) (Or.inl rfl)

/-! ### Constructs -/

/-- Readers of the expressions inside a construct: their results are known, and they take room away
from what follows them. -/
structure Ready (L : ReaderLogic) (n : Nat) (sub sub' : Reader Expr) : Prop where
  read (s : Reading) : L.Judged n s sub sub' L.Known
  turn {β : Type} {k : Nat} {s : Reading} {f g : Expr → Reader β} {Q : β → Reading → Prop} :
    k < n → (∀ e s', L.Later s s' → L.Known e s' → L.Judged k s' (f e) (g e) Q) →
    L.Judged (k + 1) s (sub >>= f) (sub' >>= g) Q

/-- Less room is enough for less. -/
theorem Ready.mono {m : Nat} {sub sub' : Reader Expr} (h : L.Ready n sub sub') (hm : m ≤ n) :
    L.Ready m sub sub' :=
  ⟨fun s => L.judged_mono hm (h.read s), fun hk => h.turn (Nat.lt_of_lt_of_le hk hm)⟩

section Constructs

variable {sub sub' : Reader Expr} {token : Token} (hsub : L.Ready n sub sub')

include hsub

/-- A value inside a construct. -/
theorem judged_value : L.Judged n s (value sub) (value sub') L.Value := by
  apply L.judged_bind (hsub.read s)
  intro e s' _ he
  exact judged_expectValue he

/-- A value takes room away from what follows it. -/
theorem judged_value_turn {k : Nat} {f g : Expr → Reader β} {Q : β → Reading → Prop} (hk : k < n)
    (h : ∀ e s', L.Later s s' → L.Value e s' → L.Judged k s' (f e) (g e) Q) :
    L.Judged (k + 1) s (value sub >>= f) (value sub' >>= g) Q := by
  unfold value
  rw [bind_assoc, bind_assoc]
  apply hsub.turn hk
  intro e s₁ hlater₁ he
  apply L.judged_bind (judged_expectValue he)
  intro e s₂ hlater₂ he
  exact h e s₂ (L.later_trans hlater₁ hlater₂) he

/-- A variable, with a name that is read or computed. -/
theorem judged_variableRef {inverted : Bool} (hseen : L.Seen token)
    (hkind : token.kind = .sigil (if inverted then .negatedVarStart else .varStart)) :
    L.Judged n s (variableRef sub inverted token.span) (variableRef sub' inverted token.span)
      fun e s' => L.Value e s' ∧ e.IsOperand := by
  rw [variableRef_eq, variableRef_eq]
  apply L.judged_bind (L.judged_nameOrNested (L.place_of_seen hseen))
  intro found s₁ _ _
  cases found with
  | some name =>
    apply L.judged_pure
    refine ⟨⟨Knowledge.known_leaf hseen hkind ?_ rfl rfl trivial rfl, rfl⟩, rfl⟩
    cases inverted <;> exact List.mem_singleton_self _
  | none =>
    apply L.judged_bind (judged_value hsub)
    intro name s₂ _ hname
    apply L.judged_bind (judged_expectSigil .varEnd)
    intro _ s₃ hlater _
    apply L.judged_pure
    refine ⟨⟨L.known_node hseen ⟨_, ?_, hkind⟩ rfl rfl hname.2 ?_, rfl⟩, rfl⟩
    · cases inverted <;> simp [sigils]
    · exact List.forall_mem_singleton.mpr (hname.later hlater).1

omit hsub in
/-- An input behind its first sigil. -/
theorem judged_inputRef (htaken : L.Taken token s) (hkind : token.kind = .sigil .input) :
    L.Judged n s (inputRef token.span) (inputRef token.span)
      fun e s' => L.Value e s' ∧ e.IsOperand := by
  rw [inputRef_eq]
  apply L.judged_bind (L.judged_inputIndex htaken hkind)
  intro index s₁ _ hknown
  exact L.judged_pure ⟨⟨hknown, rfl⟩, rfl⟩

/-- A length of a value. -/
theorem judged_lengthOf (hseen : L.Seen token) (hkind : token.kind = .sigil .lengthOf) :
    L.Judged n s (return .lengthOf (← value sub) token.span)
      (return .lengthOf (← value sub') token.span) fun e s' => L.Value e s' ∧ e.IsOperand := by
  apply L.judged_bind (judged_value hsub)
  intro e s₁ _ he
  apply L.judged_pure
  refine ⟨⟨L.known_node hseen ⟨_, List.mem_singleton_self _, hkind⟩ rfl rfl he.2 ?_, rfl⟩, rfl⟩
  exact List.forall_mem_singleton.mpr he.1

/-- An assignment to what is pending. -/
theorem judged_assignment (hseen : L.Seen token) (hkind : token.kind = .sigil .assign) :
    L.Judged n s (assignment sub token.span) (assignment sub' token.span)
      fun e s' => L.Known e s' ∧ e.IsOperand := by
  rw [assignment_eq, assignment_eq]
  apply L.judged_bind L.judged_pendingExpr
  intro found s₁ _ hfound
  cases found with
  | none => exact L.judged_throw (L.place_of_seen hseen) (Or.inr rfl)
  | some e =>
    apply L.judged_bind (judged_expectAssignable (hfound e rfl))
    intro target s₂ _ htarget
    apply L.judged_bind (judged_value hsub)
    intro source s₃ hlater hsource
    apply L.judged_pure
    refine ⟨L.known_node hseen ⟨_, List.mem_singleton_self _, hkind⟩ rfl rfl
      ⟨htarget.2, hsource.2⟩ ?_, rfl⟩
    exact List.forall_mem_cons.mpr
      ⟨(htarget.later hlater).1, List.forall_mem_singleton.mpr hsource.1⟩

omit hsub in
/-- A comment behind its sigil. -/
theorem judged_commentLine (hseen : L.Seen token) (hkind : token.kind = .sigil .comment) :
    L.Judged n s (commentLine token.span) (commentLine token.span)
      fun e s' => L.Known e s' ∧ e.IsOperand := by
  rw [commentLine_eq]
  apply L.judged_bind L.judged_lineText
  intro text s₁ _ _
  apply L.judged_pure
  exact ⟨Knowledge.known_leaf hseen hkind (List.mem_singleton_self _) rfl rfl trivial rfl, rfl⟩

/-- The arguments of a print, behind those that have been read. -/
theorem judged_printArgs {span : Span} (hplace : L.Place span) (hbudget : n ≤ budget)
    {args : List Expr} :
    L.Judged n s (printArgs sub span n args) (printArgs sub' span budget args)
      fun args' s' => ∀ arg ∈ args', arg ∈ args ∨ L.Value arg s' := by
  induction n generalizing s budget args with
  | zero =>
    apply L.judged_end (L.judged_throw hplace (Or.inl rfl))
    intro hrest
    exact (printArgs_at_end hrest args).symm
  | succ n ih =>
    obtain ⟨budget, rfl⟩ := Nat.exists_eq_succ_of_ne_zero (Nat.ne_zero_of_lt hbudget)
    apply L.judged_bind L.judged_peekToken
    intro token s₁ _ _
    split
    case h_1 =>
      apply L.judged_bind (judged_discard L.judged_nextToken)
      intro _ s₂ _ _
      exact L.judged_pure fun arg harg => Or.inl (List.mem_reverse.mp harg)
    case h_2 => exact L.judged_throw hplace (Or.inl rfl)
    case h_3 => exact L.judged_throw hplace (Or.inl rfl)
    case h_4 =>
      apply judged_value_turn hsub (Nat.lt_succ_self n)
      intro arg s₂ _ harg
      apply judged_imp (ih (hsub.mono (Nat.le_succ n)) (Nat.le_of_succ_le_succ hbudget))
      intro args' s₃ hlater hargs arg' harg'
      rcases hargs arg' harg' with hmem | hvalue
      · rcases List.mem_cons.mp hmem with rfl | hmem
        · exact Or.inr (harg.later hlater)
        · exact Or.inl hmem
      · exact Or.inr hvalue

/-- The conditions of a loop, of which each one that another follows becomes pending. -/
theorem judged_loopCondition {span : Span} (hplace : L.Place span) (hbudget : n ≤ budget)
    {last : Option Expr} (hlast : ∀ e ∈ last, L.Known e s) :
    L.Judged n s (loopCondition sub span n last) (loopCondition sub' span budget last)
      fun found s' => ∀ e ∈ found, L.Known e s' := by
  induction n generalizing s budget last with
  | zero =>
    apply L.judged_end (L.judged_throw hplace (Or.inl rfl))
    intro hrest
    exact (loopCondition_at_end hrest last).symm
  | succ n ih =>
    obtain ⟨budget, rfl⟩ := Nat.exists_eq_succ_of_ne_zero (Nat.ne_zero_of_lt hbudget)
    apply L.judged_bind L.judged_peekToken
    intro token s₁ hlater₁ _
    split
    case h_1 =>
      apply L.judged_bind (judged_discard L.judged_nextToken)
      intro _ s₂ hlater₂ _
      apply L.judged_pure
      intro e he
      exact L.known_later (hlast e he) (L.later_trans hlater₁ hlater₂)
    case h_2 => exact L.judged_throw hplace (Or.inl rfl)
    case h_3 => exact L.judged_throw hplace (Or.inl rfl)
    case h_4 =>
      have hnext : ∀ s₂, L.Judged (n + 1) s₂ (sub >>= fun e => loopCondition sub span n (some e))
          (sub' >>= fun e => loopCondition sub' span budget (some e))
          fun found s' => ∀ e ∈ found, L.Known e s' := by
        intro s₂
        apply hsub.turn (Nat.lt_succ_self n)
        intro e s₃ _ he
        apply ih (hsub.mono (Nat.le_succ n)) (Nat.le_of_succ_le_succ hbudget)
        intro e' he'
        rwa [← Option.some.inj he']
      cases last with
      | none => exact hnext s₁
      | some e =>
        apply L.judged_bind (L.judged_setPending (L.known_later (hlast e rfl) hlater₁))
        intro _ s₂ _ _
        exact hnext s₂

/-- A section of a loop, behind the statements that have been read. -/
theorem judged_loopSection (closing : Sigil) {span : Span} (hplace : L.Place span)
    (hbudget : n ≤ budget) {body : List Expr} :
    L.Judged n s (loopSection sub closing span n body) (loopSection sub' closing span budget body)
      fun body' s' => ∀ stmt ∈ body', stmt ∈ body ∨ L.Statement stmt s' := by
  induction n generalizing s budget body with
  | zero =>
    apply L.judged_end (L.judged_throw hplace (Or.inl rfl))
    intro hrest
    exact (loopSection_at_end hrest closing body).symm
  | succ n ih =>
    obtain ⟨budget, rfl⟩ := Nat.exists_eq_succ_of_ne_zero (Nat.ne_zero_of_lt hbudget)
    apply L.judged_bind L.judged_peekToken
    intro token s₁ _ hseen
    by_cases hclosing : token.kind = .sigil closing
    · simp only [if_pos hclosing]
      apply L.judged_bind (judged_discard L.judged_nextToken)
      intro _ s₂ _ _
      exact L.judged_pure fun stmt hstmt => Or.inl (List.mem_reverse.mp hstmt)
    · simp only [if_neg hclosing]
      split
      case h_4 => exact L.judged_throw hplace (Or.inl rfl)
      case h_5 => exact L.judged_throw hplace (Or.inl rfl)
      case h_6 =>
        apply hsub.turn (Nat.lt_succ_self n)
        intro e s₂ _ he
        apply judged_collect_bind he
        intro body' s₃
        exact ih (hsub.mono (Nat.le_succ n)) (Nat.le_of_succ_le_succ hbudget)
      all_goals exact L.judged_throw (L.place_of_seen hseen) (Or.inl rfl)

/-- A whole section of a loop. -/
theorem judged_section (closing : Sigil) {span : Span} (hplace : L.Place span)
    (hbudget : n ≤ budget) :
    L.Judged n s (loopSection sub closing span n []) (loopSection sub' closing span budget [])
      fun body s' => ∀ stmt ∈ body, L.Statement stmt s' := by
  apply judged_imp (judged_loopSection hsub closing hplace hbudget)
  intro body s' _ hbody stmt hstmt
  exact (hbody stmt hstmt).resolve_left List.not_mem_nil

/-- A loop: its condition and its two sections. -/
theorem judged_loopStatement (hseen : L.Seen token) (hkind : token.kind = .sigil .loopStart)
    (hbudget : n ≤ budget) :
    L.Judged n s (loopStatement sub n token.span) (loopStatement sub' budget token.span)
      fun e s' => L.Known e s' ∧ e.IsOperand := by
  have hplace := L.place_of_seen hseen
  have hnone : ∀ e ∈ (none : Option Expr), L.Known e s := nofun
  apply L.judged_bind (judged_loopCondition hsub hplace hbudget hnone)
  intro last s₁ _ hlast
  cases last with
  | none => exact L.judged_throw hplace (Or.inl rfl)
  | some e =>
    apply L.judged_bind (judged_expectValue (hlast e rfl))
    intro condition s₂ _ hcondition
    apply L.judged_bind (judged_section hsub .loopElse hplace hbudget)
    intro thenBody s₃ hlater₃ hthen
    apply L.judged_bind (judged_section hsub .loopEnd hplace hbudget)
    intro elseBody s₄ hlater₄ helse
    apply L.judged_pure
    refine ⟨L.known_node hseen ⟨_, List.mem_singleton_self _, hkind⟩ rfl rfl ⟨hcondition.2,
      fun stmt hstmt => (hthen stmt hstmt).2, fun stmt hstmt => (helse stmt hstmt).2⟩ ?_, rfl⟩
    refine List.forall_mem_cons.mpr
      ⟨(hcondition.later (L.later_trans hlater₃ hlater₄)).1, List.forall_mem_append.mpr ⟨?_, ?_⟩⟩
    · exact fun stmt hstmt => ((hthen stmt hstmt).later hlater₄).1
    · exact fun stmt hstmt => (helse stmt hstmt).1

/-- What a sigil introduces is never an operator with its sides. -/
theorem judged_construct (htaken : L.Taken token s) (hbudget : n ≤ budget) :
    L.Judged n s (construct sub n token) (construct sub' budget token)
      fun e s' => L.Known e s' ∧ e.IsOperand := by
  have hseen := L.seen_of_taken htaken
  have hleaf : ∀ {e : Expr} {sigil : Sigil}, token.kind = .sigil sigil → sigil ∈ e.sigils →
      e.span = token.span → e.index? = none → e.ChildrenFit → e.children = [] → e.IsOperand →
      L.Judged n s (pure e) (pure e) fun e s' => L.Known e s' ∧ e.IsOperand := by
    intro e sigil hkind hsigil hspan hindex hfit hleaf hoperand
    exact L.judged_pure ⟨Knowledge.known_leaf hseen hkind hsigil hspan hindex hfit hleaf, hoperand⟩
  have hvalue : ∀ {x y : Reader Expr}, L.Judged n s x y (fun e s' => L.Value e s' ∧ e.IsOperand) →
      L.Judged n s x y fun e s' => L.Known e s' ∧ e.IsOperand :=
    fun h => judged_imp h fun e s' _ he => ⟨he.1.1, he.2⟩
  unfold construct
  split
  case h_1 hkind => exact hvalue (judged_variableRef hsub hseen hkind)
  case h_2 hkind => exact hvalue (judged_variableRef hsub hseen hkind)
  case h_3 hkind => exact hvalue (judged_inputRef htaken hkind)
  case h_4 hkind => exact judged_assignment hsub hseen hkind
  case h_5 hkind => exact judged_commentLine hseen hkind
  case h_6 hkind =>
    apply L.judged_bind (judged_printArgs hsub (L.place_of_seen hseen) hbudget)
    intro args s₁ _ hread
    have hargs := fun arg harg => (hread arg harg).resolve_left List.not_mem_nil
    apply L.judged_pure
    exact ⟨L.known_node hseen ⟨_, List.mem_singleton_self _, hkind⟩ rfl rfl
      (fun arg harg => (hargs arg harg).2) (fun arg harg => (hargs arg harg).1), rfl⟩
  case h_7 hkind => exact hleaf hkind (List.mem_singleton_self _) rfl rfl trivial rfl rfl
  case h_8 hkind => exact hleaf hkind (List.mem_singleton_self _) rfl rfl trivial rfl rfl
  case h_9 hkind => exact hleaf hkind (List.mem_singleton_self _) rfl rfl trivial rfl rfl
  case h_10 hkind =>
    apply L.judged_bind (judged_value hsub)
    intro e s₁ _ he
    apply L.judged_pure
    refine ⟨L.known_node hseen ⟨_, List.mem_singleton_self _, hkind⟩ rfl rfl he.2 ?_, rfl⟩
    exact List.forall_mem_singleton.mpr he.1
  case h_11 hkind =>
    apply L.judged_bind (hsub.read s)
    intro e s₁ _ he
    apply L.judged_bind (judged_expectAssignable he)
    intro target s₂ _ htarget
    apply L.judged_pure
    refine ⟨L.known_node hseen ⟨_, List.mem_singleton_self _, hkind⟩ rfl rfl htarget.2 ?_, rfl⟩
    exact List.forall_mem_singleton.mpr htarget.1
  case h_12 hkind => exact hleaf hkind (List.mem_singleton_self _) rfl rfl trivial rfl rfl
  case h_13 hkind => exact judged_loopStatement hsub hseen hkind hbudget
  case h_14 hkind => exact hvalue (judged_lengthOf hsub hseen hkind)
  case h_15 => exact L.judged_throw (L.place_of_seen hseen) (Or.inl rfl)

/-- An operand behind its token. -/
theorem judged_operandBehind (htaken : L.Taken token s) :
    L.Judged n s (operandBehind sub token) (operandBehind sub' token)
      fun e s' => L.Value e s' ∧ e.IsOperand := by
  have hseen := L.seen_of_taken htaken
  unfold operandBehind
  split
  case h_1 hkind => exact judged_variableRef hsub hseen hkind
  case h_2 hkind => exact judged_variableRef hsub hseen hkind
  case h_3 hkind => exact judged_inputRef htaken hkind
  case h_4 hkind => exact judged_lengthOf hsub hseen hkind
  case h_5 => exact L.judged_throw (L.place_of_seen hseen) (Or.inl rfl)

/-- An operand inside a chain. -/
theorem judged_operand : L.Judged n s (operand sub) (operand sub')
    fun e s' => L.Value e s' ∧ e.IsOperand := by
  rw [operand_eq, operand_eq]
  apply L.judged_bind L.judged_nextToken
  intro token s₁ _ htaken
  exact judged_operandBehind hsub htaken

/-- An operand takes room away from what follows it. -/
theorem judged_operand_turn {k : Nat} {f g : Expr → Reader β} {Q : β → Reading → Prop} (hk : k < n)
    (h : ∀ e s', L.Later s s' → L.Value e s' → L.Judged k s' (f e) (g e) Q) :
    L.Judged (k + 1) s (operand sub >>= f) (operand sub' >>= g) Q := by
  rw [operand_eq, operand_eq]
  refine judged_turn ?_ ?_ h
  · intro token s₁ htaken hkind
    unfold operandBehind
    rw [hkind]
    exact L.judged_throw (L.place_of_seen (L.seen_of_taken htaken)) (Or.inl rfl)
  · intro token s₁ htaken
    apply L.judged_mono (Nat.le_of_lt hk)
    exact judged_imp (judged_operandBehind hsub htaken) fun e s' _ he => he.1

/-! ### Chains -/

/-- The operators and operands that continue a chain. -/
theorem judged_chainFrom (hbudget : n ≤ budget) {chain : Chain}
    (hchain : chain.All (L.Value · s) L.SeenOperator) :
    L.Judged n s (chainFrom sub n chain) (chainFrom sub' budget chain) L.Value := by
  induction n generalizing s budget chain with
  | zero =>
    apply L.judged_end (L.judged_pure (hchain.close Knowledge.value_binary))
    intro hrest
    exact (chainFrom_at_end hrest chain).symm
  | succ n ih =>
    obtain ⟨budget, rfl⟩ := Nat.exists_eq_succ_of_ne_zero (Nat.ne_zero_of_lt hbudget)
    apply L.judged_bind judged_peekOperator
    intro found s₁ hlater₁ hfound
    cases found with
    | none =>
      have hchain₁ := hchain.imp fun e he => he.later hlater₁
      exact L.judged_pure (hchain₁.close Knowledge.value_binary)
    | some operator =>
      apply L.judged_bind (judged_discard L.judged_nextToken)
      intro _ s₂ hlater₂ _
      apply judged_operand_turn hsub (Nat.lt_succ_self n)
      intro e s₃ hlater₃ he
      have hlater := L.later_trans (L.later_trans hlater₁ hlater₂) hlater₃
      have hchain₃ := hchain.imp fun e he => he.later hlater
      exact ih (hsub.mono (Nat.le_succ n)) (Nat.le_of_succ_le_succ hbudget)
        (hchain₃.push Knowledge.value_binary (hfound _ _ rfl) he)

/-- An expression behind its token. -/
theorem judged_behindToken (htaken : L.Taken token s) (hbudget : n ≤ budget) :
    L.Judged n s (behindToken sub n token) (behindToken sub' budget token) L.Known := by
  apply L.judged_bind (judged_construct hsub htaken hbudget)
  intro e s₁ _ he
  apply L.judged_bind judged_peekOperator
  intro found s₂ hlater _
  cases found with
  | none => exact L.judged_pure (L.known_later he.1 hlater)
  | some operator =>
    apply L.judged_bind (judged_expectValue (L.known_later he.1 hlater))
    intro first s₃ _ hfirst
    have hsingle : (Chain.single first).All (L.Value · s₃) L.SeenOperator :=
      ⟨List.forall_mem_nil _, hfirst⟩
    exact judged_imp (judged_chainFrom hsub hbudget hsingle) fun e s' _ he => he.1

/-- The statements of a program, behind those that have been read. -/
theorem judged_statementsFrom (hbudget : n ≤ budget) {body : List Expr} :
    L.Judged n s (statementsFrom sub n body) (statementsFrom sub' budget body)
      fun body' s' => ∀ stmt ∈ body', stmt ∈ body ∨ L.Statement stmt s' := by
  have hdone : ∀ {m s} {body : List Expr}, L.Judged m s (pure body.reverse) (pure body.reverse)
      fun body' s' => ∀ stmt ∈ body', stmt ∈ body ∨ L.Statement stmt s' :=
    L.judged_pure fun stmt hstmt => Or.inl (List.mem_reverse.mp hstmt)
  induction n generalizing s budget body with
  | zero =>
    apply L.judged_end hdone
    intro hrest
    exact (statementsFrom_at_end hrest body).symm
  | succ n ih =>
    obtain ⟨budget, rfl⟩ := Nat.exists_eq_succ_of_ne_zero (Nat.ne_zero_of_lt hbudget)
    apply L.judged_bind L.judged_peekToken
    intro token s₁ _ _
    split
    case h_1 => exact hdone
    case h_2 => exact hdone
    case h_3 =>
      apply hsub.turn (Nat.lt_succ_self n)
      intro e s₂ _ he
      apply judged_collect_bind he
      intro body' s₃
      exact ih (hsub.mono (Nat.le_succ n)) (Nat.le_of_succ_le_succ hbudget)

/-- An expression takes room away from what follows it. -/
theorem judged_chained_turn {k : Nat} {f g : Expr → Reader β} {Q : β → Reading → Prop}
    (hk : k ≤ n) (hbudget : n ≤ budget)
    (h : ∀ e s', L.Later s s' → L.Known e s' → L.Judged k s' (f e) (g e) Q) :
    L.Judged (k + 1) s (chained sub n >>= f) (chained sub' budget >>= g) Q := by
  rw [chained_eq, chained_eq]
  refine judged_turn ?_ ?_ h
  · intro token s₁ htaken hkind
    unfold behindToken construct
    rw [hkind]
    apply L.judged_bind (P := fun _ _ => False)
      (L.judged_throw (L.place_of_seen (L.seen_of_taken htaken)) (Or.inl rfl))
    exact fun e s' _ hfalse => hfalse.elim
  · intro token s₁ htaken
    exact L.judged_mono hk (judged_behindToken hsub htaken hbudget)

end Constructs

/-! ### Whole programs -/

/-- Expressions of any depth. -/
theorem ready_expression (hbudget : n ≤ budget) : L.Ready n (expression n) (expression budget) := by
  induction n generalizing budget with
  | zero =>
    refine ⟨fun s => ?_, fun hk => absurd hk (Nat.not_lt_zero _)⟩
    refine L.judged_end ?_ fun hrest => (expression_at_end hrest).symm
    apply L.judged_bind L.judged_nextToken
    intro token s₁ _ htaken
    exact L.judged_throw (L.place_of_seen (L.seen_of_taken htaken)) (Or.inl rfl)
  | succ n ih =>
    obtain ⟨budget, rfl⟩ := Nat.exists_eq_succ_of_ne_zero (Nat.ne_zero_of_lt hbudget)
    have hle := Nat.le_of_succ_le_succ hbudget
    refine ⟨fun s => ?_, fun hk => judged_chained_turn (ih hle) (Nat.le_of_lt_succ hk) hle⟩
    rw [← bind_pure (expression (n + 1)), ← bind_pure (expression (budget + 1))]
    apply judged_chained_turn (ih hle) (Nat.le_refl n) hle
    intro e s' _ he
    exact L.judged_pure he

/-- Whole programs: all statements are known, with the number of inputs that is there in the end. -/
theorem judged_program (hbudget : n ≤ budget) :
    L.Judged n s (program n) (program budget) fun p s' =>
      p.inputCount = s'.inputCount ∧ ∀ stmt ∈ p.statements, L.Statement stmt s' := by
  have hrest : ∀ s, L.Judged n s (do
      let statements ← statementsFrom (expression n) n []
      return (⟨statements, ← countSoFar⟩ : Program)) (do
      let statements ← statementsFrom (expression budget) budget []
      return (⟨statements, ← countSoFar⟩ : Program)) fun p s' =>
        p.inputCount = s'.inputCount ∧ ∀ stmt ∈ p.statements, L.Statement stmt s' := by
    intro s
    apply L.judged_bind (judged_statementsFrom (ready_expression hbudget) hbudget)
    intro statements s₁ _ hread
    apply L.judged_bind L.judged_countSoFar
    intro count s₂ hlater hcount
    refine L.judged_pure ⟨hcount, fun stmt hstmt => ?_⟩
    exact ((hread stmt hstmt).resolve_left List.not_mem_nil).later hlater
  rw [program_eq, program_eq]
  apply L.judged_bind L.judged_peekToken
  intro token s₁ _ _
  by_cases hstart : token.kind = .sigil .programStart
  · simp only [if_pos hstart]
    apply L.judged_bind (judged_discard L.judged_nextToken)
    intro _ s₂ _ _
    exact hrest s₂
  · simp only [if_neg hstart]
    exact hrest s₁

end ReaderLogic

end Smil.Expr.Parser
