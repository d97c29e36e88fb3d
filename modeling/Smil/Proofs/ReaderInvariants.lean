import Smil.Proofs.ReaderLogic

/-!
# Invariants of reading

An invariant of the state of reading is kept by all readers of programs if reading on keeps it,
whatever becomes pending and whatever input is counted. The readers that look at the text or at the
state change nothing else.
-/

namespace Smil.Expr.Parser

/-- The state behind the next token. -/
def Reading.pastToken (s : Reading) : Reading :=
  { s with cursor := s.cursor.token.2 }

/-- The state behind an input, of which the first sigil has been read. -/
def Reading.pastInput (s : Reading) : Reading where
  cursor := s.cursor.skip (2 * inputRun 0 s.cursor.rest)
  pending := s.pending
  inputCount := max s.inputCount (inputRun 0 s.cursor.rest + 1)

/-- An invariant of the state of reading, with what is known of trees and tokens while it holds. -/
structure ReaderInvariant extends Knowledge where
  /-- The invariant. -/
  Kept : Reading → Prop
  /-- The errors that reading may end with. -/
  Failure : Error → Prop
  later_refl (s : Reading) : Later s s
  /-- Reading on keeps the invariant. -/
  kept_cursor {s : Reading} {c : Cursor} : Kept s → s.cursor.ReadsTo c →
    Kept { s with cursor := c } ∧ Later s { s with cursor := c }
  /-- The next token is known behind it. -/
  taken_token {s : Reading} : Kept s → Taken s.cursor.token.1 s.pastToken
  /-- A tree that is known may become pending. -/
  kept_pending {s : Reading} {e : Expr} : Kept s → Known e s →
    Kept { s with pending := some e } ∧ Later s { s with pending := some e }
  /-- What is pending is known. -/
  known_pending {s : Reading} {e : Expr} : Kept s → e ∈ s.pending → Known e s
  /-- An input may be counted. -/
  kept_input {s : Reading} {token : Token} : Kept s → Taken token s → token.kind = .sigil .input →
    (Kept s.pastInput ∧ Later s s.pastInput) ∧
      Known (.input (inputRun 0 s.cursor.rest) token.span) s.pastInput
  failure {cause : Cause} {span : Span} : Place span →
    cause.category = .syntactic ∨ cause.category = .assignability → Failure (.placed cause span)

namespace ReaderInvariant

/-- From a state with the invariant a reader leads to a later one with the invariant. -/
def Holds (V : ReaderInvariant) {α : Type} (s : Reading) (r : Reader α) (P : α → Reading → Prop) :
    Prop :=
  Keeps V.Kept V.Failure s r fun a s' => P a s' ∧ V.Later s s'

variable {V : ReaderInvariant} {s : Reading} {α β : Type} {P : α → Reading → Prop}
  {Q : β → Reading → Prop}

/-- The second step leads on from where the first one has ended. -/
theorem Holds.bind {x : Reader α} {f : α → Reader β} (hx : V.Holds s x P)
    (hf : ∀ a s', V.Later s s' → P a s' → V.Holds s' (f a) Q) : V.Holds s (x >>= f) Q := by
  apply Keeps.bind hx
  intro a s₁ ha
  apply (hf a s₁ ha.2 ha.1).imp
  intro b s₂ hb
  exact ⟨hb.1, V.later_trans ha.2 hb.2⟩

/-- Reading on, with a result that has a property there. -/
theorem Holds.of_cursor {x : Reader α} {a : α} {c : Cursor} (hc : s.cursor.ReadsTo c)
    (hx : x s = .ok (a, { s with cursor := c })) (h : V.Kept s → P a { s with cursor := c }) :
    V.Holds s x P := by
  apply Keeps.of_ok hx
  intro hs
  obtain ⟨hkept, hlater⟩ := V.kept_cursor hs hc
  exact ⟨⟨h hs, hlater⟩, hkept⟩

/-- Looking at something, with a result that has a property. -/
theorem Holds.of_same {x : Reader α} {a : α} (hx : x s = .ok (a, s)) (h : V.Kept s → P a s) :
    V.Holds s x P :=
  Keeps.of_ok hx fun hs => ⟨⟨h hs, V.later_refl s⟩, hs⟩

/-- The next token is read, and the invariant is kept. -/
theorem holds_nextToken : V.Holds s nextToken V.Taken :=
  Holds.of_cursor s.cursor.readsTo_token rfl V.taken_token

/-- An invariant of reading is a judgement about readers. It does not depend on budgets. -/
def logic (V : ReaderInvariant) : ReaderLogic where
  toKnowledge := V.toKnowledge
  Judged _ s x _ P := V.Holds s x P
  judged_pure h := Keeps.pure ⟨h, V.later_refl _⟩
  judged_throw hplace hcause := Keeps.throw (V.failure hplace hcause)
  judged_bind := Holds.bind
  judged_mono _ h := h
  judged_end h _ := h
  judged_nextToken := holds_nextToken
  judged_token hend h := by
    apply holds_nextToken.bind
    intro token s' hlater htaken
    by_cases hkind : token.kind = .endOfInput
    · exact hend token s' hlater htaken hkind
    · exact h token s' hlater htaken hkind
  judged_peekToken := Holds.of_same rfl fun hs => V.seen_of_taken (V.taken_token hs)
  judged_setPending he := by
    apply Keeps.of_ok rfl
    intro hs
    obtain ⟨hkept, hlater⟩ := V.kept_pending hs he
    exact ⟨⟨trivial, hlater⟩, hkept⟩
  judged_pendingExpr := Holds.of_same rfl fun hs _ he => V.known_pending hs he
  judged_countSoFar := Holds.of_same rfl fun _ => rfl
  judged_nameOrNested {_ s span} hplace := by
    rcases nameOrNested_cases span s with ⟨found, c, hc, hread⟩ | hread
    · exact Holds.of_cursor hc hread fun _ => trivial
    · exact Keeps.of_error hread (V.failure hplace (Or.inl rfl))
  judged_inputIndex htaken hkind := by
    apply Keeps.of_ok rfl
    intro hs
    obtain ⟨⟨hkept, hlater⟩, hknown⟩ := V.kept_input hs htaken hkind
    exact ⟨⟨hknown, hlater⟩, hkept⟩
  judged_lineText {_ s} := Holds.of_cursor s.cursor.readsTo_readLine rfl fun _ => trivial

/-- Readers inside a construct only have to keep the invariant. -/
theorem ready {sub sub' : Reader Expr} (h : ∀ s, V.Holds s sub V.Known) (n : Nat) :
    V.logic.Ready n sub sub' :=
  ⟨h, fun _ hf => (h _).bind hf⟩

/-- A source is read from a state with the invariant. Then the statements of the program are known
in a state with the invariant, in which the number of inputs is that of the program. -/
theorem of_parse {source : String} (hs : V.Kept ⟨Cursor.ofString source, none, 0⟩) :
    (∀ p, parse source = .ok p → ∃ s', V.Kept s' ∧ p.inputCount = s'.inputCount ∧
      ∀ stmt ∈ p.statements, V.Statement stmt s') ∧
    ∀ e, parse source = .error e → V.Failure e := by
  have hprogram : ∀ budget s, V.logic.Judged budget s (program budget) (program budget)
      fun p s' => p.inputCount = s'.inputCount ∧ ∀ stmt ∈ p.statements, V.Statement stmt s' :=
    fun budget s => ReaderLogic.judged_program (Nat.le_refl budget)
  obtain ⟨hok, herror⟩ := Keeps.run' (hprogram _ _) hs
  refine ⟨?_, herror⟩
  intro p hp
  obtain ⟨s', ⟨⟨hcount, hstatements⟩, -⟩, hs'⟩ := hok p hp
  exact ⟨s', hs', hcount, hstatements⟩

end ReaderInvariant

end Smil.Expr.Parser
