import Smil.Proofs.Chains
import Smil.Proofs.Scanning

/-!
# Reading values

The text of a value of the grammar is read back as that value, up to places, wherever it stands
before something that is no operator. A chain is read operand by operand: the operators that wait
for their right side while a part of the chain is read are those around the part, since each of
them binds less tightly than the part's own operators.
-/

namespace Smil.Expr

/-! ### Chains -/

/-- The operators on the right edge of a chain, the innermost first. -/
def spine : Expr → List Waiting
  | binary left op right span => right.spine ++ [⟨left, op, span⟩]
  | _ => []

/-- The operand that a chain starts with. -/
def firstOperand : Expr → Expr
  | binary left _ _ _ => left.firstOperand
  | e => e

/-- The operand that a chain ends with. -/
def lastOperand : Expr → Expr
  | binary _ _ right _ => right.lastOperand
  | e => e

/-- Whether each operator on the right edge of a chain binds more tightly than the one around
it. -/
def Rising : Expr → Prop
  | binary _ op right _ => op.precedence.rank < right.tightness ∧ right.Rising
  | _ => True

/-- How tightly a tree binds does not depend on where it stands. -/
@[simp] theorem tightness_erase (e : Expr) : e.erase.tightness = e.tightness := by
  cases e <;> simp only [erase, tightness]

/-- The operators along the right edge of a tree do not depend on where the tree stands. -/
theorem rising_erase (e : Expr) : e.erase.Rising ↔ e.Rising := by
  fun_induction Rising e with
  | case1 left op right span ih => simp only [erase, Rising, tightness_erase, ih]
  | case2 e hne =>
    cases e with
    | binary left op right span => exact absurd rfl (hne left op right span)
    | _ => simp only [erase, Rising]

/-- In a tree of the grammar the operators along the right edge bind tighter and tighter. -/
theorem IsTerm.rising {role : Role} {e : Expr} (h : IsTerm role e) : e.Rising := by
  induction h with
  | binary op span hleft hright hends hlooser htighter ihLeft ihRight => exact ⟨htighter, ihRight⟩
  | chain h ih => exact ih
  | _ => trivial

/-- Every term yields a value. -/
theorem IsTerm.yieldsValue {role : Role} {e : Expr} (h : IsTerm role e) :
    e.yieldsValue = true := by
  induction h with
  | chain h ih => exact ih
  | _ => rfl

/-- Closing the right edge of a chain gives the chain. -/
theorem close_spine (e : Expr) (ws : List Waiting) :
    Chain.close ⟨e.spine ++ ws, e.lastOperand⟩ = Chain.close ⟨ws, e⟩ := by
  fun_induction lastOperand e generalizing ws with
  | case1 left op right span ih =>
    rw [spine, List.append_assoc, ih]
    rfl
  | case2 e hne =>
    rw [spine, List.nil_append]
    exact hne

/-- An operator that binds no more tightly than a chain closes the right edge of the chain. -/
theorem reduce_spine {e : Expr} (h : e.Rising) {op : Operator}
    (hop : op.precedence.rank ≤ e.tightness) (ws : List Waiting) :
    Chain.reduce op (e.spine ++ ws) e.lastOperand = Chain.reduce op ws e := by
  fun_induction lastOperand e generalizing ws with
  | case1 left op' right span ih =>
    obtain ⟨htighter, hright⟩ := h
    have hbinds : op'.bindsBefore op = true := decide_eq_true hop
    have hop' : op.precedence.rank ≤ op'.precedence.rank := hop
    rw [spine, List.append_assoc, ih hright (by omega), List.singleton_append, Chain.reduce,
      if_pos hbinds]
    rfl
  | case2 e hne =>
    rw [spine, List.nil_append]
    exact hne

/-- An operator that binds more tightly than the innermost waiting operator closes none. -/
theorem reduce_of_tighter {ws : List Waiting} {op : Operator}
    (h : ∀ w ∈ ws.head?, w.op.precedence.rank < op.precedence.rank) (e : Expr) :
    Chain.reduce op ws e = (ws, e) := by
  cases ws with
  | nil => rfl
  | cons w ws =>
    have hw := h w rfl
    have hbinds : ¬ w.op.bindsBefore op = true := by
      simp only [Operator.bindsBefore, decide_eq_true_eq]
      omega
    rw [Chain.reduce, if_neg hbinds]

/-- An operator behind a part of a chain takes the whole part as its left side. -/
theorem push_spine {e : Expr} (h : e.Rising) {op : Operator}
    (hop : op.precedence.rank ≤ e.tightness) {ws : List Waiting}
    (hws : ∀ w ∈ ws.head?, w.op.precedence.rank < op.precedence.rank) (span : Span)
    (operand : Expr) :
    Chain.push ⟨e.spine ++ ws, e.lastOperand⟩ op span operand =
      ⟨⟨e, op, span⟩ :: ws, operand⟩ := by
  unfold Chain.push
  rw [reduce_spine h hop, reduce_of_tighter hws]

/-- The text of a chain behind its first operand. -/
def operatorsText : Expr → List Char
  | binary left op right _ =>
    left.operatorsText ++ ' ' :: ((Sigil.operator op).text.toList ++ ' ' :: right.text)
  | _ => []

/-- The text of a chain is the text of its first operand and what follows. -/
theorem text_eq_append (e : Expr) : e.text = e.firstOperand.text ++ e.operatorsText := by
  fun_induction firstOperand e with
  | case1 left op right span ih => rw [text, operatorsText, ih, List.append_assoc]
  | case2 e hne =>
    rw [operatorsText, List.append_nil]
    exact hne

/-- The first operand of a tree mentions no input that the tree does not mention. -/
theorem inputs_firstOperand_le (e : Expr) : e.firstOperand.inputs ≤ e.inputs := by
  fun_induction firstOperand e with
  | case1 left op right span ih =>
    rw [inputs]
    omega
  | case2 e hne => exact Nat.le_refl _

/-- Behind the first operand there is nothing or an operator. -/
theorem operatorsText_cases (e : Expr) : (e.operatorsText = [] ∧ e.firstOperand = e) ∨
    ∃ op rest, e.operatorsText = ' ' :: ((Sigil.operator op).text.toList ++ rest) := by
  fun_induction operatorsText e with
  | case1 left op right span ih =>
    right
    rcases ih with ⟨hnil, -⟩ | ⟨op', rest, hcons⟩
    · exact ⟨op, ' ' :: right.text, by rw [hnil]; rfl⟩
    · exact ⟨op', rest ++ ' ' :: ((Sigil.operator op).text.toList ++ ' ' :: right.text),
        by simp [hcons]⟩
  | case2 e hne =>
    left
    refine ⟨rfl, ?_⟩
    rw [firstOperand]
    exact hne

/-- The first operand of a chain is a term. -/
theorem isTerm_firstOperand {e : Expr} (h : IsTerm .chained e) :
    IsTerm .chained e.firstOperand := by
  generalize hrole : Role.chained = role at h
  induction h with
  | binary op span hleft hright hends hlooser htighter ihLeft ihRight => exact ihLeft hrole
  | chain h ih => cases hrole
  | pop span htarget hassignable ih => cases hrole
  | var inverted span hname => exact .var inverted span hname
  | namedVar span hname hopens ih => exact .namedVar span hname hopens
  | input index span => exact .input index span
  | lengthOf span hoperand ih => exact .lengthOf span hoperand

/-- A chain that does not end with a length does not start with one. -/
theorem IsTerm.endsInLength_firstOperand {role : Role} {e : Expr} (h : IsTerm role e)
    (hends : e.endsInLength = false) : e.firstOperand.endsInLength = false := by
  induction h with
  | binary op span hleft hright hendsLeft hlooser htighter ihLeft ihRight =>
    rw [firstOperand]
    exact ihLeft hendsLeft
  | chain h ih => exact ih hends
  | _ => exact hends

end Smil.Expr

namespace Smil.Sigil

/-- Whether an operand starts with a sigil. -/
def startsOperand : Sigil → Bool
  | varStart | negatedVarStart | input | lengthOf => true
  | _ => false

/-- Whether an expression starts with a sigil. -/
def startsExpression : Sigil → Bool
  | varStart | negatedVarStart | input | assign | printStart | hello | exit | stackPush | stackPop
  | stackClear | loopStart | lengthOf => true
  | _ => false

/-- An expression starts with a sigil that is no operator. -/
theorem operator?_eq_none {s : Sigil} (h : s.startsExpression = true) : s.operator? = none := by
  cases s <;> first | rfl | cases h

/-- A sigil has two characters at least. -/
theorem two_le_length_text (s : Sigil) : 2 ≤ s.text.toList.length := by
  cases s with
  | operator op => cases op <;> decide
  | _ => decide

end Smil.Sigil

namespace Smil.Expr.Parser

open Cursor

/-- The text of a tree starts with a sigil that starts expressions. -/
def Opens (e : Expr) : Prop :=
  ∃ (s : Sigil) (rest : List Char), s.startsExpression = true ∧ e.text = s.text.toList ++ rest

/-- What opens an expression has two characters at least. -/
theorem Opens.two_le_length {e : Expr} (h : Opens e) : 2 ≤ e.text.length := by
  obtain ⟨s, rest, -, htext⟩ := h
  have hs := s.two_le_length_text
  rw [htext, List.length_append]
  omega

/-- A value can end before an expression. -/
theorem Opens.quiet {e : Expr} (h : Opens e) (tail : List Char) :
    Quiet (' ' :: (e.text ++ tail)) := by
  obtain ⟨s, rest, hs, htext⟩ := h
  rw [htext, List.append_assoc]
  exact quiet_sigil (Sigil.operator?_eq_none hs) _

/-- A term starts with the sigil of an operand or with that of a pop. -/
theorem opens_of_isTerm {role : Role} {e : Expr} (h : IsTerm role e) : Opens e := by
  induction h with
  | var inverted span hname =>
    rw [Opens, text]
    exact ⟨_, _, by cases inverted <;> rfl, rfl⟩
  | namedVar span hname hopens ih =>
    rw [Opens, text]
    exact ⟨.varStart, _, rfl, rfl⟩
  | input index span =>
    rw [Opens, text, List.replicate_succ, List.flatten_cons]
    exact ⟨.input, _, rfl, rfl⟩
  | lengthOf span hoperand ih =>
    rw [Opens, text]
    exact ⟨.lengthOf, _, rfl, rfl⟩
  | binary op span hleft hright hends hlooser htighter ihLeft ihRight =>
    obtain ⟨s, rest, hs, htext⟩ := ihLeft
    rw [Opens, text, htext, List.append_assoc]
    exact ⟨s, _, hs, rfl⟩
  | chain h ih => exact ih
  | pop span htarget hassignable ih =>
    rw [Opens, text]
    exact ⟨.stackPop, _, rfl, rfl⟩

/-! ### Operands -/

/-- The text of a tree is read back by `r` as the tree, up to places, wherever a value can end. -/
def Reads (r : Reader Expr) (e : Expr) : Prop :=
  ∀ gap tail pos pending count, Gap gap → Quiet tail → ∃ e' pos', e'.erase = e.erase ∧
    r ⟨⟨gap ++ (e.text ++ tail), pos⟩, pending, count⟩ =
      .ok (e', ⟨⟨tail, pos'⟩, pending, max count e.inputs⟩)

/-- The text of an operand is read back at the start of an expression and behind an operator. An
operand may end before an operator, unless it is a length. -/
def OperandReads (sub : Reader Expr) (budget : Nat) (e : Expr) : Prop :=
  ∀ gap tail pos pending count, Gap gap → Apart tail → (e.endsInLength = true → Quiet tail) →
    ∃ e' pos', e'.erase = e.erase ∧
      (nextToken >>= construct sub budget) ⟨⟨gap ++ (e.text ++ tail), pos⟩, pending, count⟩ =
        .ok (e', ⟨⟨tail, pos'⟩, pending, max count e.inputs⟩) ∧
      operand sub ⟨⟨gap ++ (e.text ++ tail), pos⟩, pending, count⟩ =
        .ok (e', ⟨⟨tail, pos'⟩, pending, max count e.inputs⟩)

/-- Behind the sigil of an operand, an operand is read as any construct is. -/
theorem operand_eq_construct {sub : Reader Expr} {budget : Nat} {token : Token} {s : Sigil}
    {st st' : Reading} (htoken : nextToken st = .ok (token, st')) (hkind : token.kind = .sigil s)
    (hs : s.startsOperand = true) : operand sub st = construct sub budget token st' := by
  unfold operand construct
  rw [run_bind_of_ok htoken, hkind]
  cases s <;> first | rfl | cases hs

/-- An operand is read if what follows its sigil is. -/
theorem operandReads_of_sigil {sub : Reader Expr} {budget : Nat} {e : Expr} {s : Sigil}
    {rest : List Char} (htext : e.text = s.text.toList ++ rest) (hs : s.startsOperand = true)
    (h : ∀ token tail pos pending count, token.kind = .sigil s → Apart tail →
      (e.endsInLength = true → Quiet tail) → ∃ e' pos', e'.erase = e.erase ∧
        construct sub budget token ⟨⟨rest ++ tail, pos⟩, pending, count⟩ =
          .ok (e', ⟨⟨tail, pos'⟩, pending, max count e.inputs⟩)) :
    OperandReads sub budget e := by
  intro gap tail pos pending count hgap hapart hquiet
  obtain ⟨token, pos', hkind, htoken⟩ := nextToken_sigil hgap s (rest ++ tail) pos pending count
  obtain ⟨e', pos'', herase, hread⟩ := h token tail pos' pending count hkind hapart hquiet
  rw [htext, List.append_assoc]
  refine ⟨e', pos'', herase, ?_, ?_⟩
  · rw [run_bind_of_ok htoken, hread]
  · rw [operand_eq_construct htoken hkind hs, hread]

/-- A value that is read is accepted as a value. -/
theorem value_of_reads {sub : Reader Expr} {st st' : Reading} {e : Expr}
    (h : sub st = .ok (e, st')) (he : e.yieldsValue = true) : value sub st = .ok (e, st') := by
  rw [value, run_bind_of_ok h, expectValue_of_yieldsValue he]

variable {sub : Reader Expr} {budget : Nat}

/-- A plain variable is read. -/
theorem var_reads {name : String} (h : IsName name) (inverted : Bool) (span : Span) :
    OperandReads sub budget (.var name inverted span) := by
  refine operandReads_of_sigil (s := if inverted then .negatedVarStart else .varStart)
    (by rw [text]) (by cases inverted <;> rfl) ?_
  intro token tail pos pending count hkind _ _
  obtain ⟨pos', hvar⟩ := variableRef_var h sub inverted token.span tail pos pending count
  refine ⟨.var name inverted token.span, pos', ?_, ?_⟩
  · rw [erase, erase]
  · rw [inputs, Nat.max_zero, List.append_assoc, ← hvar]
    unfold construct
    rw [hkind]
    cases inverted <;> rfl

/-- An input is read. -/
theorem input_reads (index : Nat) (span : Span) : OperandReads sub budget (.input index span) := by
  refine operandReads_of_sigil (s := .input) (by rw [text, List.replicate_succ, List.flatten_cons])
    rfl ?_
  intro token tail pos pending count hkind hapart _
  obtain ⟨pos', hinput⟩ := inputRef_input index token.span hapart pos pending count
  refine ⟨.input index token.span, pos', ?_, ?_⟩
  · rw [erase, erase]
  · rw [inputs, ← hinput]
    unfold construct
    rw [hkind]

/-- A chain that starts with the sigil of a variable. -/
theorem text_of_opensName {e : Expr} (h : e.opensName = true) :
    ∃ rest, e.text = Sigil.varStart.text.toList ++ rest := by
  fun_induction opensName e with
  | case1 left op right span ih =>
    obtain ⟨rest, hrest⟩ := ih h
    rw [text, hrest, List.append_assoc]
    exact ⟨_, rfl⟩
  | case2 name inverted span =>
    cases inverted with
    | false =>
      rw [text]
      exact ⟨_, rfl⟩
    | true => cases h
  | case3 name span =>
    rw [text]
    exact ⟨_, rfl⟩
  | case4 => cases h

/-- A variable with a nested name is read if the name is. -/
theorem namedVar_reads {name : Expr} (hopens : name.opensName = true)
    (hvalue : name.yieldsValue = true) (h : Reads sub name) (span : Span) :
    OperandReads sub budget (.namedVar name span) := by
  refine operandReads_of_sigil (s := .varStart) (by rw [text]) rfl ?_
  intro token tail pos pending count hkind _ _
  obtain ⟨inner, hinner⟩ := text_of_opensName hopens
  obtain ⟨name', pos', herase, hname⟩ := h [] (' ' :: (Sigil.varEnd.text.toList ++ tail))
    (pos.after ' ') pending count gap_nil (quiet_sigil rfl tail)
  obtain ⟨pos'', hend⟩ := expectSigil_sigil gap_space .varEnd tail pos' pending
    (max count name.inputs)
  have hvalue' : name'.yieldsValue = true := by
    rw [yieldsValue_congr herase, hvalue]
  refine ⟨.namedVar name' token.span, pos'', ?_, ?_⟩
  · rw [erase, erase, herase]
  · have hnested := variableRef_nested sub false token.span
      (inner ++ ' ' :: (Sigil.varEnd.text.toList ++ tail)) pos pending count
    rw [← List.append_assoc, ← hinner] at hnested
    rw [List.nil_append] at hname
    rw [List.singleton_append] at hend
    rw [run_bind_of_ok (value_of_reads hname hvalue'), run_bind_of_ok hend] at hnested
    unfold construct
    rw [hkind, inputs, List.cons_append, List.append_assoc, List.cons_append]
    exact hnested

/-- A length is read if its operand is. -/
theorem lengthOf_reads {e : Expr} (hvalue : e.yieldsValue = true) (h : Reads sub e) (span : Span) :
    OperandReads sub budget (.lengthOf e span) := by
  refine operandReads_of_sigil (s := .lengthOf) (by rw [text]) rfl ?_
  intro token tail pos pending count hkind _ hquiet
  obtain ⟨e', pos', herase, he⟩ := h [' '] tail pos pending count gap_space (hquiet rfl)
  have hvalue' : e'.yieldsValue = true := by
    rw [yieldsValue_congr herase, hvalue]
  refine ⟨.lengthOf e' token.span, pos', ?_, ?_⟩
  · rw [erase, erase, herase]
  · unfold construct
    rw [hkind, inputs]
    exact run_bind_of_ok (value_of_reads he hvalue')

/-! ### Chains of operands -/

/-- What follows the first operand of a chain is read back. The chain is read within waiting
operators `ws` that all bind less tightly, and what is left to close in the end is its right
edge. -/
def OperatorsRead (sub : Reader Expr) (e : Expr) : Prop :=
  ∀ n ws first tail pos pending count, e.operatorsText.length ≤ n → Apart tail →
    (e.endsInLength = true → Quiet tail) → first.erase = e.firstOperand.erase →
    e.firstOperand.inputs ≤ count → (∀ w ∈ ws.head?, w.op.precedence.rank < e.tightness) →
    ∃ (e' : Expr) (n' : Nat) (pos' : Position), e'.erase = e.erase ∧
      chainFrom sub n ⟨ws, first⟩ ⟨⟨e.operatorsText ++ tail, pos⟩, pending, count⟩ =
        chainFrom sub n' ⟨e'.spine ++ ws, e'.lastOperand⟩
          ⟨⟨tail, pos'⟩, pending, max count e.inputs⟩ ∧
      n ≤ n' + e.operatorsText.length

/-- A chain of one operand has no operators. -/
theorem chain_of_operand {e : Expr} (h : e.tightness = 3) :
    e.spine = [] ∧ e.lastOperand = e ∧ e.firstOperand = e ∧ e.operatorsText = [] := by
  cases e with
  | binary left op right span => cases op <;> cases h
  | _ => exact ⟨rfl, rfl, rfl, rfl⟩

/-- Behind an operand that is a whole chain nothing is read. -/
theorem operatorsRead_operand {e : Expr} (h : e.tightness = 3) : OperatorsRead sub e := by
  intro n ws first tail pos pending count _ _ _ herase hcount _
  obtain ⟨-, -, hfirst, htext⟩ := chain_of_operand h
  rw [hfirst] at herase hcount
  have h' : first.tightness = 3 := by rw [← tightness_erase, herase, tightness_erase, h]
  obtain ⟨hspine, hlast, -, -⟩ := chain_of_operand h'
  refine ⟨first, n, pos, herase, ?_, Nat.le_add_right n _⟩
  rw [htext, hspine, hlast, List.nil_append, List.nil_append, Nat.max_eq_left hcount]

/-- One step of a chain: an operator and the operand behind it. -/
theorem chainFrom_operator {e : Expr} (h : OperandReads sub budget e) (op : Operator) (n : Nat)
    (chain : Chain) {tail : List Char} (hapart : Apart tail)
    (hquiet : e.endsInLength = true → Quiet tail) (pos : Position) (pending : Option Expr)
    (count : Nat) :
    ∃ e' span pos', e'.erase = e.erase ∧
      chainFrom sub (n + 1) chain
        ⟨⟨' ' :: ((Sigil.operator op).text.toList ++ ' ' :: (e.text ++ tail)), pos⟩, pending,
          count⟩ =
      chainFrom sub n (chain.push op span e') ⟨⟨tail, pos'⟩, pending, max count e.inputs⟩ := by
  obtain ⟨span, hpeek⟩ := peekOperator_sigil gap_space op (' ' :: (e.text ++ tail)) pos pending
    count
  obtain ⟨token, pos₁, -, htoken⟩ := nextToken_sigil gap_space (.operator op)
    (' ' :: (e.text ++ tail)) pos pending count
  obtain ⟨e', pos₂, herase, -, hoperand⟩ := h [' '] tail pos₁ pending count gap_space hapart hquiet
  refine ⟨e', span, pos₂, herase, ?_⟩
  rw [chainFrom]
  rw [List.singleton_append] at hpeek htoken hoperand
  rw [run_bind_of_ok hpeek]
  dsimp only
  rw [run_bind_of_ok (run_discard_of_ok htoken), run_bind_of_ok hoperand]

/-- Behind the first operand of a chain there is a space or nothing. -/
theorem apart_operatorsText (e : Expr) {tail : List Char} (h : Apart tail) :
    Apart (e.operatorsText ++ tail) := by
  rcases operatorsText_cases e with ⟨hnil, -⟩ | ⟨op, rest, hcons⟩
  · rw [hnil]
    exact h
  · rw [hcons]
    exact apart_space _

/-- If the first operand of a chain is a length, it is the whole chain. -/
theorem quiet_operatorsText {e : Expr} (he : IsTerm .chained e) {tail : List Char}
    (hquiet : e.endsInLength = true → Quiet tail) (hends : e.firstOperand.endsInLength = true) :
    Quiet (e.operatorsText ++ tail) := by
  cases he with
  | binary op span hleft hright hendsLeft hlooser htighter =>
    rw [firstOperand, hleft.endsInLength_firstOperand hendsLeft] at hends
    cases hends
  | _ => exact hquiet hends

/-- A chain of two chains is read, one after the other. -/
theorem operatorsRead_binary {left right : Expr} {op : Operator} {span : Span}
    (h : IsTerm .chained (.binary left op right span)) (hleft : OperatorsRead sub left)
    (hfirst : OperandReads sub budget right.firstOperand) (hright : OperatorsRead sub right) :
    OperatorsRead sub (.binary left op right span) := by
  intro n ws first tail pos pending count hn hapart hquiet herase hcount hws
  cases h with
  | binary _ _ hleft' hright' hends hlooser htighter =>
    rw [operatorsText, text_eq_append right] at hn ⊢
    simp only [List.length_append, List.length_cons] at hn
    have hops : Apart (' ' :: ((Sigil.operator op).text.toList ++ ' ' ::
        (right.firstOperand.text ++ right.operatorsText)) ++ tail) := apart_space _
    -- The left part is read within the operators around the whole chain.
    obtain ⟨left', n₁, pos₁, heraseLeft, hreadLeft, hn₁⟩ := hleft n ws first _ pos pending count
      (by omega) hops (fun hlength => by rw [hends] at hlength; cases hlength) herase hcount
      (fun w hw => Nat.lt_of_lt_of_le (hws w hw) hlooser)
    obtain ⟨n₂, rfl⟩ : ∃ n₂, n₁ = n₂ + 1 := Nat.exists_eq_add_one_of_ne_zero (by omega)
    obtain ⟨first', span', pos₂, heraseFirst, hreadFirst⟩ := chainFrom_operator hfirst op n₂
      ⟨left'.spine ++ ws, left'.lastOperand⟩ (apart_operatorsText right hapart)
      (quiet_operatorsText hright' hquiet) pos₁ pending (max count left.inputs)
    have hrising : left'.Rising := by
      rw [← rising_erase, heraseLeft, rising_erase]
      exact hleft'.rising
    have hlooser' : op.precedence.rank ≤ left'.tightness := by
      rw [← tightness_erase, heraseLeft, tightness_erase]
      exact hlooser
    have hpush := push_spine hrising hlooser' hws span' first'
    -- The right part is read with the operator itself as the innermost one that waits.
    obtain ⟨right', n₃, pos₃, heraseRight, hreadRight, hn₃⟩ := hright n₂ (⟨left', op, span'⟩ :: ws)
      first' tail pos₂ pending (max (max count left.inputs) right.firstOperand.inputs) (by omega)
      hapart hquiet heraseFirst (Nat.le_max_right _ _) (fun w hw => by
        obtain rfl := Option.some.inj hw
        exact htighter)
    have hinputs : max (max (max count left.inputs) right.firstOperand.inputs) right.inputs =
        max count (inputs (.binary left op right span)) := by
      have hle := inputs_firstOperand_le right
      rw [inputs]
      omega
    refine ⟨.binary left' op right' span', n₃, pos₃, ?_, ?_, ?_⟩
    · rw [erase, erase, heraseLeft, heraseRight]
    · have hedge : (binary left' op right' span').spine ++ ws =
          right'.spine ++ ⟨left', op, span'⟩ :: ws := by
        rw [spine, List.append_assoc, List.singleton_append]
      rw [hpush, hreadRight, hinputs] at hreadFirst
      rw [lastOperand, hedge, ← hreadFirst, List.append_assoc, hreadLeft]
      simp
    · simp only [List.length_append, List.length_cons]
      omega

/-- A chain that goes on with no operator is closed. -/
theorem chainFrom_quiet (n : Nat) (chain : Chain) {tail : List Char} (h : Quiet tail)
    (pos : Position) (pending : Option Expr) (count : Nat) :
    chainFrom sub n chain ⟨⟨tail, pos⟩, pending, count⟩ =
      .ok (chain.close, ⟨⟨tail, pos⟩, pending, count⟩) := by
  cases n with
  | zero => rfl
  | succ n =>
    rw [chainFrom, run_bind_of_ok (peekOperator_quiet h pos pending count)]
    rfl

/-- A construct that no operator follows is an expression. -/
theorem chained_of_construct {st : Reading} {e : Expr} {tail : List Char} {pos : Position}
    {pending : Option Expr} {count : Nat}
    (h : (nextToken >>= construct sub budget) st = .ok (e, ⟨⟨tail, pos⟩, pending, count⟩))
    (hquiet : Quiet tail) :
    chained sub budget st = .ok (e, ⟨⟨tail, pos⟩, pending, count⟩) := by
  obtain ⟨token, st', htoken, hconstruct⟩ := ok_of_run_bind h
  rw [chained_eq, run_bind_of_ok htoken, behindToken, run_bind_of_ok hconstruct,
    run_bind_of_ok (peekOperator_quiet hquiet pos pending count)]
  rfl

/-- A chain is read if its first operand is and what follows it. -/
theorem chained_reads {e : Expr} (h : IsTerm .chained e)
    (hfirst : OperandReads sub budget e.firstOperand) (hops : OperatorsRead sub e)
    (hbudget : e.operatorsText.length ≤ budget) : Reads (chained sub budget) e := by
  intro gap tail pos pending count hgap hquiet
  obtain ⟨first, pos₁, heraseFirst, hconstruct, -⟩ := hfirst gap (e.operatorsText ++ tail) pos
    pending count hgap (apart_operatorsText e hquiet.apart)
    (quiet_operatorsText h fun _ => hquiet)
  rw [text_eq_append e, List.append_assoc]
  rcases operatorsText_cases e with ⟨hnil, hself⟩ | ⟨op, rest, hcons⟩
  · rw [hnil, List.nil_append] at hconstruct ⊢
    rw [hself] at hconstruct heraseFirst ⊢
    exact ⟨first, pos₁, heraseFirst, chained_of_construct hconstruct hquiet⟩
  · obtain ⟨span, hpeek⟩ := peekOperator_sigil gap_space op (rest ++ tail) pos₁ pending
      (max count e.firstOperand.inputs)
    have hvalue : first.yieldsValue = true := by
      rw [yieldsValue_congr heraseFirst, (isTerm_firstOperand h).yieldsValue]
    obtain ⟨e', n', pos', herase, hread, -⟩ := hops budget [] first tail pos₁ pending
      (max count e.firstOperand.inputs) hbudget hquiet.apart (fun _ => hquiet) heraseFirst
      (Nat.le_max_right _ _) (fun w hw => by cases hw)
    obtain ⟨token, st', htoken, hconstruct'⟩ := ok_of_run_bind hconstruct
    have hinputs : max (max count e.firstOperand.inputs) e.inputs = max count e.inputs := by
      have hle := inputs_firstOperand_le e
      omega
    have hpeek' : peekOperator ⟨⟨e.operatorsText ++ tail, pos₁⟩, pending,
        max count e.firstOperand.inputs⟩ = .ok (some (op, span),
          ⟨⟨e.operatorsText ++ tail, pos₁⟩, pending, max count e.firstOperand.inputs⟩) := by
      rw [hcons]
      simpa using hpeek
    refine ⟨e', pos', herase, ?_⟩
    rw [chained_eq, run_bind_of_ok htoken, behindToken, run_bind_of_ok hconstruct',
      run_bind_of_ok hpeek']
    dsimp only
    rw [run_bind_of_ok (expectValue_of_yieldsValue hvalue _), Chain.single, hread,
      chainFrom_quiet n' _ hquiet, close_spine,
      hinputs]
    rfl

/-- A chain is read within an expression whose budget is the length of its text: its first
operand, and what follows. -/
def ChainReads (e : Expr) : Prop :=
  ∀ budget, e.text.length ≤ budget + 1 →
    OperandReads (expression budget) budget e.firstOperand ∧ OperatorsRead (expression budget) e

/-- An operand that is read is a chain that is read. -/
theorem chainReads_operand {e : Expr} (h : e.tightness = 3)
    (hreads : ∀ budget, e.text.length ≤ budget + 1 → OperandReads (expression budget) budget e) :
    ChainReads e := by
  intro budget hbudget
  rw [(chain_of_operand h).2.2.1]
  exact ⟨hreads budget hbudget, operatorsRead_operand h⟩

/-- A chain is read by an expression whose budget is the length of its text. -/
theorem expression_reads {e : Expr} (h : IsTerm .chained e) (hchain : ChainReads e)
    {budget : Nat} (hbudget : e.text.length ≤ budget) : Reads (expression budget) e := by
  have hlength := (opens_of_isTerm h).two_le_length
  have hfirst := (opens_of_isTerm (isTerm_firstOperand h)).two_le_length
  obtain ⟨budget, rfl⟩ : ∃ n, budget = n + 1 := Nat.exists_eq_add_one_of_ne_zero (by omega)
  obtain ⟨hoperand, hops⟩ := hchain budget hbudget
  refine chained_reads h hoperand hops ?_
  rw [text_eq_append e, List.length_append] at hbudget
  omega

/-- A pop is read if its target is. -/
theorem pop_reads {target : Expr} (hassignable : target.isAssignable = true) (span : Span)
    (h : Reads sub target) : Reads (chained sub budget) (.pop target span) := by
  intro gap tail pos pending count hgap hquiet
  rw [text, List.append_assoc, List.cons_append]
  obtain ⟨token, pos₁, hkind, htoken⟩ := nextToken_sigil hgap .stackPop
    (' ' :: (target.text ++ tail)) pos pending count
  obtain ⟨target', pos', herase, htarget⟩ := h [' '] tail pos₁ pending count gap_space hquiet
  have hassignable' : target'.isAssignable = true := by
    rw [isAssignable_congr herase, hassignable]
  refine ⟨.pop target' token.span, pos', by rw [erase, erase, herase], ?_⟩
  refine chained_of_construct ?_ hquiet
  rw [run_bind_of_ok htoken]
  unfold construct
  rw [hkind]
  dsimp only
  rw [List.singleton_append] at htarget
  rw [run_bind_of_ok htarget,
    run_bind_of_ok (expectAssignable_of_isAssignable hassignable' _), inputs]
  rfl

/-- Every term of a chain is read as a chain. -/
theorem chainReads_of_isTerm {role : Role} {e : Expr} (h : IsTerm role e) :
    (role = .chained → ChainReads e) ∧
      ∀ budget, e.text.length ≤ budget → Reads (expression budget) e := by
  -- A chain is read as an expression by the same argument in every case.
  have hboth : ∀ {e : Expr}, IsTerm .chained e → ChainReads e →
      (Role.chained = .chained → ChainReads e) ∧
        ∀ budget, e.text.length ≤ budget → Reads (expression budget) e :=
    fun h hchain => ⟨fun _ => hchain, fun _ hbudget => expression_reads h hchain hbudget⟩
  induction h with
  | var inverted span hname =>
    exact hboth (.var inverted span hname)
      (chainReads_operand rfl fun budget _ => var_reads hname inverted span)
  | input index span =>
    exact hboth (.input index span)
      (chainReads_operand rfl fun budget _ => input_reads index span)
  | namedVar span hname hopens ih =>
    refine hboth (.namedVar span hname hopens) (chainReads_operand rfl fun budget hbudget => ?_)
    refine namedVar_reads hopens hname.yieldsValue (ih.2 budget ?_) span
    simp only [text, List.length_append, List.length_cons] at hbudget
    omega
  | lengthOf span hoperand ih =>
    refine hboth (.lengthOf span hoperand) (chainReads_operand rfl fun budget hbudget => ?_)
    refine lengthOf_reads hoperand.yieldsValue (ih.2 budget ?_) span
    simp only [text, List.length_append, List.length_cons] at hbudget
    omega
  | binary op span hleft hright hends hlooser htighter ihLeft ihRight =>
    have h := IsTerm.binary op span hleft hright hends hlooser htighter
    refine hboth h fun budget hbudget => ?_
    simp only [text, List.length_append, List.length_cons] at hbudget
    obtain ⟨hfirst, hopsLeft⟩ := ihLeft.1 rfl budget (by omega)
    obtain ⟨hfirstRight, hopsRight⟩ := ihRight.1 rfl budget (by omega)
    exact ⟨hfirst, operatorsRead_binary h hopsLeft hfirstRight hopsRight⟩
  | chain h ih => exact ⟨(fun hrole => by cases hrole), ih.2⟩
  | pop span htarget hassignable ih =>
    refine ⟨(fun hrole => by cases hrole), fun budget hbudget => ?_⟩
    simp only [text, List.length_append, List.length_cons] at hbudget
    obtain ⟨budget, rfl⟩ : ∃ n, budget = n + 1 := Nat.exists_eq_add_one_of_ne_zero (by omega)
    exact pop_reads hassignable span (ih.2 budget (by omega))

/-- Every term is read back by an expression whose budget is the length of its text. -/
theorem reads_of_isTerm {role : Role} {e : Expr} (h : IsTerm role e) {budget : Nat}
    (hbudget : e.text.length ≤ budget) : Reads (expression budget) e :=
  (chainReads_of_isTerm h).2 budget hbudget

end Smil.Expr.Parser
