import Smil.Proofs.Grammar
import Smil.Proofs.Names

/-!
# Reading single words

What the reader of programs makes of one word of a text: a sigil is cut off whatever follows it, a
name reaches to the sigil that ends it, and an input takes the sigils that follow without a gap.
Positions only place what is read and never decide how it is read.
-/

namespace Smil

/-! ### Tokens -/

namespace Cursor

/-- White space between tokens. -/
def Gap (gap : List Char) : Prop :=
  ∀ c ∈ gap, isGap c = true

/-- There may be no white space at all. -/
theorem gap_nil : Gap [] := fun _ hc => absurd hc List.not_mem_nil

/-- A space is white space. -/
theorem gap_space : Gap [' '] := by
  intro c hc
  rw [List.mem_singleton.mp hc]
  rfl

/-- White space in front of a token is skipped. -/
theorem token_gap {gap : List Char} (hgap : Gap gap) (rest : List Char) (pos : Position) :
    token ⟨gap ++ rest, pos⟩ = token ⟨rest, pos.afterAll gap⟩ := by
  have hskip : skipWhile isGap ⟨gap ++ rest, pos⟩ = skipWhile isGap ⟨rest, pos.afterAll gap⟩ := by
    simp only [skipWhile, List.takeWhile_append_of_pos hgap, List.dropWhile_append_of_pos hgap,
      Position.afterAll, List.foldl_append]
  unfold token
  rw [hskip]

/-- Reading as many characters as a text has reads that text. -/
theorem skip_append (front rest : List Char) (pos : Position) :
    skip front.length ⟨front ++ rest, pos⟩ = ⟨rest, pos.afterAll front⟩ := by
  simp only [skip, List.drop_left, List.take_left]

/-- The spelling of a sigil is cut off as a token of that kind. -/
theorem token_sigil (s : Sigil) (tail : List Char) (pos : Position) :
    ∃ t pos', token ⟨s.text.toList ++ tail, pos⟩ = (t, ⟨tail, pos'⟩) ∧ t.kind = .sigil s := by
  cases s with
  | operator op => cases op <;> exact ⟨_, _, rfl, rfl⟩
  | _ => exact ⟨_, _, rfl, rfl⟩

end Cursor

namespace Expr.Parser

open Cursor

variable {gap : List Char}

/-- A sigil is read, and its text is used up. -/
theorem nextToken_sigil (hgap : Gap gap) (s : Sigil) (tail : List Char) (pos : Position)
    (pending : Option Expr) (count : Nat) :
    ∃ token pos', token.kind = .sigil s ∧
      nextToken ⟨⟨gap ++ (s.text.toList ++ tail), pos⟩, pending, count⟩ =
        .ok (token, ⟨⟨tail, pos'⟩, pending, count⟩) := by
  obtain ⟨token, pos', htoken, hkind⟩ := token_sigil s tail (pos.afterAll gap)
  refine ⟨token, pos', hkind, ?_⟩
  rw [← token_gap hgap] at htoken
  change Except.ok ((Cursor.token ⟨gap ++ (s.text.toList ++ tail), pos⟩).1, Reading.mk
    (Cursor.token ⟨gap ++ (s.text.toList ++ tail), pos⟩).2 pending count) = _
  rw [htoken]

/-- A sigil is seen without being read. -/
theorem peekToken_sigil (hgap : Gap gap) (s : Sigil) (tail : List Char) (pos : Position)
    (pending : Option Expr) (count : Nat) :
    ∃ token, token.kind = .sigil s ∧
      peekToken ⟨⟨gap ++ (s.text.toList ++ tail), pos⟩, pending, count⟩ =
        .ok (token, ⟨⟨gap ++ (s.text.toList ++ tail), pos⟩, pending, count⟩) := by
  obtain ⟨token, pos', htoken, hkind⟩ := token_sigil s tail (pos.afterAll gap)
  refine ⟨token, hkind, ?_⟩
  rw [← token_gap hgap] at htoken
  change Except.ok ((Cursor.token ⟨gap ++ (s.text.toList ++ tail), pos⟩).1, _) = _
  rw [htoken]

/-- Where a word can end: at the end of the text or at a space. -/
def Apart (tail : List Char) : Prop :=
  ∀ c ∈ tail.head?, c = ' '

/-- A word can end at a space. -/
theorem apart_space (tail : List Char) : Apart (' ' :: tail) :=
  fun _ hc => (Option.some.inj hc).symm

/-- Where a value can end: at the end of the text, or at a space behind which no operator
stands. -/
structure Quiet (tail : List Char) : Prop where
  apart : Apart tail
  noOperator : ∀ pos, (Cursor.mk tail pos).peek.kind.operator? = none

/-- A value can end at the end of the text. -/
theorem quiet_nil : Quiet [] := by
  refine ⟨fun c hc => ?_, fun _ => rfl⟩
  cases hc

/-- A value ends at a sigil that is no operator. -/
theorem quiet_sigil {s : Sigil} (hs : s.operator? = none) (tail : List Char) :
    Quiet (' ' :: (s.text.toList ++ tail)) := by
  refine ⟨apart_space _, fun pos => ?_⟩
  obtain ⟨token, pos', htoken, hkind⟩ := token_sigil s tail (pos.afterAll [' '])
  rw [← token_gap gap_space] at htoken
  change (Cursor.token ⟨[' '] ++ (s.text.toList ++ tail), pos⟩).1.kind.operator? = none
  rw [htoken, hkind]
  exact hs

/-- No operator is seen where a value ends. -/
theorem peekOperator_quiet (h : Quiet tail) (pos : Position) (pending : Option Expr)
    (count : Nat) :
    peekOperator ⟨⟨tail, pos⟩, pending, count⟩ = .ok (none, ⟨⟨tail, pos⟩, pending, count⟩) := by
  change Except.ok (Option.map _ (Cursor.mk tail pos).peek.kind.operator?, _) = _
  rw [h.noOperator pos]
  rfl

/-- An operator is seen without being read. -/
theorem peekOperator_sigil (hgap : Gap gap) (op : Operator) (tail : List Char) (pos : Position)
    (pending : Option Expr) (count : Nat) :
    ∃ span, peekOperator ⟨⟨gap ++ ((Sigil.operator op).text.toList ++ tail), pos⟩, pending, count⟩ =
      .ok (some (op, span),
        ⟨⟨gap ++ ((Sigil.operator op).text.toList ++ tail), pos⟩, pending, count⟩) := by
  obtain ⟨token, hkind, hpeek⟩ :=
    peekToken_sigil hgap (.operator op) tail pos pending count
  refine ⟨token.span, ?_⟩
  unfold peekOperator
  rw [run_bind_of_ok hpeek, hkind]
  rfl

/-- A sigil that is expected is read. -/
theorem expectSigil_sigil (hgap : Gap gap) (s : Sigil) (tail : List Char) (pos : Position)
    (pending : Option Expr) (count : Nat) :
    ∃ pos', expectSigil s ⟨⟨gap ++ (s.text.toList ++ tail), pos⟩, pending, count⟩ =
      .ok ((), ⟨⟨tail, pos'⟩, pending, count⟩) := by
  obtain ⟨token, pos', hkind, htoken⟩ := nextToken_sigil hgap s tail pos pending count
  refine ⟨pos', ?_⟩
  unfold expectSigil
  rw [run_bind_of_ok htoken, if_pos hkind]
  rfl

/-- A value is accepted where a value is expected. -/
theorem expectValue_of_yieldsValue {e : Expr} (h : e.yieldsValue = true) (st : Reading) :
    expectValue e st = .ok (e, st) := by
  rw [expectValue, if_pos h]
  rfl

/-- A variable is accepted where a target is expected. -/
theorem expectAssignable_of_isAssignable {e : Expr} (h : e.isAssignable = true) (st : Reading) :
    expectAssignable e st = .ok (e, st) := by
  rw [expectAssignable, if_pos h]
  rfl

/-! ### Names -/

/-- A trimmed text does not start with white space. -/
theorem not_isBlank_head {name : String} (h : Text.trim name = name) {c : Char} {rest : List Char}
    (hname : name.toList = c :: rest) : Text.isBlank c = false := by
  have htrim : Text.trimChars (c :: rest) = c :: rest := by
    have hlist := congrArg String.toList h
    rwa [Text.trim, String.toList_ofList, hname] at hlist
  cases hblank : Text.isBlank c with
  | false => rfl
  | true =>
    -- The white space would be dropped, and the trimmed text would be shorter.
    have hdrop : Text.trimStart (c :: rest) = Text.trimStart rest := by
      simp [Text.trimStart, hblank]
    have hstart : (Text.trimStart rest).length ≤ rest.length :=
      (List.dropWhile_suffix Text.isBlank).length_le
    have hend : (Text.trimEnd (Text.trimStart rest)).length ≤ (Text.trimStart rest).length := by
      have hsuffix := (List.dropWhile_suffix (l := (Text.trimStart rest).reverse)
        Text.isBlank).length_le
      rwa [List.length_reverse, ← List.length_reverse] at hsuffix
    have hlength := congrArg List.length htrim
    rw [Text.trimChars, hdrop, List.length_cons] at hlength
    omega

/-- A plain name is read as it stands. -/
theorem variableRef_var {name : String} (h : IsName name) (sub : Reader Expr) (inverted : Bool)
    (span : Span) (tail : List Char) (pos : Position) (pending : Option Expr) (count : Nat) :
    ∃ pos', variableRef sub inverted span
        ⟨⟨name.toList ++ (Sigil.varEnd.text.toList ++ tail), pos⟩, pending, count⟩ =
      .ok (.var name inverted span, ⟨⟨tail, pos'⟩, pending, count⟩) := by
  have hinside : Text.trimStart (name.toList ++ ':' :: ')' :: tail) =
      name.toList ++ ':' :: ')' :: tail := by
    cases hname : name.toList with
    | nil => rfl
    | cons c rest =>
      rw [List.cons_append, Text.trimStart, List.dropWhile_cons_of_neg]
      simp [not_isBlank_head h.trimmed hname]
  have hplain : ¬ Sigil.varStart.text.toList <+: name.toList ++ ':' :: ')' :: tail := by
    rintro ⟨rest, hrest⟩
    cases hname : name.toList with
    | nil =>
      rw [hname] at hrest
      cases hrest
    | cons c cs =>
      rw [hname] at hrest
      cases cs with
      | nil => cases hrest
      | cons d cs =>
        cases hrest
        exact h.notNested ⟨cs, hname.symm⟩
  have htrim : String.ofList (Text.trimChars name.toList) = name := h.trimmed
  have hread : variableRef sub inverted span
      ⟨⟨name.toList ++ ':' :: ')' :: tail, pos⟩, pending, count⟩ = _ :=
    variableRef_of_closed (by rwa [hinside]) rfl h.notEnded
  rw [htrim] at hread
  exact ⟨_, hread⟩

/-- A nested name is read as an expression. -/
theorem variableRef_nested (sub : Reader Expr) (inverted : Bool) (span : Span) (text : List Char)
    (pos : Position) (pending : Option Expr) (count : Nat) :
    variableRef sub inverted span
        ⟨⟨' ' :: (Sigil.varStart.text.toList ++ text), pos⟩, pending, count⟩ =
      (do
        let name ← value sub
        expectSigil .varEnd
        return .namedVar name span : Reader Expr)
        ⟨⟨Sigil.varStart.text.toList ++ text, pos.after ' '⟩, pending, count⟩ :=
  variableRef_of_nested ⟨text, rfl⟩

/-! ### Inputs -/

/-- The sigils of an input have two characters each. -/
theorem length_flatten_input (index : Nat) :
    (List.replicate index Sigil.input.text.toList).flatten.length = 2 * index := by
  rw [List.length_flatten, List.map_replicate, List.sum_replicate_nat]
  exact Nat.mul_comm index 2

/-- No input sigil stands where a word can end. -/
theorem Apart.not_input {tail : List Char} (h : Apart tail) :
    ¬ Sigil.input.text.toList <+: tail := by
  rintro ⟨rest, rfl⟩
  cases h ':' rfl

/-- Input sigils without a gap are counted. -/
theorem inputRun_append (index count : Nat) {tail : List Char}
    (h : ¬ Sigil.input.text.toList <+: tail) :
    inputRun count ((List.replicate index Sigil.input.text.toList).flatten ++ tail) =
      count + index := by
  induction index generalizing count with
  | zero =>
    rw [List.replicate_zero, List.flatten_nil, List.nil_append, Nat.add_zero]
    unfold inputRun
    split
    · exact absurd ⟨_, rfl⟩ h
    · rfl
  | succ index ih =>
    rw [List.replicate_succ, List.flatten_cons, List.append_assoc]
    change inputRun (count + 1) ((List.replicate index Sigil.input.text.toList).flatten ++ tail) = _
    rw [ih]
    omega

/-- The sigils that are counted come next in the text, and no further one follows them. -/
theorem exists_inputRun (count : Nat) (rest : List Char) :
    ∃ index tail, inputRun count rest = count + index ∧
      rest = (List.replicate index Sigil.input.text.toList).flatten ++ tail ∧
      ¬ Sigil.input.text.toList <+: tail := by
  fun_induction inputRun count rest with
  | case1 count rest ih =>
    obtain ⟨index, tail, hindex, htail, hstop⟩ := ih
    refine ⟨index + 1, tail, by omega, ?_, hstop⟩
    rw [List.replicate_succ, List.flatten_cons, List.append_assoc, ← htail]
    rfl
  | case2 rest count hother =>
    refine ⟨0, rest, rfl, rfl, ?_⟩
    rintro ⟨tail, htail⟩
    exact hother tail htail.symm

/-- An input is read up to the end of its sigils. -/
theorem inputRef_input (index : Nat) (span : Span) {tail : List Char} (h : Apart tail)
    (pos : Position) (pending : Option Expr) (count : Nat) :
    ∃ pos', inputRef span ⟨⟨(List.replicate index Sigil.input.text.toList).flatten ++ tail, pos⟩,
        pending, count⟩ =
      .ok (.input index span, ⟨⟨tail, pos'⟩, pending, max count (index + 1)⟩) := by
  have hrun := inputRun_append index 0 h.not_input
  rw [Nat.zero_add] at hrun
  have hlength := (length_flatten_input index).symm
  refine ⟨pos.afterAll (List.replicate index Sigil.input.text.toList).flatten, ?_⟩
  generalize (List.replicate index Sigil.input.text.toList).flatten = sigils at hrun hlength
  change Except.ok (Expr.input (inputRun 0 (sigils ++ tail)) span, Reading.mk
    (skip (2 * inputRun 0 (sigils ++ tail)) ⟨sigils ++ tail, pos⟩) pending
    (max count (inputRun 0 (sigils ++ tail) + 1))) = _
  rw [hrun, hlength, skip_append]

end Expr.Parser

end Smil
