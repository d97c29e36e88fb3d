import Smil.Proofs.Relocation

/-!
# A generator that is used again

A generator keeps what it has appended when it fails, and gives it away when it succeeds. So after a
program that fails behind some of its code, the next program is generated behind that code. What a
failure leaves starts with what was there before it, and no name is left without code. Hence a
generator answers as a new one does exactly if nothing is left or the same error comes either way.
-/

namespace Smil.Codegen

open Bytecode Assembly

/-! ### Programs one after another -/

/-- What a generator that holds a chunk answers to a program. -/
def answer (p : Program) (c : Chunk) : Except Error Chunk :=
  match program p c with
  | .ok chunk _ => .ok chunk
  | .error e _ => .error e

/-- What a generator that holds a chunk holds after a program. -/
def after (p : Program) (c : Chunk) : Chunk :=
  match program p c with
  | .ok _ c' => c'
  | .error _ c' => c'

/-- What a new generator holds after programs in order. -/
def held (ps : List Program) : Chunk :=
  ps.foldl (fun c p => after p c) Chunk.empty

/-- One more program acts on what the generator holds. -/
theorem held_append_singleton (ps : List Program) (p : Program) :
    held (ps ++ [p]) = after p (held ps) := by
  rw [held, List.foldl_append]
  rfl

/-! ### What a failure leaves -/

/-- Every byte has a place, and there are no names without code. -/
structure Settled (c : Chunk) : Prop where
  spans : c.spans.size = c.size
  names : c.size = 0 → c.names.size = 0

/-- The empty chunk has neither code nor names. -/
theorem settled_empty : Settled Chunk.empty :=
  ⟨rfl, fun _ => rfl⟩

/-- Without code there is nothing at all. -/
theorem Settled.eq_empty {c : Chunk} (h : Settled c) (hsize : c.size = 0) : c = Chunk.empty := by
  obtain ⟨code, spans, names⟩ := c
  have hspans := h.spans.trans hsize
  have hnames := h.names hsize
  rw [Array.size_eq_zero_iff] at hspans hnames
  have hcode : code = #[] := Array.size_eq_zero_iff.mp hsize
  subst hcode hspans hnames
  rfl

/-- A chunk on the way from `old`: it starts with `old`, and no name is without code. -/
structure Grown (old c : Chunk) : Prop where
  startsWith : c.StartsWith old
  settled : Settled c

namespace Grown

variable {old c : Chunk}

/-- A chunk is on the way from itself. -/
theorem refl (h : Settled old) : Grown old old :=
  ⟨⟨List.prefix_rfl, List.prefix_rfl, List.prefix_rfl⟩, h⟩

/-- On the way no byte is lost. -/
theorem size_le (h : Grown old c) : old.size ≤ c.size := by
  simpa [Chunk.size] using h.startsWith.code.length_le

/-- A byte may be added, also behind names that have been added for it. -/
theorem writeByte_of_startsWith (h : c.StartsWith old) (hspans : c.spans.size = c.size) (b : UInt8)
    (span : Span) : Grown old (c.writeByte b span) where
  startsWith := by
    refine ⟨?_, ?_, h.names⟩
    · simpa [Chunk.writeByte] using h.code.trans (List.prefix_append _ [b])
    · simpa [Chunk.writeByte] using h.spans.trans (List.prefix_append _ [span])
  settled := by
    refine ⟨?_, fun hsize => ?_⟩
    · simpa [Chunk.writeByte, Chunk.size] using hspans
    · simp [Chunk.writeByte, Chunk.size] at hsize

/-- One more byte may be written behind the old code. -/
theorem writeByte (h : Grown old c) (b : UInt8) (span : Span) : Grown old (c.writeByte b span) :=
  writeByte_of_startsWith h.startsWith h.settled.spans b span

/-- Two more bytes may be written behind the old code. -/
theorem writeWord (h : Grown old c) (w : UInt16) (span : Span) : Grown old (c.writeWord w span) :=
  (h.writeByte _ span).writeByte _ span

/-- The distance of a jump may be filled in behind the old code. -/
theorem setWord (h : Grown old c) {hole : Nat} (hhole : old.size ≤ hole) (w : UInt16) :
    Grown old (c.setWord hole w) where
  startsWith := by
    refine ⟨?_, h.startsWith.spans, h.startsWith.names⟩
    obtain ⟨added, hcode⟩ := h.startsWith.code
    have hlength : old.code.toList.length ≤ hole := by simpa [Chunk.size] using hhole
    simp only [Chunk.setWord, Array.toList_setIfInBounds, ← hcode]
    rw [List.set_append_right _ _ hlength, List.set_append_right _ _ (by omega)]
    exact List.prefix_append _ _
  settled := by
    have hsize : (c.setWord hole w).size = c.size := by simp [Chunk.setWord, Chunk.size]
    refine ⟨h.settled.spans.trans hsize.symm, fun hzero => ?_⟩
    exact h.settled.names (hsize.symm.trans hzero)

end Grown

section Walk

variable {old : Chunk}

/-- Writing an opcode keeps the old code. -/
theorem grows_emit (op : Opcode) (span : Span) :
    Maintains (Grown old) (emit op span) fun _ => True :=
  Maintains.modify fun _ h => h.writeByte _ span

/-- Writing a byte keeps the old code. -/
theorem grows_emitByte (b : UInt8) (span : Span) :
    Maintains (Grown old) (emitByte b span) fun _ => True :=
  Maintains.modify fun _ h => h.writeByte b span

/-- Writing a word keeps the old code. -/
theorem grows_emitWord (w : UInt16) (span : Span) :
    Maintains (Grown old) (emitWord w span) fun _ => True :=
  Maintains.modify fun _ h => h.writeWord w span

/-- The offset at which code is written lies behind the old code. -/
theorem grows_offset : Maintains (Grown old) offset fun n => old.size ≤ n := by
  intro c hc
  refine ⟨?_, ?_⟩
  · intro n c' hn
    cases hn
    exact ⟨hc.size_le, hc⟩
  · intro e c' he
    cases he

/-- Finding the word of a number writes nothing. -/
theorem grows_word (n : Nat) (limit : String) (span : Span) :
    Maintains (Grown old) (word n limit span) fun _ => True := by
  unfold word
  split
  · exact Maintains.pure trivial
  · exact Maintains.throw _

/-- A name is added with the instruction that refers to it. Where the table is full it holds names
already, so there is code. -/
theorem grows_named (name : String) (op : Opcode) (span : Span) :
    Maintains (Grown old) (do
      let index ← nameIndex name span
      emit op span
      emitWord index span) fun _ => True := by
  intro c hc
  have hindex := nameIndex_eq name span c
  have hnames : old.names.toList <+: remember c.names.toList name :=
    hc.startsWith.names.trans (prefix_remember _ _)
  have hstarts : Chunk.StartsWith { c with names := (remember c.names.toList name).toArray } old :=
    ⟨hc.startsWith.code, hc.startsWith.spans, hnames⟩
  by_cases hlt : (remember c.names.toList name).idxOf name < 65536
  · rw [Chunk.word?, if_pos hlt] at hindex
    rw [bind_of_ok hindex]
    refine ⟨?_, ?_⟩
    · intro a c' hok
      cases hok
      exact ⟨trivial,
        (Grown.writeByte_of_startsWith hstarts hc.settled.spans _ span).writeWord _ span⟩
    · intro e c' herror
      cases herror
  · rw [Chunk.word?, if_neg hlt] at hindex
    rw [bind_of_error hindex]
    refine ⟨?_, ?_⟩
    · intro a c' hok
      cases hok
    · intro e c' herror
      cases herror
      refine ⟨hstarts, hc.settled.spans, fun hsize => absurd ?_ hlt⟩
      have hempty : c.names.toList = [] := by
        simpa using Array.size_eq_zero_iff.mp (hc.settled.names hsize)
      rw [hempty]
      simp [remember]

/-- A jump that is left open lies behind the old code. -/
theorem grows_openJump (span : Span) :
    Maintains (Grown old) (openJump span) fun hole => old.size ≤ hole := by
  apply (grows_emit _ span).bind
  intro _ _
  apply grows_offset.bind
  intro hole hhole
  apply (grows_emitWord _ span).bind
  intro _ _
  exact Maintains.pure hhole

/-- A jump that lies behind the old code is pointed without touching the old code. -/
theorem grows_closeJump {hole : Nat} (hhole : old.size ≤ hole) (span : Span) :
    Maintains (Grown old) (closeJump hole span) fun _ => True := by
  intro c hc
  rw [closeJump_eq, Chunk.patchJump]
  by_cases hfits : hole + 2 ≤ c.size ∧ c.size - hole - 2 < 65536
  · rw [if_pos hfits]
    refine ⟨?_, ?_⟩
    · intro a c' hok
      cases hok
      exact ⟨trivial, hc.setWord hhole _⟩
    · intro e c' herror
      cases herror
  · rw [if_neg hfits]
    refine ⟨?_, ?_⟩
    · intro a c' hok
      cases hok
    · intro e c' herror
      cases herror
      exact hc

/-- A jump backwards keeps the old code. -/
theorem grows_jumpBack (start : Nat) (span : Span) :
    Maintains (Grown old) (jumpBack start span) fun _ => True := by
  apply (grows_emit _ span).bind
  intro _ _
  apply grows_offset.bind
  intro n _
  apply (grows_word _ _ span).bind
  intro distance _
  exact grows_emitWord distance span

/-- The code of a value comes behind the old code. The induction is on the tree. -/
theorem grows_value (e : Expr) : Maintains (Grown old) (value e) fun _ => True := by
  fun_induction value e with
  | case1 index span => exact grows_named _ .load span
  | case2 name inverted span => exact grows_named name .load span
  | case3 name span ih => exact ih.bind fun _ _ => grows_emit _ span
  | case4 target source span ihSource ihTarget =>
    apply ihSource.bind
    intro _ _
    apply ihTarget.bind
    intro _ _
    exact (grows_emit _ span).bind fun _ _ => grows_emitByte _ span
  | case5 left op right span ihLeft ihRight =>
    apply ihLeft.bind
    intro _ _
    exact ihRight.bind fun _ _ => grows_emit _ span
  | case6 name inverted inner span => exact grows_named name .stackPop span
  | case7 name inner span ih => exact ih.bind fun _ _ => grows_emit _ span
  | case8 target span => exact Maintains.throw _
  | case9 operand span ih => exact ih.bind fun _ _ => grows_emit _ span
  | case10 => exact Maintains.throw _

/-- The code of several values comes behind the old code. -/
theorem grows_values (es : List Expr) : Maintains (Grown old) (values es) fun _ => True := by
  induction es with
  | nil => exact Maintains.pure trivial
  | cons e es ih => exact (grows_value e).bind fun _ _ => ih

/-- The code of a greeting comes behind the old code. -/
theorem grows_greeting (inputCount : Nat) (span : Span) :
    Maintains (Grown old) (greeting inputCount span) fun _ => True := by
  unfold greeting
  split
  · exact (grows_named _ .load span).bind fun _ _ => grows_emit _ span
  · exact grows_emit _ span

mutual

/-- The code of a statement comes behind the old code. The induction is on the tree, together with
that on the statements inside it. -/
theorem grows_statement (inputCount : Nat) (stmt : Expr) :
    Maintains (Grown old) (statement inputCount stmt) fun _ => True := by
  cases stmt with
  | assign target source span =>
    rw [statement]
    exact (grows_value _).bind fun _ _ => grows_emit _ span
  | pop target span =>
    rw [statement]
    exact (grows_value _).bind fun _ _ => grows_emit _ span
  | print args span =>
    rw [statement]
    apply (grows_values args).bind
    intro _ _
    apply (grows_word _ _ span).bind
    intro count _
    exact (grows_emit _ span).bind fun _ _ => grows_emitWord count span
  | hello span =>
    rw [statement]
    exact grows_greeting inputCount span
  | exit code span =>
    rw [statement]
    exact (grows_emit _ span).bind fun _ _ => grows_emitByte _ span
  | push e span =>
    rw [statement]
    exact (grows_value e).bind fun _ _ => grows_emit _ span
  | clear span =>
    rw [statement]
    exact grows_emit _ span
  | loop condition thenBody elseBody span =>
    have hthen := grows_statements inputCount thenBody
    have helse := grows_statements inputCount elseBody
    rw [statement]
    apply (grows_value condition).bind
    intro _ _
    apply (grows_openJump span).bind
    intro skipThen hskipThen
    apply grows_offset.bind
    intro start _
    apply hthen.bind
    intro _ _
    apply (grows_value condition).bind
    intro _ _
    apply (grows_openJump span).bind
    intro skipElse hskipElse
    apply (grows_jumpBack start span).bind
    intro _ _
    apply (grows_closeJump hskipThen span).bind
    intro _ _
    apply helse.bind
    intro _ _
    exact grows_closeJump hskipElse span
  | _ =>
    rw [statement]
    exact Maintains.pure trivial

/-- The code of several statements comes behind the old code. -/
theorem grows_statements (inputCount : Nat) (stmts : List Expr) :
    Maintains (Grown old) (statements inputCount stmts) fun _ => True := by
  cases stmts with
  | nil =>
    rw [statements]
    exact Maintains.pure trivial
  | cons stmt stmts =>
    have hrest := grows_statements inputCount stmts
    rw [statements]
    exact (grows_statement inputCount stmt).bind fun _ _ => hrest

end

end Walk

/-! ### When reuse makes no difference -/

/-- A program that fails leaves what was there with more behind it. -/
theorem grown_of_error {p : Program} {c c' : Chunk} {e : Error} (hc : Settled c)
    (h : program p c = .error e c') : Grown c c' := by
  unfold program at h
  cases hstatements : statements p.inputCount p.statements c with
  | ok a c₁ =>
    rw [bind_of_ok hstatements] at h
    cases h
  | error e' c₁ =>
    rw [bind_of_error hstatements] at h
    cases h
    exact (grows_statements _ _ c (Grown.refl hc)).2 e c' hstatements

/-- What a program comes to behind a chunk: all code is taken and none is left, or the program fails
and leaves what was there with more behind it. -/
theorem answer_cases (p : Program) {c : Chunk} (hc : Settled c) :
    (answer p c = .ok (append c (programCode p)) ∧ after p c = Chunk.empty) ∨
      ∃ e, answer p c = .error e ∧ Grown c (after p c) := by
  unfold answer after
  cases hprogram : program p c with
  | ok chunk c' =>
    obtain ⟨-, -, rfl, rfl⟩ := program_eq_ok hprogram
    exact Or.inl ⟨rfl, rfl⟩
  | error e c' => exact Or.inr ⟨e, rfl, grown_of_error hc hprogram⟩

/-- What programs leave behind has no names without code. -/
theorem settled_held (ps : List Program) : Settled (held ps) := by
  suffices hfrom : ∀ c, Settled c → Settled (ps.foldl (fun c p => after p c) c) from
    hfrom Chunk.empty settled_empty
  induction ps with
  | nil => exact fun c hc => hc
  | cons p ps ih =>
    intro c hc
    refine ih (after p c) ?_
    rcases answer_cases p hc with ⟨-, hafter⟩ | ⟨e, -, hgrown⟩
    · rw [hafter]
      exact settled_empty
    · exact hgrown.settled

/-- Code behind a chunk that is not empty is not the code alone. -/
theorem eq_empty_of_append_eq {c : Chunk} (hc : Settled c) {code : List Line}
    (h : append c code = append Chunk.empty code) : c = Chunk.empty := by
  have hsize := congrArg Chunk.size h
  rw [size_append_chunk, size_append_chunk] at hsize
  exact hc.eq_empty (Nat.add_right_cancel hsize)

/-- Only the empty chunk leads to the empty chunk. -/
theorem Grown.eq_empty {c : Chunk} (h : Grown c Chunk.empty) (hc : Settled c) :
    c = Chunk.empty :=
  hc.eq_empty (Nat.le_zero.mp h.size_le)

/-- When a generator that has been used answers to a program as a new one does: exactly if nothing
is left of the programs before, or the program fails with the same error either way. Nothing is left
after a program exactly if the program succeeds, or nothing was left before and it fails without
having appended anything. What is left stands in front of the next chunk, and of all that is left
after a further failure. -/
theorem answer_eq_compile_iff (ps : List Program) (p : Program) :
    (answer p (held ps) = compile p ↔
      held ps = Chunk.empty ∨
        ∃ e, compile p = .error e ∧ answer p (held ps) = .error e) ∧
    (held (ps ++ [p]) = Chunk.empty ↔
      (∃ chunk, answer p (held ps) = .ok chunk) ∨
        held ps = Chunk.empty ∧ after p Chunk.empty = Chunk.empty) ∧
    (∀ chunk, answer p (held ps) = .ok chunk → chunk.StartsWith (held ps)) ∧
    ∀ e, answer p (held ps) = .error e → (held (ps ++ [p])).StartsWith (held ps) := by
  have hsettled := settled_held ps
  have halone : compile p = answer p Chunk.empty := rfl
  rw [held_append_singleton]
  generalize held ps = c at *
  rcases answer_cases p hsettled with ⟨hanswer, hafter⟩ | ⟨e, hanswer, hgrown⟩
  · refine ⟨⟨fun h => Or.inl ?_, ?_⟩, ?_, ?_, ?_⟩
    · rw [hanswer] at h
      obtain ⟨-, -, hchunk⟩ := compile_eq_ok h.symm
      exact eq_empty_of_append_eq hsettled hchunk
    · rintro (rfl | ⟨e, -, herror⟩)
      · exact halone.symm
      · cases hanswer.symm.trans herror
    · exact ⟨fun _ => Or.inl ⟨_, hanswer⟩, fun _ => hafter⟩
    · intro chunk hok
      cases hanswer.symm.trans hok
      exact startsWith_append c _
    · intro e herror
      cases hanswer.symm.trans herror
  · refine ⟨⟨fun h => Or.inr ⟨e, h.symm.trans hanswer, hanswer⟩, ?_⟩,
      ⟨fun h => Or.inr ?_, ?_⟩, ?_, ?_⟩
    · rintro (rfl | ⟨e', hcompile, hanswer'⟩)
      · exact halone.symm
      · exact hanswer'.trans hcompile.symm
    · rw [h] at hgrown
      obtain rfl := hgrown.eq_empty hsettled
      exact ⟨rfl, h⟩
    · rintro (⟨chunk, hok⟩ | ⟨rfl, hempty⟩)
      · cases hanswer.symm.trans hok
      · exact hempty
    · intro chunk hok
      cases hanswer.symm.trans hok
    · intro e' _
      exact hgrown.startsWith

/-- A print of a variable and of something that yields no value. -/
def halfPrinted : Program :=
  ⟨[.print [.var "a" false .nowhere, .nop .nowhere] .nowhere], 0⟩

/-- A program that clears the stack. -/
def clearing : Program :=
  ⟨[.clear .nowhere], 0⟩

/-- The load of the variable that a failed print has left is put in front of the next program. -/
theorem answer_clearing_after_halfPrinted :
    compile halfPrinted = .error (.placed (.expectedValue "nop") .nowhere) ∧
      compile clearing = .ok ⟨#[17, 22], .replicate 2 .nowhere, #[]⟩ ∧
      answer clearing (held [halfPrinted]) =
        .ok ⟨#[0, 0, 0, 17, 22], .replicate 5 .nowhere, #["a"]⟩ ∧
      answer clearing (held [halfPrinted]) ≠ compile clearing := by
  decide +kernel

end Smil.Codegen
