import Smil.Codegen
import Smil.Proofs.Assembly
import Smil.Proofs.Sequencing

/-!
# What code generation appends

The code of a tree as a list of instructions, written as a function of the tree alone: jumps have
their final distances, which are sums of sizes. The generator, which appends bytes and fills in
the distances of jumps later, yields exactly this list whenever the list fits; otherwise it fails
because the program is too large. A tree with a node that the generator refuses has no code.
-/

namespace Smil.Codegen

open Bytecode Assembly

/-! ### The code of a tree -/

/-- The code of a value. -/
def valueCode : Expr → List Line
  | .input index span => [⟨.load (inputName index), span⟩]
  | .var name _ span => [⟨.load name, span⟩]
  | .namedVar name span => valueCode name ++ [⟨.loadNamed, span⟩]
  | .assign target source span =>
    valueCode source ++ (valueCode target ++ [⟨.assign (assignMode target source), span⟩])
  | .binary left op right span => valueCode left ++ (valueCode right ++ [⟨.binary op, span⟩])
  | .pop (.var name _ _) span => [⟨.stackPop name, span⟩]
  | .pop (.namedVar name _) span => valueCode name ++ [⟨.stackPopNamed, span⟩]
  | .lengthOf operand span => valueCode operand ++ [⟨.length, span⟩]
  | _ => []

/-- The code of several values in order. -/
def valuesCode : List Expr → List Line
  | [] => []
  | e :: es => valueCode e ++ valuesCode es

/-- The code of a loop from the code of its parts. The two jumps over the repeated part span the
same bytes: the body, the second condition, the jump behind it and the jump back. -/
def loopCode (condition thenBody elseBody : List Line) (span : Span) : List Line :=
  condition ++ (⟨.jumpIfNotPositive (size thenBody + size condition + 6), span⟩ ::
    (thenBody ++ (condition ++ (⟨.jumpIfNotPositive (size elseBody + 3), span⟩ ::
      ⟨.loop (size thenBody + size condition + 6), span⟩ :: elseBody))))

/-- The code of a greeting. -/
def greetingCode (inputCount : Nat) (span : Span) : List Line :=
  if inputCount > 0 then [⟨.load (inputName 0), span⟩, ⟨.hello, span⟩] else [⟨.helloWorld, span⟩]

mutual

/-- The code of a statement. -/
def statementCode (inputCount : Nat) : Expr → List Line
  | .assign target source span => valueCode (.assign target source span) ++ [⟨.pop, span⟩]
  | .pop target span => valueCode (.pop target span) ++ [⟨.pop, span⟩]
  | .print args span => valuesCode args ++ [⟨.print args.length, span⟩]
  | .hello span => greetingCode inputCount span
  | .exit code span => [⟨.exit code.toUInt32.toUInt8, span⟩]
  | .push e span => valueCode e ++ [⟨.stackPush, span⟩]
  | .clear span => [⟨.stackClear, span⟩]
  | .loop condition thenBody elseBody span =>
    loopCode (valueCode condition) (statementsCode inputCount thenBody)
      (statementsCode inputCount elseBody) span
  | .comment .. | .nop _ | .unknown _ | .input .. | .var .. | .namedVar .. | .binary ..
  | .lengthOf .. => []

/-- The code of statements in order. -/
def statementsCode (inputCount : Nat) : List Expr → List Line
  | [] => []
  | stmt :: stmts => statementCode inputCount stmt ++ statementsCode inputCount stmts

end

/-- The code of a program. -/
def programCode (p : Program) : List Line :=
  statementsCode p.inputCount p.statements ++ [⟨.finish, lastSpan p.statements⟩]

/-! ### Trees that have code -/

/-- The trees that have code as a value. -/
inductive Evaluable : Expr → Prop
  | input (index : Nat) (span : Span) : Evaluable (.input index span)
  | var (name : String) (inverted : Bool) (span : Span) : Evaluable (.var name inverted span)
  | namedVar {name : Expr} (span : Span) (hname : Evaluable name) : Evaluable (.namedVar name span)
  | assign {target source : Expr} (span : Span) (hsource : Evaluable source)
      (htarget : Evaluable target) : Evaluable (.assign target source span)
  | binary {left right : Expr} (op : Operator) (span : Span) (hleft : Evaluable left)
      (hright : Evaluable right) : Evaluable (.binary left op right span)
  | popVar (name : String) (inverted : Bool) (inner span : Span) :
      Evaluable (.pop (.var name inverted inner) span)
  | popNamed {name : Expr} (inner span : Span) (hname : Evaluable name) :
      Evaluable (.pop (.namedVar name inner) span)
  | lengthOf {operand : Expr} (span : Span) (hoperand : Evaluable operand) :
      Evaluable (.lengthOf operand span)

/-- The trees that have code as a statement; what is no statement has none, and that is allowed. -/
inductive Executable : Expr → Prop
  | assign {target source : Expr} (span : Span) (h : Evaluable (.assign target source span)) :
      Executable (.assign target source span)
  | pop {target : Expr} (span : Span) (h : Evaluable (.pop target span)) :
      Executable (.pop target span)
  | print {args : List Expr} (span : Span) (h : ∀ arg ∈ args, Evaluable arg) :
      Executable (.print args span)
  | hello (span : Span) : Executable (.hello span)
  | exit (code : Int32) (span : Span) : Executable (.exit code span)
  | push {e : Expr} (span : Span) (h : Evaluable e) : Executable (.push e span)
  | clear (span : Span) : Executable (.clear span)
  | loop {condition : Expr} {thenBody elseBody : List Expr} (span : Span)
      (hcondition : Evaluable condition) (hthen : ∀ stmt ∈ thenBody, Executable stmt)
      (helse : ∀ stmt ∈ elseBody, Executable stmt) :
      Executable (.loop condition thenBody elseBody span)
  | silent {e : Expr} (h : e.isStatement = false) : Executable e

/-! ### Single instructions -/

/-- The halves of a number in two bytes are its encoding. -/
theorem word_bytes (n : Nat) : (UInt16.ofNat n >>> 8).toUInt8 = UInt8.ofNat (n / 256) ∧
    (UInt16.ofNat n).toUInt8 = UInt8.ofNat n := by
  constructor <;> apply UInt8.toNat_inj.mp
  · simp [Nat.shiftRight_eq_div_pow]
    omega
  · simp

/-- Two bytes written for a number are its encoding. -/
theorem writeWord_ofNat (c : Chunk) (n : Nat) (span : Span) :
    c.writeWord (UInt16.ofNat n) span =
      { c with
        code := c.code ++ (Instruction.wordBytes n).toArray
        spans := c.spans ++ #[span, span] } := by
  obtain ⟨hhigh, hlow⟩ := word_bytes n
  simp only [Chunk.writeWord, Chunk.writeByte, Instruction.wordBytes, hhigh, hlow]
  rfl

/-- An appended line without a name leaves the table of names as it is. -/
theorem append_line (c : Chunk) {i : Instruction} (hname : i.name? = none) (index : String → Nat)
    (span : Span) :
    append c [⟨i, span⟩] =
      { c with
        code := c.code ++ (i.bytes index).toArray
        spans := c.spans ++ (List.replicate i.size span).toArray } := by
  have hbytes : ∀ index', i.bytes index' = i.bytes index := fun index' =>
    Instruction.bytes_congr (by simp [hname])
  simp [append, namesAfter, references, bytes, spans, hname, hbytes]

/-- Looking up a name yields its place in the table, or the place at which it would be added. -/
theorem addName_eq (c : Chunk) (name : String) :
    c.addName name = (Chunk.word? ((remember c.names.toList name).idxOf name),
      { c with names := (remember c.names.toList name).toArray }) := by
  unfold Chunk.addName remember
  by_cases h : name ∈ c.names.toList
  · have hidx : c.names.idxOf? name = some (c.names.toList.idxOf name) := by
      rw [← c.names.toArray_toList, List.idxOf?_toArray, List.idxOf?_eq_some_iff]
      have hlt := List.idxOf_lt_length_of_mem h
      refine ⟨hlt, ?_, fun j hj => ?_⟩
      · simp
      · simpa using List.not_of_lt_findIdx hj
    simp [hidx, h]
  · have hidx : c.names.idxOf? name = none := by simpa using h
    simp only [hidx, h, if_false, List.idxOf_append, List.idxOf_cons_self, Nat.zero_add]
    congr 2
    exact Array.toList_inj.mp (by simp)

/-- The index of a name fails if it does not fit; the table has grown either way. -/
theorem nameIndex_eq (name : String) (span : Span) (c : Chunk) :
    nameIndex name span c =
      match Chunk.word? ((remember c.names.toList name).idxOf name) with
      | some w => .ok w { c with names := (remember c.names.toList name).toArray }
      | none => .error (.placed (.programTooLarge "too many variables") span)
          { c with names := (remember c.names.toList name).toArray } := by
  have hadd : (modifyGet fun c => c.addName name : Gen (Option UInt16)) c =
    .ok (c.addName name).1 (c.addName name).2 := rfl
  unfold nameIndex
  rw [bind_of_ok hadd, addName_eq]
  cases Chunk.word? ((remember c.names.toList name).idxOf name) <;> rfl

/-- A generator appends the code if it fits, and otherwise fails at the place of one of its lines
because the program is too large. -/
def Generates (g : Gen Unit) (code : List Line) : Prop :=
  ∀ c, (Fits c.names.toList code ∧ g c = .ok () (append c code)) ∨
    (¬ Fits c.names.toList code ∧ ∃ l ∈ code, ∃ limit c',
      g c = .error (.placed (.programTooLarge limit) l.span) c')

/-- Generators in sequence append their code in sequence. -/
theorem Generates.bind {g g' : Gen Unit} {a b : List Line} (hg : Generates g a)
    (hg' : Generates g' b) : Generates (g >>= fun _ => g') (a ++ b) := by
  intro c
  rw [fits_append, ← append_append]
  rcases hg c with ⟨ha, hok⟩ | ⟨ha, l, hl, limit, c', herror⟩
  · rw [bind_of_ok hok]
    rcases hg' (append c a) with ⟨hb, hok'⟩ | ⟨hb, l, hl, herror'⟩
    · exact Or.inl ⟨⟨ha, hb⟩, hok'⟩
    · exact Or.inr ⟨fun h => hb h.2, l, List.mem_append_right a hl, herror'⟩
  · exact Or.inr ⟨fun h => ha h.1, l, List.mem_append_left b hl, limit, c', bind_of_error herror⟩

/-- A generator that does nothing appends nothing. -/
theorem Generates.nothing : Generates (pure ()) [] := by
  intro c
  refine Or.inl ⟨by simp [Fits], ?_⟩
  rw [append_nil]
  rfl

/-- A generator that always succeeds appends a line that always fits. -/
theorem Generates.line {g : Gen Unit} {l : Line} (hname : l.instruction.name? = none)
    (hnumber : l.instruction.number? = none) (h : ∀ c, g c = .ok () (append c [l])) :
    Generates g [l] := by
  intro c
  refine Or.inl ⟨?_, h c⟩
  intro l' hl'
  obtain rfl := List.mem_singleton.mp hl'
  simp [Line.Fits, hname, hnumber]

/-- An opcode and the index of a name are the line of an instruction that refers to it. -/
theorem Generates.named {i : Instruction} {name : String} (hname : i.name? = some name)
    (hnumber : i.number? = none) (hsize : i.size = 3)
    (hbytes : ∀ index, i.bytes index = i.opcode.toByte :: Instruction.wordBytes (index name))
    (span : Span) :
    Generates (do
      let index ← nameIndex name span
      emit i.opcode span
      emitWord index span) [⟨i, span⟩] := by
  intro c
  have hafter : namesAfter c.names.toList [⟨i, span⟩] = remember c.names.toList name := by
    simp [namesAfter, references, hname]
  have hfits : Fits c.names.toList [⟨i, span⟩] ↔
      (remember c.names.toList name).idxOf name < 65536 := by
    simp [Fits, Line.Fits, hafter, hname, hnumber]
  have hindex := nameIndex_eq name span c
  rw [hfits]
  by_cases hlt : (remember c.names.toList name).idxOf name < 65536
  · rw [Chunk.word?, if_pos hlt] at hindex
    refine Or.inl ⟨hlt, ?_⟩
    rw [bind_of_ok hindex]
    change EStateM.Result.ok () (Chunk.writeWord _ (UInt16.ofNat _) span) = _
    rw [writeWord_ofNat]
    simp only [append, hafter, bytes, spans, List.flatMap_singleton, hbytes, hsize]
    congr 2
  · rw [Chunk.word?, if_neg hlt] at hindex
    exact Or.inr ⟨hlt, _, List.mem_cons_self, _, _, bind_of_error hindex⟩

/-- An opcode alone is the line of an instruction without operands. -/
theorem Generates.plain {i : Instruction} (hname : i.name? = none) (hnumber : i.number? = none)
    (hbytes : i.bytes (fun _ => 0) = [i.opcode.toByte]) (hsize : i.size = 1) (span : Span) :
    Generates (emit i.opcode span) [⟨i, span⟩] := by
  refine Generates.line hname hnumber fun c => ?_
  rw [append_line c hname (fun _ => 0), hbytes, hsize]
  rfl

/-- An opcode and a byte are the line of an instruction with one byte as its operand. -/
theorem Generates.withByte {i : Instruction} {b : UInt8} (hname : i.name? = none)
    (hnumber : i.number? = none) (hbytes : i.bytes (fun _ => 0) = [i.opcode.toByte, b])
    (hsize : i.size = 2) (span : Span) :
    Generates (do
      emit i.opcode span
      emitByte b span) [⟨i, span⟩] := by
  refine Generates.line hname hnumber fun c => ?_
  rw [append_line c hname (fun _ => 0), hbytes, hsize]
  rfl

/-- An opcode and two bytes are the line of an instruction with a number. -/
theorem append_numbered (c : Chunk) {i : Instruction} {n : Nat} (hname : i.name? = none)
    (hbytes : i.bytes (fun _ => 0) = i.opcode.toByte :: Instruction.wordBytes n)
    (hsize : i.size = 3) (span : Span) :
    append c [⟨i, span⟩] = (c.write i.opcode span).writeWord (UInt16.ofNat n) span := by
  rw [append_line c hname (fun _ => 0), hbytes, hsize, writeWord_ofNat]
  congr 1

/-- A line with a number fits if its number does. -/
theorem fits_numbered {i : Instruction} {n : Nat} (hname : i.name? = none)
    (hnumber : i.number? = some n) (names : List String) (span : Span) :
    Fits names [⟨i, span⟩] ↔ n < 65536 := by
  simp [Fits, Line.Fits, hname, hnumber]

/-- Loading a variable appends one instruction. -/
theorem load_generates (name : String) (span : Span) :
    Generates (load name span) [⟨.load name, span⟩] :=
  Generates.named (i := .load name) rfl rfl rfl (fun _ => rfl) span

/-- A number that fits is kept as it is, and another fails. -/
theorem word_eq (n : Nat) (limit : String) (span : Span) (c : Chunk) :
    word n limit span c =
      if n < 65536 then .ok (UInt16.ofNat n) c
      else .error (.placed (.programTooLarge limit) span) c := by
  unfold word Chunk.word?
  by_cases h : n < 65536
  · simp only [h, if_true]
    rfl
  · simp only [h, if_false]
    rfl

/-- The line behind the arguments of a print fails if there are too many of them. -/
theorem count_generates (count : Nat) (span : Span) :
    Generates (do
      let n ← word count "too many print arguments" span
      emit .print span
      emitWord n span) [⟨.print count, span⟩] := by
  intro c
  have hword := word_eq count "too many print arguments" span c
  rw [fits_numbered (n := count) rfl rfl, append_numbered c (n := count) rfl rfl rfl]
  by_cases h : count < 65536
  · rw [if_pos h] at hword
    refine Or.inl ⟨h, ?_⟩
    rw [bind_of_ok hword]
    rfl
  · rw [if_neg h] at hword
    exact Or.inr ⟨h, _, List.mem_cons_self, _, _, bind_of_error hword⟩

/-! ### Values -/

/-- The generator of a value appends the value's code. -/
theorem value_generates {e : Expr} (h : Evaluable e) : Generates (value e) (valueCode e) := by
  induction h with
  | input index span => exact load_generates (inputName index) span
  | var name inverted span => exact load_generates name span
  | namedVar span _ ih =>
    exact ih.bind (Generates.plain (i := .loadNamed) rfl rfl rfl rfl span)
  | assign span _ _ ihSource ihTarget =>
    exact ihSource.bind (ihTarget.bind (Generates.withByte (i := .assign _) rfl rfl rfl rfl span))
  | binary op span _ _ ihLeft ihRight =>
    exact ihLeft.bind (ihRight.bind (Generates.plain (i := .binary op) rfl rfl rfl rfl span))
  | popVar name inverted inner span =>
    exact Generates.named (i := .stackPop name) rfl rfl rfl (fun _ => rfl) span
  | popNamed inner span _ ih =>
    exact ih.bind (Generates.plain (i := .stackPopNamed) rfl rfl rfl rfl span)
  | lengthOf span _ ih =>
    exact ih.bind (Generates.plain (i := .length) rfl rfl rfl rfl span)

/-- The generators of several values append their code in order. -/
theorem values_generates {es : List Expr} (h : ∀ e ∈ es, Evaluable e) :
    Generates (values es) (valuesCode es) := by
  induction es with
  | nil => exact Generates.nothing
  | cons e es ih =>
    have hrest := ih fun e he => h e (List.mem_cons_of_mem _ he)
    exact (value_generates (h e List.mem_cons_self)).bind hrest

/-- A value for which code is generated has code. -/
theorem evaluable_of_value {e : Expr} {c c' : Chunk} (h : value e c = .ok () c') :
    Evaluable e := by
  fun_induction value e generalizing c c' with
  | case1 index span => exact .input index span
  | case2 name inverted span => exact .var name inverted span
  | case3 name span ih =>
    obtain ⟨_, _, hname, _⟩ := ok_of_bind h
    exact .namedVar span (ih hname)
  | case4 target source span ihSource ihTarget =>
    obtain ⟨_, _, hsource, hrest⟩ := ok_of_bind h
    obtain ⟨_, _, htarget, _⟩ := ok_of_bind hrest
    exact .assign span (ihSource hsource) (ihTarget htarget)
  | case5 left op right span ihLeft ihRight =>
    obtain ⟨_, _, hleft, hrest⟩ := ok_of_bind h
    obtain ⟨_, _, hright, _⟩ := ok_of_bind hrest
    exact .binary op span (ihLeft hleft) (ihRight hright)
  | case6 name inverted inner span => exact .popVar name inverted inner span
  | case7 name inner span ih =>
    obtain ⟨_, _, hname, _⟩ := ok_of_bind h
    exact .popNamed inner span (ih hname)
  | case8 target span => cases h
  | case9 operand span ih =>
    obtain ⟨_, _, hoperand, _⟩ := ok_of_bind h
    exact .lengthOf span (ih hoperand)
  | case10 => cases h

/-- Values for which code is generated have code. -/
theorem evaluable_of_values {es : List Expr} {c c' : Chunk} (h : values es c = .ok () c') :
    ∀ e ∈ es, Evaluable e := by
  induction es generalizing c with
  | nil => simp
  | cons e es ih =>
    obtain ⟨_, _, hfirst, hrest⟩ := ok_of_bind h
    intro e' he'
    rcases List.mem_cons.mp he' with rfl | hmem
    · exact evaluable_of_value hfirst
    · exact ih hrest e' hmem

/-! ### Loops -/

/-- The distance of a jump has no influence on the names. -/
theorem namesAfter_jump (names : List String) (a b : List Line) (d d' : Nat) (span : Span) :
    namesAfter names (a ++ ⟨.jumpIfNotPositive d, span⟩ :: b) =
      namesAfter names (a ++ ⟨.jumpIfNotPositive d', span⟩ :: b) := by
  simp [namesAfter, references, Instruction.name?]

/-- The distance of a jump is two bytes of the chunk; nothing else depends on it. -/
theorem append_jump (c : Chunk) (a b : List Line) (span : Span) :
    ∃ before after spans names, before.length = c.size + size a + 1 ∧
      ∀ d, append c (a ++ ⟨.jumpIfNotPositive d, span⟩ :: b) =
        ⟨(before ++ (Instruction.wordBytes d ++ after)).toArray, spans, names⟩ := by
  have hnames := fun d => namesAfter_jump c.names.toList a b d 0 span
  refine ⟨c.code.toList ++ (bytes (namesAfter c.names.toList
      (a ++ ⟨.jumpIfNotPositive 0, span⟩ :: b)) a ++ [Opcode.jumpIfNotPositive.toByte]),
    bytes (namesAfter c.names.toList (a ++ ⟨.jumpIfNotPositive 0, span⟩ :: b)) b,
    c.spans ++ (spans (a ++ ⟨.jumpIfNotPositive 0, span⟩ :: b)).toArray,
    (namesAfter c.names.toList (a ++ ⟨.jumpIfNotPositive 0, span⟩ :: b)).toArray, ?_, fun d => ?_⟩
  · simp [Chunk.size, Nat.add_assoc]
  · unfold append
    rw [hnames d]
    congr 1
    · apply Array.toList_inj.mp
      simp [bytes, Instruction.bytes, Instruction.operandBytes, Instruction.opcode]
    · simp [spans, Instruction.size]

/-- Overwriting two bytes of the code. -/
theorem setWord_ofNat (before after : List UInt8) (d n : Nat) (spans : Array Span)
    (names : Array String) :
    Chunk.setWord ⟨(before ++ (Instruction.wordBytes d ++ after)).toArray, spans, names⟩
      before.length (UInt16.ofNat n) =
        ⟨(before ++ (Instruction.wordBytes n ++ after)).toArray, spans, names⟩ := by
  obtain ⟨hhigh, hlow⟩ := word_bytes n
  simp [Chunk.setWord, hhigh, hlow, Instruction.wordBytes]

/-- Closing a jump fails if the chunk refuses the distance. -/
theorem closeJump_eq (hole : Nat) (span : Span) (c : Chunk) :
    closeJump hole span c =
      match c.patchJump hole with
      | (true, c') => .ok () c'
      | (false, c') => .error (.placed (.programTooLarge "jump too long") span) c' := by
  have hif : closeJump hole span c =
      (if (c.patchJump hole).1 then pure ()
        else throw (.placed (.programTooLarge "jump too long") span) : Gen Unit)
      (c.patchJump hole).2 := rfl
  rw [hif]
  rcases c.patchJump hole with ⟨_ | _, c'⟩ <;> rfl

/-- Closing an open jump gives it the distance to the end of the code, if that fits. -/
theorem closeJump_append (c : Chunk) (a b : List Line) (d : Nat) (span span' : Span) :
    closeJump (c.size + size a + 1) span' (append c (a ++ ⟨.jumpIfNotPositive d, span⟩ :: b)) =
      if size b < 65536 then
        .ok () (append c (a ++ ⟨.jumpIfNotPositive (size b), span⟩ :: b))
      else
        .error (.placed (.programTooLarge "jump too long") span')
          (append c (a ++ ⟨.jumpIfNotPositive d, span⟩ :: b)) := by
  have hsize : (append c (a ++ ⟨.jumpIfNotPositive d, span⟩ :: b)).size =
      c.size + size a + 1 + 2 + size b := by
    rw [size_append_chunk, size_append, size, Instruction.size]
    omega
  have hrest : c.size + size a + 1 + 2 + size b - (c.size + size a + 1) - 2 = size b := by omega
  have hpatch : (append c (a ++ ⟨.jumpIfNotPositive d, span⟩ :: b)).patchJump
      (c.size + size a + 1) =
        if size b < 65536 then
          (true, append c (a ++ ⟨.jumpIfNotPositive (size b), span⟩ :: b))
        else
          (false, append c (a ++ ⟨.jumpIfNotPositive d, span⟩ :: b)) := by
    unfold Chunk.patchJump
    rw [hsize, hrest]
    by_cases hb : size b < 65536
    · obtain ⟨before, after, spans, names, hlength, hjump⟩ := append_jump c a b span
      rw [if_pos ⟨by omega, hb⟩, if_pos hb, hjump, hjump, ← hlength, setWord_ofNat]
    · rw [if_neg (fun h => hb h.2), if_neg hb]
  rw [closeJump_eq, hpatch]
  by_cases hb : size b < 65536 <;> simp only [hb, if_true, if_false]

/-- An open jump is a jump with the largest distance. -/
theorem openJump_append (c : Chunk) (span : Span) :
    openJump span c = .ok (c.size + 1) (append c [⟨.jumpIfNotPositive 0xFFFF, span⟩]) := by
  rw [append_numbered c (n := 0xFFFF) rfl rfl rfl]
  change EStateM.Result.ok (c.code.push _).size _ = _
  rw [Array.size_push]
  rfl

/-- A jump back appends one instruction if its distance fits. -/
theorem jumpBack_append (c : Chunk) (start : Nat) (span : Span) :
    (c.size + 1 - start + 2 < 65536 ∧
      jumpBack start span c = .ok () (append c [⟨.loop (c.size + 1 - start + 2), span⟩])) ∨
    (¬ c.size + 1 - start + 2 < 65536 ∧
      ∃ limit c', jumpBack start span c = .error (.placed (.programTooLarge limit) span) c') := by
  have hsize : (c.write .loop span).size = c.size + 1 := by
    simp [Chunk.size, Chunk.write, Chunk.writeByte]
  have hback : jumpBack start span c = (word (c.size + 1 - start + 2) "loop body too long" span >>=
      fun distance => emitWord distance span) (c.write .loop span) := by
    rw [← hsize]
    rfl
  have hword := word_eq (c.size + 1 - start + 2) "loop body too long" span (c.write .loop span)
  rw [hback]
  by_cases h : c.size + 1 - start + 2 < 65536
  · rw [if_pos h] at hword
    rw [bind_of_ok hword, append_numbered c (n := c.size + 1 - start + 2) rfl rfl rfl]
    exact Or.inl ⟨h, rfl⟩
  · rw [if_neg h] at hword
    exact Or.inr ⟨h, _, _, bind_of_error hword⟩

/-- Without code there are no more names. -/
theorem namesAfter_nil (names : List String) : namesAfter names [] = names := rfl

/-- A line with a number adds nothing to the table and fits if its number does. -/
theorem numbered_cons {i : Instruction} {n : Nat} (hname : i.name? = none)
    (hnumber : i.number? = some n) (names : List String) (span : Span) (code : List Line) :
    namesAfter names (⟨i, span⟩ :: code) = namesAfter names code ∧
      (Fits names (⟨i, span⟩ :: code) ↔ n < 65536 ∧ Fits names code) := by
  have hnames : namesAfter names [⟨i, span⟩] = names := by
    simp [namesAfter, references, hname]
  rw [← List.singleton_append, namesAfter_append, fits_append, hnames,
    fits_numbered hname hnumber]
  exact ⟨rfl, Iff.rfl⟩

/-- A jump adds no name, and its distance has to fit. -/
theorem jump_cons (names : List String) (d : Nat) (span : Span) (code : List Line) :
    namesAfter names (⟨.jumpIfNotPositive d, span⟩ :: code) = namesAfter names code ∧
      (Fits names (⟨.jumpIfNotPositive d, span⟩ :: code) ↔ d < 65536 ∧ Fits names code) :=
  numbered_cons rfl rfl names span code

/-- A jump backwards adds no name, and its distance has to fit. -/
theorem loop_cons (names : List String) (d : Nat) (span : Span) (code : List Line) :
    namesAfter names (⟨.loop d, span⟩ :: code) = namesAfter names code ∧
      (Fits names (⟨.loop d, span⟩ :: code) ↔ d < 65536 ∧ Fits names code) :=
  numbered_cons rfl rfl names span code

/-- A loop fits if its parts fit where they stand and its two distances do. -/
theorem fits_loopCode (names : List String) (condition thenBody elseBody : List Line)
    (span : Span) :
    Fits names (loopCode condition thenBody elseBody span) ↔
      Fits names condition ∧
      Fits (namesAfter names condition) thenBody ∧
      Fits (namesAfter names (condition ++ thenBody)) condition ∧
      size thenBody + size condition + 6 < 65536 ∧
      Fits (namesAfter names (condition ++ (thenBody ++ condition))) elseBody ∧
      size elseBody + 3 < 65536 := by
  unfold loopCode
  simp only [fits_append, jump_cons, loop_cons, namesAfter_append]
  tauto

/-- The lines of a loop: those of its parts and its jump back, among others. -/
theorem mem_loopCode (condition thenBody elseBody : List Line) (span : Span) :
    (∀ l ∈ condition, l ∈ loopCode condition thenBody elseBody span) ∧
      (∀ l ∈ thenBody, l ∈ loopCode condition thenBody elseBody span) ∧
      (∀ l ∈ elseBody, l ∈ loopCode condition thenBody elseBody span) ∧
      ⟨.loop (size thenBody + size condition + 6), span⟩ ∈
        loopCode condition thenBody elseBody span := by
  unfold loopCode
  refine ⟨?_, ?_, ?_, ?_⟩
  · intro l hl
    simp [hl]
  · intro l hl
    simp [hl]
  · intro l hl
    simp [hl]
  · simp

/-- What a generator does behind code that has been appended. -/
theorem Generates.after {g : Gen Unit} {code : List Line} (h : Generates g code) (c : Chunk)
    (before : List Line) :
    (Fits (namesAfter c.names.toList before) code ∧
      g (append c before) = .ok () (append c (before ++ code))) ∨
    (¬ Fits (namesAfter c.names.toList before) code ∧ ∃ l ∈ code, ∃ limit c',
      g (append c before) = .error (.placed (.programTooLarge limit) l.span) c') := by
  rw [← append_append]
  exact h (append c before)

/-- Condition, body and condition again, with the jumps between and behind them. -/
theorem loop_generates {g gThen gElse : Gen Unit} {condition thenBody elseBody : List Line}
    (hg : Generates g condition) (hThen : Generates gThen thenBody)
    (hElse : Generates gElse elseBody) (span : Span) :
    Generates (do
      g
      let skipThen ← openJump span
      let start ← offset
      gThen
      g
      let skipElse ← openJump span
      jumpBack start span
      closeJump skipThen span
      gElse
      closeJump skipElse span) (loopCode condition thenBody elseBody span) := by
  intro c
  have hfits := fits_loopCode c.names.toList condition thenBody elseBody span
  obtain ⟨hcondition, hthen, helse, hjump⟩ := mem_loopCode condition thenBody elseBody span
  -- Until the jumps are closed, they stand in the code with the largest distance.
  let jump : Line := ⟨.jumpIfNotPositive 0xFFFF, span⟩
  let skip : Line := ⟨.jumpIfNotPositive (size thenBody + size condition + 6), span⟩
  let back : Line := ⟨.loop (size thenBody + size condition + 6), span⟩
  rcases hg c with ⟨h₁, e₁⟩ | ⟨h₁, l, hl, limit, c', e₁⟩
  swap
  · exact Or.inr ⟨fun h => h₁ (hfits.mp h).1, l, hcondition l hl, _, _, bind_of_error e₁⟩
  rw [bind_of_ok e₁, bind_of_ok (openJump_append _ span), append_append,
    bind_of_ok (x := offset) rfl]
  rcases hThen.after c (condition ++ [jump]) with ⟨h₂, e₂⟩ | ⟨h₂, l, hl, limit, c', e₂⟩
  swap
  · refine Or.inr ⟨fun h => h₂ ?_, l, hthen l hl, _, _, bind_of_error e₂⟩
    simpa only [jump, namesAfter_append, jump_cons, namesAfter_nil] using
      (hfits.mp h).2.1
  rw [bind_of_ok e₂]
  rcases hg.after c (condition ++ [jump] ++ thenBody) with ⟨h₃, e₃⟩ | ⟨h₃, l, hl, limit, c', e₃⟩
  swap
  · refine Or.inr ⟨fun h => h₃ ?_, l, hcondition l hl, _, _, bind_of_error e₃⟩
    simpa only [jump, namesAfter_append, jump_cons, namesAfter_nil] using
      (hfits.mp h).2.2.1
  rw [bind_of_ok e₃, bind_of_ok (openJump_append _ span), append_append]
  have hdistance : (append c (condition ++ [jump] ++ thenBody ++ condition ++ [jump])).size + 1 -
      (append c (condition ++ [jump])).size + 2 = size thenBody + size condition + 6 := by
    simp [jump, size, Instruction.size]
    omega
  rcases jumpBack_append (append c (condition ++ [jump] ++ thenBody ++ condition ++ [jump]))
    (append c (condition ++ [jump])).size span with ⟨h₄, e₄⟩ | ⟨h₄, limit, c', e₄⟩
  swap
  · rw [hdistance] at h₄
    exact Or.inr ⟨fun h => h₄ (hfits.mp h).2.2.2.1, back, hjump, _, _, bind_of_error e₄⟩
  rw [hdistance] at h₄
  rw [bind_of_ok e₄, append_append, hdistance]
  have hstate : condition ++ [jump] ++ thenBody ++ condition ++ [jump] ++ [back] =
      condition ++ jump :: (thenBody ++ (condition ++ [jump, back])) := by simp
  have hrepeated : size (thenBody ++ (condition ++ [jump, back])) =
      size thenBody + size condition + 6 := by
    simp [jump, back, size, Instruction.size]
    omega
  have hclose₁ := closeJump_append c condition (thenBody ++ (condition ++ [jump, back])) 0xFFFF span
    span
  rw [hrepeated, if_pos h₄, ← size_append_chunk] at hclose₁
  rw [hstate, bind_of_ok hclose₁]
  rcases hElse.after c (condition ++ skip :: (thenBody ++ (condition ++ [jump, back]))) with
    ⟨h₅, e₅⟩ | ⟨h₅, l, hl, limit, c', e₅⟩
  swap
  · refine Or.inr ⟨fun h => h₅ ?_, l, helse l hl, _, _, bind_of_error e₅⟩
    simpa only [jump, skip, back, namesAfter_append, jump_cons, loop_cons, namesAfter_nil] using
      (hfits.mp h).2.2.2.2.1
  have hstate' : condition ++ skip :: (thenBody ++ (condition ++ [jump, back])) ++ elseBody =
      condition ++ skip :: (thenBody ++ condition) ++ jump :: (back :: elseBody) := by simp
  have hhole : (append c (condition ++ [jump] ++ thenBody ++ condition)).size =
      c.size + size (condition ++ skip :: (thenBody ++ condition)) := by
    simp [jump, skip, size, Instruction.size]
  have hclose₂ := closeJump_append c (condition ++ skip :: (thenBody ++ condition))
    (back :: elseBody) 0xFFFF span span
  have hsize : size (back :: elseBody) = size elseBody + 3 := by
    simp [back, size, Instruction.size, Nat.add_comm]
  rw [hsize] at hclose₂
  rw [bind_of_ok e₅, hstate', hhole, hclose₂]
  by_cases h₆ : size elseBody + 3 < 65536
  · rw [if_pos h₆]
    refine Or.inl ⟨hfits.mpr ⟨h₁, ?_, ?_, h₄, ?_, h₆⟩, ?_⟩
    · simpa only [jump, namesAfter_append, jump_cons, namesAfter_nil] using h₂
    · simpa only [jump, namesAfter_append, jump_cons, namesAfter_nil] using h₃
    · simpa only [jump, skip, back, namesAfter_append, jump_cons, loop_cons, namesAfter_nil]
        using h₅
    · simp [loopCode, skip, back]
  · rw [if_neg h₆]
    exact Or.inr ⟨fun h => h₆ (hfits.mp h).2.2.2.2.2, back, hjump, _, _, rfl⟩

/-! ### Statements and programs -/

/-- Generators of statements append their code in order. -/
theorem statements_generates_of_forall {inputCount : Nat} {stmts : List Expr}
    (h : ∀ stmt ∈ stmts, Generates (statement inputCount stmt) (statementCode inputCount stmt)) :
    Generates (statements inputCount stmts) (statementsCode inputCount stmts) := by
  induction stmts with
  | nil => simpa only [statements, statementsCode] using Generates.nothing
  | cons stmt stmts ih =>
    rw [statements, statementsCode]
    exact (h stmt List.mem_cons_self).bind (ih fun s hs => h s (List.mem_cons_of_mem _ hs))

/-- What is no statement has no code. -/
theorem statementCode_silent (inputCount : Nat) {e : Expr} (h : e.isStatement = false) :
    statementCode inputCount e = [] := by
  cases e <;> cases h <;> rw [statementCode]

/-- Nothing is generated for what is no statement. -/
theorem statement_silent (inputCount : Nat) {e : Expr} (h : e.isStatement = false) :
    statement inputCount e = pure () := by
  cases e <;> cases h <;> rw [statement]

/-- The generator of a statement appends the statement's code. -/
theorem statement_generates (inputCount : Nat) {stmt : Expr} (h : Executable stmt) :
    Generates (statement inputCount stmt) (statementCode inputCount stmt) := by
  induction h with
  | assign span h =>
    rw [statement, statementCode]
    exact (value_generates h).bind (Generates.plain (i := .pop) rfl rfl rfl rfl span)
  | pop span h =>
    rw [statement, statementCode]
    exact (value_generates h).bind (Generates.plain (i := .pop) rfl rfl rfl rfl span)
  | print span h =>
    rw [statement, statementCode]
    exact (values_generates h).bind (count_generates _ span)
  | hello span =>
    rw [statement, statementCode]
    unfold greeting greetingCode
    split
    · exact (load_generates (inputName 0) span).bind
        (Generates.plain (i := .hello) rfl rfl rfl rfl span)
    · exact Generates.plain (i := .helloWorld) rfl rfl rfl rfl span
  | exit code span =>
    rw [statement, statementCode]
    exact Generates.withByte (i := .exit _) rfl rfl rfl rfl span
  | push span h =>
    rw [statement, statementCode]
    exact (value_generates h).bind (Generates.plain (i := .stackPush) rfl rfl rfl rfl span)
  | clear span =>
    rw [statement, statementCode]
    exact Generates.plain (i := .stackClear) rfl rfl rfl rfl span
  | loop span hcondition _ _ ihThen ihElse =>
    rw [statement, statementCode]
    exact loop_generates (value_generates hcondition) (statements_generates_of_forall ihThen)
      (statements_generates_of_forall ihElse) span
  | silent h =>
    rw [statement_silent inputCount h, statementCode_silent inputCount h]
    exact Generates.nothing

mutual

/-- A statement for which code is generated has code. -/
theorem executable_of_statement {inputCount : Nat} (stmt : Expr) {c c' : Chunk}
    (h : statement inputCount stmt c = .ok () c') : Executable stmt := by
  cases stmt with
  | assign target source span =>
    rw [statement] at h
    obtain ⟨_, _, hvalue, _⟩ := ok_of_bind h
    exact .assign span (evaluable_of_value hvalue)
  | pop target span =>
    rw [statement] at h
    obtain ⟨_, _, hvalue, _⟩ := ok_of_bind h
    exact .pop span (evaluable_of_value hvalue)
  | print args span =>
    rw [statement] at h
    obtain ⟨_, _, hvalues, _⟩ := ok_of_bind h
    exact .print span (evaluable_of_values hvalues)
  | hello span => exact .hello span
  | exit code span => exact .exit code span
  | push e span =>
    rw [statement] at h
    obtain ⟨_, _, hvalue, _⟩ := ok_of_bind h
    exact .push span (evaluable_of_value hvalue)
  | clear span => exact .clear span
  | loop condition thenBody elseBody span =>
    rw [statement] at h
    obtain ⟨_, _, hcondition, h⟩ := ok_of_bind h
    obtain ⟨_, _, _, h⟩ := ok_of_bind h
    obtain ⟨_, _, _, h⟩ := ok_of_bind h
    obtain ⟨_, _, hthen, h⟩ := ok_of_bind h
    obtain ⟨_, _, _, h⟩ := ok_of_bind h
    obtain ⟨_, _, _, h⟩ := ok_of_bind h
    obtain ⟨_, _, _, h⟩ := ok_of_bind h
    obtain ⟨_, _, _, h⟩ := ok_of_bind h
    obtain ⟨_, _, helse, _⟩ := ok_of_bind h
    exact .loop span (evaluable_of_value hcondition) (executable_of_statements thenBody hthen)
      (executable_of_statements elseBody helse)
  | _ => exact .silent rfl

/-- Statements for which code is generated have code. -/
theorem executable_of_statements {inputCount : Nat} (stmts : List Expr) {c c' : Chunk}
    (h : statements inputCount stmts c = .ok () c') : ∀ stmt ∈ stmts, Executable stmt := by
  cases stmts with
  | nil => simp
  | cons stmt stmts =>
    rw [statements] at h
    obtain ⟨_, _, hfirst, hrest⟩ := ok_of_bind h
    have ihFirst := executable_of_statement stmt hfirst
    have ihRest := executable_of_statements stmts hrest
    intro s hs
    rcases List.mem_cons.mp hs with rfl | hmem
    · exact ihFirst
    · exact ihRest s hmem

end

/-- Behind any chunk the code of a program is appended if it fits, and an empty chunk is left;
otherwise the program is too large. -/
theorem program_of_executable {p : Program} (h : ∀ stmt ∈ p.statements, Executable stmt)
    (c : Chunk) :
    (Fits c.names.toList (programCode p) ∧
      program p c = .ok (append c (programCode p)) Chunk.empty) ∨
    (¬ Fits c.names.toList (programCode p) ∧ ∃ l ∈ programCode p, ∃ limit c',
      program p c = .error (.placed (.programTooLarge limit) l.span) c') := by
  have hgen : Generates (statements p.inputCount p.statements >>= fun _ =>
      emit .finish (lastSpan p.statements)) (programCode p) :=
    (statements_generates_of_forall fun stmt hs => statement_generates _ (h stmt hs)).bind
      (Generates.plain (i := .finish) rfl rfl rfl rfl _)
  have hprogram : program p = ((statements p.inputCount p.statements >>= fun _ =>
      emit .finish (lastSpan p.statements)) >>= fun _ =>
        modifyGet fun c => (c, Chunk.empty)) := by
    rw [program, bind_assoc]
  rw [hprogram]
  rcases hgen c with ⟨hfits, hok⟩ | ⟨hfits, l, hl, limit, c', herror⟩
  · rw [bind_of_ok hok]
    exact Or.inl ⟨hfits, rfl⟩
  · exact Or.inr ⟨hfits, l, hl, limit, c', bind_of_error herror⟩

/-- A program whose code is appended to a chunk has code, the code fits there, and nothing else is
appended. -/
theorem program_eq_ok {p : Program} {c c' chunk : Chunk} (h : program p c = .ok chunk c') :
    (∀ stmt ∈ p.statements, Executable stmt) ∧ Fits c.names.toList (programCode p) ∧
      chunk = append c (programCode p) ∧ c' = Chunk.empty := by
  obtain ⟨_, _, hstmts, _⟩ := ok_of_bind h
  have hexec := executable_of_statements _ hstmts
  rcases program_of_executable hexec c with ⟨hfits, hok⟩ | ⟨_, _, _, _, _, herror⟩
  · cases h.symm.trans hok
    exact ⟨hexec, hfits, rfl, rfl⟩
  · cases h.symm.trans herror

/-- A program compiles to the chunk of its code if the code fits, and otherwise it is too large. -/
theorem compile_of_executable {p : Program} (h : ∀ stmt ∈ p.statements, Executable stmt) :
    (Fits [] (programCode p) ∧ compile p = .ok (append Chunk.empty (programCode p))) ∨
      (¬ Fits [] (programCode p) ∧
        ∃ limit span, compile p = .error (.placed (.programTooLarge limit) span)) := by
  unfold compile
  rcases program_of_executable h Chunk.empty with ⟨hfits, hok⟩ | ⟨hfits, l, -, limit, c', herror⟩
  · rw [hok]
    exact Or.inl ⟨hfits, rfl⟩
  · rw [herror]
    exact Or.inr ⟨hfits, limit, l.span, rfl⟩

/-- A program that does not compile fails at the place of one of its lines. -/
theorem exists_line_of_compile_error {p : Program} {e : Error}
    (h : ∀ stmt ∈ p.statements, Executable stmt) (he : compile p = .error e) :
    ∃ l ∈ programCode p, e.span = some l.span := by
  unfold compile at he
  rcases program_of_executable h Chunk.empty with ⟨-, hok⟩ | ⟨-, l, hl, limit, c', herror⟩
  · rw [hok] at he
    cases he
  · rw [herror] at he
    cases he
    exact ⟨l, hl, rfl⟩

/-- A program that compiles has code, the code fits, and the chunk holds nothing else. -/
theorem compile_eq_ok {p : Program} {chunk : Chunk} (h : compile p = .ok chunk) :
    (∀ stmt ∈ p.statements, Executable stmt) ∧ Fits [] (programCode p) ∧
      chunk = append Chunk.empty (programCode p) := by
  unfold compile at h
  split at h
  · rename_i c c' hprogram
    obtain ⟨hexec, hfits, hchunk, -⟩ := program_eq_ok hprogram
    exact ⟨hexec, hfits, (Except.ok.inj h).symm.trans hchunk⟩
  · cases h

/-- The chunk of a program that compiles holds the program's code from its start on. -/
theorem holds_of_compile {p : Program} {chunk : Chunk} (h : compile p = .ok chunk) :
    Holds chunk 0 (programCode p) := by
  obtain ⟨_, hfits, rfl⟩ := compile_eq_ok h
  exact holds_append_chunk Chunk.empty rfl hfits

end Smil.Codegen
