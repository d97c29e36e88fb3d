import Smil.Proofs.Contents
import Smil.Proofs.Decoding
import Smil.Proofs.OperandHeight

/-!
# Compiled chunks are well formed

A chunk that a program compiles to can be listed from its first byte to its last, and each line of
the listing is an instruction that the machine fetches there. Its operands mean something: names and
modes exist, jumps lead to the start of another line, and every byte of an instruction has the same
place. The table of names holds what the code refers to, each name once.
-/

namespace Smil

open Bytecode

namespace Bytecode.Chunk

/-- `Listed c offset lines` says that a listing from an offset on shows one line after the other and
ends where the code ends. A line is given by its offset and opcode. -/
inductive Listed (c : Chunk) : Nat → List (Nat × Opcode) → Prop
  | done : Listed c c.size []
  | line {offset next : Nat} {op : Opcode} {text : String} {lines : List (Nat × Opcode)}
      (hop : (c.code[offset]?).bind Opcode.ofByte? = some op)
      (hline : c.instruction? offset = some (text, next)) (hrest : Listed c next lines) :
      Listed c offset ((offset, op) :: lines)

/-- What a line of a listing means to the machine. -/
structure Meaningful (c : Chunk) (lines : List (Nat × Opcode)) (offset : Nat) (op : Opcode) :
    Prop where
  /-- The machine fetches an instruction with this opcode and reads as far as the listing. All bytes
  up to there have the same place. -/
  fetched : ∃ i next text span, Instruction.fetch c offset = .ok (i, next) ∧ i.opcode = op ∧
    c.instruction? offset = some (text, next) ∧
    ∀ k, offset ≤ k → k < next → c.spans[k]? = some span
  /-- The name is in the table. -/
  name : op = .load ∨ op = .stackPop →
    ∃ index, c.word (offset + 1) = some index ∧ index.toNat < c.names.size
  /-- The mode is one. -/
  mode : op = .assign →
    ∃ b, c.code[offset + 1]? = some b ∧ (AssignMode.ofByte? b).isSome = true
  /-- The jump leads to a line further on. -/
  forward : op = .jumpIfNotPositive →
    ∃ jump target, c.word (offset + 1) = some jump ∧ (offset + 3 + jump.toNat, target) ∈ lines
  /-- The jump leads to a line before. -/
  back : op = .loop → ∃ jump target, c.word (offset + 1) = some jump ∧ jump.toNat ≤ offset + 3 ∧
    offset + 3 - jump.toNat < offset ∧ (offset + 3 - jump.toNat, target) ∈ lines

/-- A chunk in which everything has a meaning and nothing is left over. -/
structure WellFormed (c : Chunk) : Prop where
  spans : c.spans.size = c.code.size
  names : c.names.toList.Nodup
  lines : ∃ lines, Listed c 0 lines ∧ lines.getLast? = some (c.size - 1, .finish) ∧
    (∀ line ∈ lines, Meaningful c lines line.1 line.2) ∧
    ∀ k < c.names.size, ∃ line ∈ lines, (line.2 = .load ∨ line.2 = .stackPop) ∧
      (c.word (line.1 + 1)).map UInt16.toNat = some k

/-- A chunk whose lines can be listed has a listing. -/
theorem Listed.isSome_listFrom? {c : Chunk} {offset : Nat} {lines : List (Nat × Opcode)}
    (h : Listed c offset lines) (budget : Nat) (shown : String) :
    (c.listFrom? budget offset shown).isSome = true := by
  induction h generalizing budget shown with
  | done => cases budget <;> simp [listFrom?]
  | line hop hline _ ih =>
    cases budget with
    | zero => rfl
    | succ budget =>
      rw [listFrom?]
      split
      · rw [hline]
        exact ih budget _
      · rfl

end Bytecode.Chunk

namespace Assembly

/-- The offset and the opcode of each line of the code, which starts at the given offset. -/
def outline : Nat → List Line → List (Nat × Opcode)
  | _, [] => []
  | offset, l :: code =>
    (offset, l.instruction.opcode) :: outline (offset + l.instruction.size) code

/-- The outline of code in two parts. -/
theorem outline_append (offset : Nat) (a b : List Line) :
    outline offset (a ++ b) = outline offset a ++ outline (offset + size a) b := by
  induction a generalizing offset with
  | nil => rfl
  | cons l a ih => simp [outline, size, ih, Nat.add_assoc]

/-- A line of the code is in the outline. -/
theorem mem_outline_of_split {code before after : List Line} {l : Line}
    (hcode : code = before ++ l :: after) :
    (size before, l.instruction.opcode) ∈ outline 0 code := by
  simp [hcode, outline_append, outline]

/-- What is in the outline is a line of the code. -/
theorem exists_split_of_mem_outline {code : List Line} {start offset : Nat} {op : Opcode}
    (h : (offset, op) ∈ outline start code) :
    ∃ before l after, code = before ++ l :: after ∧ offset = start + size before ∧
      op = l.instruction.opcode := by
  induction code generalizing start with
  | nil => cases h
  | cons l code ih =>
    rcases List.mem_cons.mp h with heq | hmem
    · cases heq
      exact ⟨[], l, code, rfl, rfl, rfl⟩
    · obtain ⟨before, l', after, rfl, hoffset, hop⟩ := ih hmem
      refine ⟨l :: before, l', after, rfl, ?_, hop⟩
      rw [hoffset, size, Nat.add_assoc]

/-- Where a line is reached, the outline has one. -/
theorem mem_outline_of_reaches {code : List Line} {offset : Nat} {height : Int}
    (h : Reaches code offset height) : ∃ op, (offset, op) ∈ outline 0 code := by
  obtain ⟨before, l, after, hcode, rfl, -⟩ := h
  exact ⟨_, mem_outline_of_split hcode⟩

/-- All bytes of a line have the line's place. -/
theorem getElem?_spans {before after : List Line} {l : Line} {k : Nat} (hk : size before ≤ k)
    (hk' : k < size before + l.instruction.size) :
    (spans (before ++ l :: after))[k]? = some l.span := by
  have hspans : spans (before ++ l :: after) =
      spans before ++ (List.replicate l.instruction.size l.span ++ spans after) := by
    simp [spans]
  rw [hspans, List.getElem?_append_right (by rw [length_spans]; exact hk), length_spans,
    List.getElem?_append_left (by rw [List.length_replicate]; omega),
    List.getElem?_replicate, if_pos (by omega)]

/-- A line of code that a chunk holds is fetched where it stands. -/
theorem fetch_of_split {c : Chunk} {code before after : List Line} {l : Line}
    (h : Holds c 0 code) (hcode : code = before ++ l :: after) :
    Instruction.fetch c (size before) = .ok (l.instruction, size before + l.instruction.size) := by
  have hline := h.line hcode
  rw [Nat.zero_add] at hline
  exact (holds_singleton.mp hline).1

/-- Code that a chunk holds to its end is listed line by line. -/
theorem listed_of_holds {c : Chunk} {offset : Nat} {code : List Line} (h : Holds c offset code)
    (hsize : offset + size code = c.size)
    (hback : ∀ line ∈ outline offset code, Instruction.StaysInside c line.1) :
    c.Listed offset (outline offset code) := by
  induction code generalizing offset with
  | nil =>
    rw [size, Nat.add_zero] at hsize
    rw [outline, hsize]
    exact .done
  | cons l code ih =>
    obtain ⟨⟨hfetch, -⟩, hrest⟩ := h
    have hinside := hback _ List.mem_cons_self
    obtain ⟨text, hline⟩ := Instruction.line_of_fetch hfetch hinside
    refine .line (Instruction.encoded_of_fetch hfetch).1 hline (ih hrest ?_ ?_)
    · rw [← hsize, size, Nat.add_assoc]
    · exact fun line hmem => hback line (List.mem_cons_of_mem _ hmem)

end Assembly

namespace Assembly

/-- A jump back of admitted code stays within the code. -/
theorem staysInside_of_split {c : Chunk} {code before after : List Line} {l : Line}
    (h : Holds c 0 code) (hadmits : AdmitsAll code [] code) (hcode : code = before ++ l :: after) :
    Instruction.StaysInside c (size before) := by
  intro distance next hfetch
  rw [fetch_of_split h hcode] at hfetch
  obtain ⟨hl, rfl⟩ := Prod.mk.inj (Except.ok.inj hfetch)
  exact (hadmits.admits hcode).back distance hl

/-- The lines of admitted code mean something to the machine. -/
theorem meaningful_of_split {c : Chunk} {code before after : List Line} {l : Line}
    (h : Holds c 0 code) (hspans : c.spans = (spans code).toArray)
    (hadmits : AdmitsAll code [] code)
    (hinner : ∀ l ∈ code, l.instruction.Inner ∨ l.instruction = .finish)
    (hcode : code = before ++ l :: after) :
    c.Meaningful (outline 0 code) (size before) l.instruction.opcode := by
  have hfetch := fetch_of_split h hcode
  have hline := Instruction.line_of_fetch hfetch (staysInside_of_split h hadmits hcode)
  have hencoded := (Instruction.encoded_of_fetch hfetch).2.1
  have hadmit := hadmits.admits hcode
  have hl := hinner l (by simp [hcode])
  -- The operands depend on the instruction, so each kind of line is looked at by itself.
  obtain ⟨i, span⟩ := l
  refine ⟨?_, ?_, ?_, ?_, ?_⟩
  · obtain ⟨text, htext⟩ := hline
    refine ⟨i, _, text, span, hfetch, rfl, htext, fun k hk hk' => ?_⟩
    rw [hspans, List.getElem?_toArray, hcode]
    exact getElem?_spans hk hk'
  · intro hop
    cases i with
    | load name | stackPop name =>
      obtain ⟨index, hword, hname⟩ := hencoded
      exact ⟨index, hword, (Array.getElem?_eq_some_iff.mp hname).1⟩
    | _ => simp [Instruction.opcode] at hop
  · intro hop
    cases i with
    | assign mode =>
      obtain ⟨b, hb, hmode⟩ := hencoded
      exact ⟨b, hb, by simp [hmode]⟩
    | _ => cases hop
  · intro hop
    cases i with
    | jumpIfNotPositive distance =>
      obtain ⟨jump, hword, rfl⟩ := hencoded
      have hreach := hadmit.targets (size before + 3 + jump.toNat)
        (List.mem_cons_of_mem _ List.mem_cons_self)
      obtain ⟨target, htarget⟩ := mem_outline_of_reaches hreach
      exact ⟨jump, target, hword, htarget⟩
    | _ => cases hop
  · intro hop
    cases i with
    | loop distance =>
      obtain ⟨jump, hword, rfl⟩ := hencoded
      have hfar : jump.toNat ≤ size before + 3 := hadmit.back jump.toNat rfl
      have hnear : 3 < jump.toNat := hl.resolve_right (by simp)
      have hreach := hadmit.targets (size before + 3 - jump.toNat) List.mem_cons_self
      obtain ⟨target, htarget⟩ := mem_outline_of_reaches hreach
      exact ⟨jump, target, hword, hfar, by omega, htarget⟩
    | _ => cases hop

/-- Every name of a table built from the code is the name of a line. -/
theorem exists_line_of_name {code : List Line} {c : Chunk} (h : Holds c 0 code)
    (hnames : c.names.toList = namesAfter [] code) (hnodup : c.names.toList.Nodup) {k : Nat}
    (hk : k < c.names.size) :
    ∃ line ∈ outline 0 code, (line.2 = .load ∨ line.2 = .stackPop) ∧
      (c.word (line.1 + 1)).map UInt16.toNat = some k := by
  have hmem : c.names[k] ∈ namesAfter [] code := by
    rw [← hnames]
    exact Array.getElem_mem_toList hk
  have href : c.names[k] ∈ references code := by
    rcases mem_rememberAll.mp hmem with hnil | href
    · cases hnil
    · exact href
  obtain ⟨l, hl, hname⟩ := List.mem_filterMap.mp href
  obtain ⟨before, after, hcode⟩ := List.append_of_mem hl
  have hencoded := (Instruction.encoded_of_fetch (fetch_of_split h hcode)).2.1
  refine ⟨_, mem_outline_of_split hcode, ?_⟩
  obtain ⟨i, span⟩ := l
  cases i with
  | load name | stackPop name =>
    obtain ⟨index, hword, hindex⟩ := hencoded
    obtain rfl : name = c.names[k] := Option.some.inj hname
    have heq : k = index.toNat := by
      refine (List.getElem?_inj (by simpa using hk) hnodup).mp ?_
      rw [Array.getElem?_toList, Array.getElem?_toList, hindex, Array.getElem?_eq_getElem hk]
    refine ⟨by simp [Instruction.opcode], ?_⟩
    simp only
    rw [hword, Option.map_some, ← heq]
  | _ => cases hname

end Assembly

namespace Codegen

open Assembly

/-- A compiled chunk is well formed. -/
theorem wellFormed_of_compile {p : Program} {chunk : Chunk} (h : Codegen.compile p = .ok chunk) :
    chunk.WellFormed := by
  have hholds := holds_of_compile h
  obtain ⟨hexec, hfits, rfl⟩ := compile_eq_ok h
  have hadmits := admitsAll_programCode hexec
  have hnodup : (namesAfter [] (programCode p)).Nodup := nodup_rememberAll List.nodup_nil _
  have hsize : (append Chunk.empty (programCode p)).size = size (programCode p) := by
    rw [size_append_chunk]
    exact Nat.zero_add _
  refine ⟨?_, hnodup, outline 0 (programCode p), ?_, ?_, ?_, ?_⟩
  · simp [append, Chunk.empty]
  · refine listed_of_holds hholds (by rw [hsize, Nat.zero_add]) fun line hline => ?_
    obtain ⟨before, l, after, hcode, hoffset, -⟩ := exists_split_of_mem_outline hline
    rw [hoffset, Nat.zero_add]
    exact staysInside_of_split hholds hadmits hcode
  · rw [hsize, programCode, outline_append, size_append, List.getLast?_append]
    simp [outline, Instruction.opcode, Instruction.size]
  · intro line hline
    obtain ⟨before, l, after, hcode, hoffset, hop⟩ := exists_split_of_mem_outline hline
    rw [hop, hoffset, Nat.zero_add]
    exact meaningful_of_split hholds (by simp [append, Chunk.empty]) hadmits
      (inner_programCode hexec) hcode
  · intro k hk
    exact exists_line_of_name hholds rfl hnodup hk

end Codegen

/-- A compiled chunk is well formed and has a listing. In any chunk, compiled or not, a line of the
listing ends where the machine has read up to. -/
theorem listing_matches_machine :
    (∀ (p : Program) (chunk : Chunk), Codegen.compile p = .ok chunk →
      chunk.WellFormed ∧ ∀ title, (chunk.listing? title).isSome = true) ∧
    ∀ (c : Chunk) (ip : Nat), Instruction.StaysInside c ip →
      (c.instruction? ip).map Prod.snd = Instruction.readEnd? c ip := by
  refine ⟨fun p chunk h => ?_, fun c ip h => Instruction.readEnd_of_instruction h⟩
  have hformed := Codegen.wellFormed_of_compile h
  obtain ⟨lines, hlisted, -⟩ := hformed.lines
  exact ⟨hformed, fun title => hlisted.isSome_listFrom? _ _⟩

/-- A loop in the body of a loop, both of which refer to the same variable. -/
def loopInLoop : Program :=
  let x : Expr := .var "x" false .nowhere
  ⟨[.loop x [.loop (.lengthOf x .nowhere) [.pop x .nowhere] [.hello .nowhere] .nowhere] []
    .nowhere], 1⟩

/-- A chunk that loads a name which its table does not have. -/
def loadWithoutName : Chunk :=
  ⟨#[Opcode.load.toByte, 0, 7], #[.nowhere, .nowhere, .nowhere], #[]⟩

/-- Jumps in flight around jumps are patched to the starts of lines, and an instruction that the
machine refuses is listed up to where the machine has read it. -/
theorem listing_matches_loopInLoop : ∃ chunk, Codegen.compile loopInLoop = .ok chunk ∧
    chunk.WellFormed ∧ Instruction.StaysInside loadWithoutName 0 ∧
    Instruction.fetch loadWithoutName 0 = .error (.unknownName 7) ∧
    (loadWithoutName.instruction? 0).map Prod.snd = some 3 := by
  have hok : (Codegen.compile loopInLoop).isOk = true := by decide +kernel
  have hfetch : Instruction.fetch loadWithoutName 0 = .error (.unknownName 7) := by
    decide +kernel
  have hinside : Instruction.StaysInside loadWithoutName 0 := by
    intro distance next h
    cases hfetch.symm.trans h
  have hend := listing_matches_machine.2 loadWithoutName 0 hinside
  rw [Instruction.readEnd?, hfetch] at hend
  cases hcompile : Codegen.compile loopInLoop with
  | error e =>
    rw [hcompile] at hok
    cases hok
  | ok chunk =>
    exact ⟨chunk, rfl, (listing_matches_machine.1 loopInLoop chunk hcompile).1, hinside, hfetch,
      hend⟩

end Smil
