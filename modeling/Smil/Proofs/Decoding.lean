import Smil.Bytecode.Listing
import Smil.Proofs.Assembly

/-!
# Listing and machine read the same instructions

The machine fetches an instruction with its operands, and a listing shows it; each has its own
account of how long an instruction is. In every chunk and at every offset the two agree: the listing
goes on where the machine has read up to, also if an operand is invalid, and it breaks off where the
code ends within the instruction. The one exception is a jump back before the first byte, which the
machine reads and the listing cannot show.
-/

namespace Smil

open Bytecode

namespace Instruction

variable {c : Chunk} {ip : Nat}

/-- Two bytes joined to a word are the number that they encode. -/
theorem toNat_word (high low : UInt8) :
    (high.toUInt16 <<< 8 ||| low.toUInt16).toNat = high.toNat * 256 + low.toNat := by
  have hhigh := high.toNat_lt
  have hlow := low.toNat_lt
  have hshift : (high.toNat <<< 8) % 65536 = high.toNat <<< 8 := by
    rw [Nat.shiftLeft_eq]
    omega
  simp only [UInt16.toNat_or, UInt16.toNat_shiftLeft, UInt8.toNat_toUInt16]
  change (high.toNat <<< 8) % 65536 ||| low.toNat = _
  rw [hshift, ← Nat.shiftLeft_add_eq_or_of_lt (by omega), Nat.shiftLeft_eq]

/-- The machine reads a number from the two bytes that the listing reads as a word. -/
theorem wordAt_eq (c : Chunk) (offset : Nat) :
    wordAt c offset = ((c.word offset).map UInt16.toNat).elim (.error .pastEnd) .ok := by
  unfold wordAt byteAt Chunk.word
  cases c.code[offset]? with
  | none => rfl
  | some high =>
    cases c.code[offset + 1]? with
    | none => rfl
    | some low => exact congrArg Except.ok (toNat_word high low).symm

/-- The operands behind an opcode, as the chunk holds them. -/
def Encoded (c : Chunk) (ip : Nat) : Instruction → Prop
  | load name | stackPop name =>
    ∃ index, c.word (ip + 1) = some index ∧ c.names[index.toNat]? = some name
  | print n | jumpIfNotPositive n | loop n => ∃ w, c.word (ip + 1) = some w ∧ w.toNat = n
  | assign mode => ∃ b, c.code[ip + 1]? = some b ∧ AssignMode.ofByte? b = some mode
  | exit code => c.code[ip + 1]? = some code
  | _ => True

/-- A number that is read stands in the chunk as a word. -/
theorem word_of_wordAt {offset n : Nat} (h : wordAt c offset = .ok n) :
    ∃ w, c.word offset = some w ∧ w.toNat = n := by
  rw [wordAt_eq] at h
  cases hword : c.word offset with
  | none =>
    rw [hword] at h
    cases h
  | some w =>
    rw [hword] at h
    exact ⟨w, rfl, Except.ok.inj h⟩

/-- A sequence of reads that succeeds consists of reads that succeed. -/
theorem ok_of_read {α β : Type} {x : Except Fault α} {g : α → Except Fault β} {b : β}
    (h : x >>= g = .ok b) : ∃ a, x = .ok a ∧ g a = .ok b := by
  cases x with
  | ok a => exact ⟨a, rfl, h⟩
  | error f => cases h

/-- A name that is read stands in the table at the index that the chunk holds. -/
theorem word_of_nameAt {offset : Nat} {name : String} (h : nameAt c offset = .ok name) :
    ∃ index, c.word offset = some index ∧ c.names[index.toNat]? = some name := by
  obtain ⟨n, hword, h⟩ := ok_of_read h
  obtain ⟨index, hindex, rfl⟩ := word_of_wordAt hword
  split at h
  · rename_i name' hname
    cases h
    exact ⟨index, hindex, hname⟩
  · cases h

/-- A byte that is read stands in the chunk. -/
theorem byte_of_byteAt {offset : Nat} {b : UInt8} (h : byteAt c offset = .ok b) :
    c.code[offset]? = some b := by
  unfold byteAt at h
  split at h
  · cases h
    assumption
  · cases h

/-- An instruction that is fetched stands in the chunk: its opcode, then its operands, and it ends
where its size says. -/
theorem encoded_of_fetch {i : Instruction} {next : Nat} (h : fetch c ip = .ok (i, next)) :
    (c.code[ip]?).bind Opcode.ofByte? = some i.opcode ∧ Encoded c ip i ∧ next = ip + i.size := by
  obtain ⟨op, hop, h⟩ := ok_of_read h
  have hbyte : (c.code[ip]?).bind Opcode.ofByte? = some op := by
    obtain ⟨b, hb, hop⟩ := ok_of_read hop
    rw [byte_of_byteAt hb]
    split at hop
    · cases hop
      assumption
    · cases hop
  cases op with
  | load | stackPop =>
    obtain ⟨name, hname, h⟩ := ok_of_read h
    cases h
    exact ⟨hbyte, word_of_nameAt hname, rfl⟩
  | print | jumpIfNotPositive | loop =>
    obtain ⟨n, hword, h⟩ := ok_of_read h
    cases h
    exact ⟨hbyte, word_of_wordAt hword, rfl⟩
  | assign =>
    obtain ⟨mode, hmode, h⟩ := ok_of_read h
    obtain ⟨b, hb, hmode⟩ := ok_of_read hmode
    cases h
    refine ⟨hbyte, ⟨b, byte_of_byteAt hb, ?_⟩, rfl⟩
    split at hmode
    · cases hmode
      assumption
    · cases hmode
  | exit =>
    obtain ⟨code, hcode, h⟩ := ok_of_read h
    cases h
    exact ⟨hbyte, byte_of_byteAt hcode, rfl⟩
  | _ =>
    cases h
    exact ⟨hbyte, trivial, rfl⟩

/-- How far the machine has read when it finds a fault in the instruction at `ip`. There is no such
offset if the code ends within the instruction. -/
def faultEnd? (ip : Nat) : Fault → Option Nat
  | .invalidOpcode _ => some (ip + 1)
  | .invalidMode _ => some (ip + 2)
  | .unknownName _ => some (ip + 3)
  | _ => none

/-- How far the machine reads the instruction at `ip`: up to behind its operands, whether they are
valid or not. -/
def readEnd? (c : Chunk) (ip : Nat) : Option Nat :=
  match fetch c ip with
  | .ok (_, next) => some next
  | .error f => faultEnd? ip f

/-- A jump back that stays within the chunk. -/
def StaysInside (c : Chunk) (ip : Nat) : Prop :=
  ∀ distance next, fetch c ip = .ok (.loop distance, next) → distance ≤ next

/-- The machine reads a byte as the opcode that it stands for, or not at all. -/
theorem opcodeAt_of_byte {b : UInt8} (hb : c.code[ip]? = some b) :
    opcodeAt c ip = (Opcode.ofByte? b).elim (.error (.invalidOpcode b)) .ok := by
  simp only [opcodeAt, byteAt, hb, bind, Except.bind]
  cases Opcode.ofByte? b <;> rfl

/-- The listing of an instruction goes on where the machine has read up to. -/
theorem readEnd_of_operation {op : Opcode} (hop : opcodeAt c ip = .ok op) (h : StaysInside c ip) :
    (c.operation? ip op).map Prod.snd = readEnd? c ip := by
  unfold StaysInside at h
  unfold readEnd?
  unfold fetch at h ⊢
  rw [hop] at h ⊢
  simp only [bind, Except.bind] at h ⊢
  cases op with
  | load | stackPop =>
    simp only [Chunk.operation?, nameAt, wordAt_eq]
    cases c.word (ip + 1) with
    | none => rfl
    | some index =>
      simp only [Option.map_some, Option.elim_some, bind, Except.bind]
      cases c.names[index.toNat]? <;> rfl
  | print | jumpIfNotPositive =>
    simp only [Chunk.operation?, wordAt_eq]
    cases c.word (ip + 1) <;> rfl
  | loop =>
    simp only [Chunk.operation?, wordAt_eq] at h ⊢
    cases hword : c.word (ip + 1) with
    | none => rfl
    | some distance =>
      rw [hword] at h
      have hback : distance.toNat ≤ ip + 3 := h distance.toNat (ip + 3) rfl
      simp only [bind, Option.bind, hback, if_true]
      rfl
  | assign =>
    simp only [Chunk.operation?, modeAt, byteAt]
    cases c.code[ip + 1]? with
    | none => rfl
    | some b =>
      simp only [bind, Except.bind]
      cases AssignMode.ofByte? b <;> rfl
  | exit =>
    simp only [Chunk.operation?, byteAt]
    cases c.code[ip + 1]? <;> rfl
  | _ => rfl

/-- The line of a listing ends where the machine has read up to; there is none if the code ends
within the instruction. -/
theorem readEnd_of_instruction (h : StaysInside c ip) :
    (c.instruction? ip).map Prod.snd = readEnd? c ip := by
  cases hb : c.code[ip]? with
  | none =>
    simp [Chunk.instruction?, readEnd?, fetch, opcodeAt, byteAt, hb, bind, Except.bind, faultEnd?]
  | some b =>
    have hopcode := opcodeAt_of_byte hb
    cases hop : Opcode.ofByte? b with
    | none =>
      rw [hop] at hopcode
      simp [Chunk.instruction?, readEnd?, fetch, hb, hop, hopcode, bind, Except.bind, faultEnd?]
    | some op =>
      rw [hop] at hopcode
      rw [← readEnd_of_operation hopcode h]
      simp only [Chunk.instruction?, hb, hop, bind, Option.bind_some]
      rcases c.operation? ip op with _ | ⟨text, next⟩ <;> simp

/-- What the machine fetches, the listing shows up to the same offset. -/
theorem line_of_fetch {i : Instruction} {next : Nat} (hfetch : fetch c ip = .ok (i, next))
    (h : StaysInside c ip) : ∃ text, c.instruction? ip = some (text, next) := by
  have hend := readEnd_of_instruction h
  rw [readEnd?, hfetch] at hend
  obtain ⟨⟨text, _⟩, hline, rfl⟩ := Option.map_eq_some_iff.mp hend
  exact ⟨text, hline⟩

end Instruction

end Smil
