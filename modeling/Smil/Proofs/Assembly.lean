import Smil.Machine.Instruction
import Mathlib.Data.List.Basic

/-!
# Code as a list of instructions

Bytecode that a program compiles to is the encoding of a list of instructions, each with the place
it comes from. A name is encoded by its index in a table that grows by each name when it is first
met, so the encoding of a list does not change when more code follows.

Appending a list to a chunk and reading it back are inverse: at the start of each line the machine
fetches the line's instruction and finds the line's place. This needs that every index and every
number of the code fits into two bytes, which is the condition `Fits`.
-/

namespace Smil

open Bytecode

namespace Instruction

/-- The opcode that an instruction starts with. -/
def opcode : Instruction → Opcode
  | load _ => .load
  | loadNamed => .loadNamed
  | assign _ => .assign
  | binary op => .binary op
  | length => .length
  | print _ => .print
  | hello => .hello
  | helloWorld => .helloWorld
  | stackPush => .stackPush
  | stackPop _ => .stackPop
  | stackPopNamed => .stackPopNamed
  | stackClear => .stackClear
  | pop => .pop
  | jumpIfNotPositive _ => .jumpIfNotPositive
  | loop _ => .loop
  | exit _ => .exit
  | finish => .finish

/-- The name that an instruction refers to by index. -/
def name? : Instruction → Option String
  | load name | stackPop name => some name
  | _ => none

/-- The number that an instruction holds in two bytes. -/
def number? : Instruction → Option Nat
  | print n | jumpIfNotPositive n | loop n => some n
  | _ => none

/-- The two bytes of a number, the high one first. -/
def wordBytes (n : Nat) : List UInt8 :=
  [UInt8.ofNat (n / 256), UInt8.ofNat n]

/-- The operands of an instruction, with names encoded by `index`. -/
def operandBytes (index : String → Nat) : Instruction → List UInt8
  | load name | stackPop name => wordBytes (index name)
  | print n | jumpIfNotPositive n | loop n => wordBytes n
  | assign mode => [mode.toByte]
  | exit code => [code]
  | _ => []

/-- The bytes of an instruction, with names encoded by `index`. -/
def bytes (index : String → Nat) (i : Instruction) : List UInt8 :=
  i.opcode.toByte :: i.operandBytes index

/-- The number of bytes of an instruction. -/
def size : Instruction → Nat
  | load _ | stackPop _ | print _ | jumpIfNotPositive _ | loop _ => 3
  | assign _ | exit _ => 2
  | _ => 1

/-- The size of an instruction is the length of its encoding. -/
@[simp] theorem length_bytes (index : String → Nat) (i : Instruction) :
    (i.bytes index).length = i.size := by
  cases i <;> rfl

/-- Every instruction has at least its opcode. -/
theorem size_pos (i : Instruction) : 0 < i.size := by
  cases i <;> simp [size]

/-- The encoding of an instruction depends on the index of its own name only. -/
theorem bytes_congr {index index' : String → Nat} {i : Instruction}
    (h : ∀ name ∈ i.name?, index name = index' name) : i.bytes index = i.bytes index' := by
  cases i with
  | load name | stackPop name => simp only [bytes, operandBytes, h name rfl]
  | _ => rfl

/-- The byte behind a known part of the code. -/
theorem byteAt_of_append {c : Chunk} {before bs after : List UInt8} {k : Nat} {b : UInt8}
    (hcode : c.code.toList = before ++ (bs ++ after)) (hk : bs[k]? = some b) :
    byteAt c (before.length + k) = .ok b := by
  have hlt : k < bs.length := (List.getElem?_eq_some_iff.mp hk).1
  have hbyte : c.code[before.length + k]? = some b := by
    rw [← Array.getElem?_toList, hcode, List.getElem?_append_right (by omega),
      List.getElem?_append_left (by omega), ← hk]
    congr 1
    omega
  simp [byteAt, hbyte]

/-- Two bytes that encode a number are read back as that number. -/
theorem wordAt_of_append {c : Chunk} {before after : List UInt8} {first : UInt8} {n : Nat}
    (hcode : c.code.toList = before ++ (first :: wordBytes n ++ after)) (hn : n < 65536) :
    wordAt c (before.length + 1) = .ok n := by
  have hhigh := byteAt_of_append (k := 1) (b := UInt8.ofNat (n / 256)) hcode rfl
  have hlow := byteAt_of_append (k := 2) (b := UInt8.ofNat n) hcode rfl
  have hvalue : (UInt8.ofNat (n / 256)).toNat * 256 + (UInt8.ofNat n).toNat = n := by
    simp only [UInt8.toNat_ofNat']
    omega
  unfold wordAt
  rw [hhigh]
  change (do let low ← byteAt c (before.length + 2); _) = _
  rw [hlow]
  exact congrArg Except.ok hvalue

/-- Two bytes that encode the index of a name are read back as that name. -/
theorem nameAt_of_append {c : Chunk} {before after : List UInt8} {first : UInt8} {n : Nat}
    {name : String} (hcode : c.code.toList = before ++ (first :: wordBytes n ++ after))
    (hn : n < 65536) (hname : c.names[n]? = some name) :
    nameAt c (before.length + 1) = .ok name := by
  simp only [nameAt, wordAt_of_append hcode hn, bind, Except.bind, hname]

/-- An encoded instruction is fetched, together with the offset behind it. -/
theorem fetch_of_append {c : Chunk} {index : String → Nat} {i : Instruction}
    {before after : List UInt8} (hcode : c.code.toList = before ++ (i.bytes index ++ after))
    (hname : ∀ name ∈ i.name?, index name < 65536 ∧ c.names[index name]? = some name)
    (hnumber : ∀ n ∈ i.number?, n < 65536) :
    fetch c before.length = .ok (i, before.length + i.size) := by
  have hopcode : opcodeAt c before.length = .ok i.opcode := by
    have hbyte : byteAt c before.length = .ok i.opcode.toByte :=
      byteAt_of_append (k := 0) hcode rfl
    simp only [opcodeAt, hbyte, bind, Except.bind, Opcode.ofByte?_toByte]
  unfold fetch
  rw [hopcode]
  cases i with
  | load name | stackPop name =>
    obtain ⟨hlt, hget⟩ := hname name rfl
    change (do let name ← nameAt c (before.length + 1); _) = _
    rw [nameAt_of_append hcode hlt hget]
    rfl
  | print n | jumpIfNotPositive n | loop n =>
    change (do let n ← wordAt c (before.length + 1); _) = _
    rw [wordAt_of_append hcode (hnumber n rfl)]
    rfl
  | assign mode =>
    change (do let mode ← modeAt c (before.length + 1); _) = _
    have hmode : modeAt c (before.length + 1) = .ok mode := by
      have hbyte := byteAt_of_append (k := 1) (b := mode.toByte) hcode rfl
      simp only [modeAt, hbyte, bind, Except.bind, AssignMode.ofByte?_toByte]
    rw [hmode]
    rfl
  | exit code =>
    change (do let code ← byteAt c (before.length + 1); _) = _
    rw [byteAt_of_append (k := 1) (b := code) hcode rfl]
    rfl
  | _ => rfl

end Instruction

/-- An instruction with the place that it comes from. -/
structure Line where
  instruction : Instruction
  span : Span
deriving DecidableEq, Repr, Inhabited

namespace Line

/-- Whether the name index and the number of a line fit into two bytes. -/
def Fits (names : List String) (l : Line) : Prop :=
  (∀ name ∈ l.instruction.name?, names.idxOf name < 65536) ∧
    ∀ n ∈ l.instruction.number?, n < 65536

end Line

namespace Assembly

/-- The table with a name added at the end unless it is there. -/
def remember (names : List String) (name : String) : List String :=
  if name ∈ names then names else names ++ [name]

/-- The names that the code refers to, in order. -/
def references (code : List Line) : List String :=
  code.filterMap fun l => l.instruction.name?

/-- The table after every name of the code has been added. -/
def namesAfter (names : List String) (code : List Line) : List String :=
  (references code).foldl remember names

/-- The number of bytes of the code. -/
def size : List Line → Nat
  | [] => 0
  | l :: code => l.instruction.size + size code

/-- The encoding of the code over a table of names. -/
def bytes (names : List String) (code : List Line) : List UInt8 :=
  code.flatMap fun l => l.instruction.bytes names.idxOf

/-- The place of each byte of the code. -/
def spans (code : List Line) : List Span :=
  code.flatMap fun l => List.replicate l.instruction.size l.span

/-- Whether all of the code can be encoded after the names of a table. -/
def Fits (names : List String) (code : List Line) : Prop :=
  ∀ l ∈ code, l.Fits (namesAfter names code)

/-- Adds code at the end of a chunk. -/
def append (c : Chunk) (code : List Line) : Chunk where
  code := c.code ++ (bytes (namesAfter c.names.toList code) code).toArray
  spans := c.spans ++ (spans code).toArray
  names := (namesAfter c.names.toList code).toArray

/-! ### The table of names -/

/-- A table only grows at its end. -/
theorem prefix_remember (names : List String) (name : String) : names <+: remember names name := by
  unfold remember
  split
  · exact List.prefix_refl names
  · exact List.prefix_append names [name]

/-- Adding a name keeps the table free of duplicates. -/
theorem nodup_remember {names : List String} (h : names.Nodup) (name : String) :
    (remember names name).Nodup := by
  unfold remember
  split
  · exact h
  · rename_i hname
    refine List.nodup_append.mpr ⟨h, by simp, ?_⟩
    intro a ha b hb hab
    rw [List.mem_singleton] at hb
    exact hname (hb ▸ hab ▸ ha)

/-- Adding names keeps the table as a prefix. -/
theorem prefix_rememberAll (names added : List String) : names <+: added.foldl remember names := by
  induction added generalizing names with
  | nil => exact List.prefix_refl names
  | cons name rest ih => exact (prefix_remember names name).trans (ih (remember names name))

/-- A table to which names have been added holds those names and the old ones. -/
theorem mem_rememberAll {names added : List String} {name : String} :
    name ∈ added.foldl remember names ↔ name ∈ names ∨ name ∈ added := by
  induction added generalizing names with
  | nil => simp
  | cons first rest ih =>
    have hfirst : name ∈ remember names first ↔ name ∈ names ∨ name = first := by
      unfold remember
      split
      · constructor
        · exact Or.inl
        · rintro (h | rfl) <;> assumption
      · simp
    rw [List.foldl_cons, ih, hfirst, List.mem_cons, or_assoc]

/-- Adding names keeps the table free of duplicates. -/
theorem nodup_rememberAll {names : List String} (h : names.Nodup) (added : List String) :
    (added.foldl remember names).Nodup := by
  induction added generalizing names with
  | nil => exact h
  | cons name rest ih => exact ih (nodup_remember h name)

/-- Code in two parts adds the names of the first part first. -/
theorem namesAfter_append (names : List String) (a b : List Line) :
    namesAfter names (a ++ b) = namesAfter (namesAfter names a) b := by
  simp [namesAfter, references]

/-- The index of a name stays the same when the table grows. -/
theorem idxOf_eq_of_prefix {names longer : List String} {name : String}
    (hname : name ∈ names) (h : names <+: longer) : longer.idxOf name = names.idxOf name := by
  obtain ⟨rest, rfl⟩ := h
  exact List.idxOf_append_of_mem hname

/-- The name of a line is in the table after the code that holds the line. -/
theorem mem_namesAfter {code : List Line} {l : Line} {name : String} (hl : l ∈ code)
    (hname : name ∈ l.instruction.name?) (names : List String) : name ∈ namesAfter names code := by
  refine mem_rememberAll.mpr (Or.inr ?_)
  exact List.mem_filterMap.mpr ⟨l, hl, hname⟩

/-- Growing the table changes no index of the code before. -/
theorem idxOf_namesAfter_append {a b : List Line} {l : Line} {name : String} (hl : l ∈ a)
    (hname : name ∈ l.instruction.name?) (names : List String) :
    (namesAfter names (a ++ b)).idxOf name = (namesAfter names a).idxOf name := by
  rw [namesAfter_append]
  exact idxOf_eq_of_prefix (mem_namesAfter hl hname names) (prefix_rememberAll _ _)

/-! ### Code in two parts -/

/-- Codes in a row have the sum of their sizes. -/
@[simp] theorem size_append (a b : List Line) : size (a ++ b) = size a + size b := by
  induction a with
  | nil => simp [size]
  | cons l a ih => simp [size, ih, Nat.add_assoc]

/-- One instruction has its own size. -/
@[simp] theorem size_singleton (l : Line) : size [l] = l.instruction.size := rfl

/-- The size of a code is the number of its bytes. -/
@[simp] theorem length_bytes (names : List String) (code : List Line) :
    (bytes names code).length = size code := by
  induction code with
  | nil => rfl
  | cons l code ih => simpa [bytes, size] using ih

/-- Each byte has a place. -/
@[simp] theorem length_spans (code : List Line) : (spans code).length = size code := by
  induction code with
  | nil => rfl
  | cons l code ih => simpa [spans, size] using ih

/-- The encoding of code does not change when more code follows. -/
theorem bytes_namesAfter_append (names : List String) (a b : List Line) :
    bytes (namesAfter names (a ++ b)) a = bytes (namesAfter names a) a := by
  unfold bytes
  refine List.flatMap_congr fun l hl => ?_
  exact Instruction.bytes_congr fun name hname => idxOf_namesAfter_append hl hname names

/-- Code in two parts fits if each part fits where it stands. -/
theorem fits_append {names : List String} {a b : List Line} :
    Fits names (a ++ b) ↔ Fits names a ∧ Fits (namesAfter names a) b := by
  have hleft : ∀ l ∈ a, l.Fits (namesAfter names (a ++ b)) ↔ l.Fits (namesAfter names a) := by
    intro l hl
    unfold Line.Fits
    refine and_congr_left' (forall₂_congr fun name hname => ?_)
    rw [idxOf_namesAfter_append hl hname]
  unfold Fits
  simp only [List.mem_append, or_imp, forall_and, ← namesAfter_append]
  exact and_congr_left' (forall₂_congr hleft)

/-- Without code nothing is added to a chunk. -/
@[simp] theorem append_nil (c : Chunk) : append c [] = c := by
  simp [append, bytes, spans, namesAfter, references]

/-- Appending code in two parts is appending it at once. -/
theorem append_append (c : Chunk) (a b : List Line) :
    append (append c a) b = append c (a ++ b) := by
  unfold append
  simp only [← namesAfter_append]
  rw [← bytes_namesAfter_append c.names.toList a b]
  simp [bytes, spans]

/-- Code that is added to a chunk adds its size. -/
@[simp] theorem size_append_chunk (c : Chunk) (code : List Line) :
    (append c code).size = c.size + size code := by
  simp [append, Chunk.size]

/-! ### Reading code back -/

/-- A chunk holds code from an offset on: each line is fetched where it starts, and its place is
found there. -/
def Holds (c : Chunk) : Nat → List Line → Prop
  | _, [] => True
  | offset, l :: code =>
    (Instruction.fetch c offset = .ok (l.instruction, offset + l.instruction.size) ∧
      c.spans[offset]? = some l.span) ∧
    Holds c (offset + l.instruction.size) code

/-- A chunk holds code in two parts if it holds one part behind the other. -/
theorem holds_append {c : Chunk} {offset : Nat} {a b : List Line} :
    Holds c offset (a ++ b) ↔ Holds c offset a ∧ Holds c (offset + size a) b := by
  induction a generalizing offset with
  | nil => simp [Holds, size]
  | cons l a ih => simp only [List.cons_append, Holds, ih, size, Nat.add_assoc, and_assoc]

/-- One line is held where its instruction is fetched and its place is found. -/
theorem holds_singleton {c : Chunk} {offset : Nat} {l : Line} :
    Holds c offset [l] ↔
      Instruction.fetch c offset = .ok (l.instruction, offset + l.instruction.size) ∧
        c.spans[offset]? = some l.span := by
  simp [Holds]

/-- A code is held where its first line is, with the others behind it. -/
theorem holds_cons {c : Chunk} {offset : Nat} {l : Line} {code : List Line} :
    Holds c offset (l :: code) ↔
      Holds c offset [l] ∧ Holds c (offset + l.instruction.size) code := by
  simp [Holds]

/-- A chunk that holds code holds each line of it. -/
theorem Holds.line {c : Chunk} {offset : Nat} {code before after : List Line} {l : Line}
    (h : Holds c offset code) (hcode : code = before ++ l :: after) :
    Holds c (offset + size before) [l] := by
  rw [hcode, holds_append, holds_cons] at h
  exact h.2.1

/-- A line of appended code that fits is fetched behind what was there before and the lines in front
of it. -/
theorem fetch_append_chunk (c : Chunk) {code read rest : List Line} {l : Line}
    (h : Fits c.names.toList code) (hsplit : code = read ++ l :: rest) :
    Instruction.fetch (append c code) (c.size + size read) =
      .ok (l.instruction, c.size + size read + l.instruction.size) := by
  have hl : l ∈ code := by simp [hsplit]
  have hbytes : (append c code).code.toList =
      (c.code.toList ++ bytes (namesAfter c.names.toList code) read) ++
        (l.instruction.bytes (namesAfter c.names.toList code).idxOf ++
          bytes (namesAfter c.names.toList code) rest) := by
    conv_lhs => unfold append; simp only
    generalize namesAfter c.names.toList code = names
    simp [hsplit, bytes]
  have hfetch := Instruction.fetch_of_append hbytes
    (fun name hname => ⟨(h l hl).1 name hname, by
      simpa [append] using List.getElem?_idxOf (mem_namesAfter hl hname c.names.toList)⟩)
    (h l hl).2
  simpa [Chunk.size] using hfetch

/-- Appended code that fits is held behind what was there before. -/
theorem holds_append_chunk (c : Chunk) {code : List Line} (hcode : c.code.size = c.spans.size)
    (h : Fits c.names.toList code) : Holds (append c code) c.size code := by
  -- The induction runs over the lines already read, which stand between the old code and the rest.
  suffices hfrom : ∀ read rest, code = read ++ rest →
      Holds (append c code) (c.size + size read) rest by
    simpa [size] using hfrom [] code rfl
  intro read rest
  induction rest generalizing read with
  | nil => intro _; trivial
  | cons l rest ih =>
    intro hsplit
    refine ⟨⟨fetch_append_chunk c h hsplit, ?_⟩, ?_⟩
    · have hpos := l.instruction.size_pos
      have hspans : (append c code).spans.toList = (c.spans.toList ++ spans read) ++
          (List.replicate l.instruction.size l.span ++ spans rest) := by
        simp [append, hsplit, spans]
      rw [← Array.getElem?_toList, hspans, List.getElem?_append_right (by simp [Chunk.size, hcode]),
        List.getElem?_append_left (by simpa [Chunk.size, hcode] using hpos)]
      simp [Chunk.size, hcode, hpos]
    · have hrest := ih (read ++ [l]) (by simp [hsplit])
      simpa [size, Nat.add_assoc] using hrest

end Assembly

end Smil
