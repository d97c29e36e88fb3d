import Smil.Bytecode.Chunk
import Smil.Text.Decimal

/-!
# Listings

A listing shows a chunk one instruction to a line: offset, source line, opcode and operands. A
byte that is no opcode is shown as such and takes one line. There is no listing of an instruction
whose operands are not all there, or of a backward jump that leads before the first byte.
-/

namespace Smil.Bytecode

/-- Fills a text up on the left to four characters. -/
def fill (c : Char) (s : String) : String :=
  String.ofList (List.replicate (4 - s.length) c) ++ s

/-- A number with zeros in front, four digits wide. -/
def padded (n : Nat) : String :=
  fill '0' (Text.decimal n)

namespace Chunk

/-- The text of an instruction without its offset and line, and the offset behind it. -/
def operation? (c : Chunk) (offset : Nat) (op : Opcode) : Option (String × Nat) :=
  match op with
  | .load | .stackPop => do
    let index ← c.word (offset + 1)
    let name := c.names[index.toNat]?.getD "?"
    return (op.text ++ " " ++ padded index.toNat ++ " '" ++ name ++ "'", offset + 3)
  | .jumpIfNotPositive => do
    let jump ← c.word (offset + 1)
    return (op.text ++ " -> " ++ padded (offset + 3 + jump.toNat), offset + 3)
  | .loop => do
    let jump ← c.word (offset + 1)
    if jump.toNat ≤ offset + 3 then
      return (op.text ++ " -> " ++ padded (offset + 3 - jump.toNat), offset + 3)
    else
      none
  | .print => do
    let count ← c.word (offset + 1)
    return (op.text ++ " (" ++ Text.decimal count.toNat ++ ")", offset + 3)
  | .assign => do
    let b ← c.code[offset + 1]?
    let mode := (AssignMode.ofByte? b).elim (Text.decimal b.toNat) AssignMode.text
    return (op.text ++ " " ++ mode, offset + 2)
  | .exit => do
    let code ← c.code[offset + 1]?
    return (op.text ++ " (" ++ Text.decimal code.toNat ++ ")", offset + 2)
  | _ => some (op.text, offset + 1)

/-- The line of the listing for the instruction at `offset`, and the offset of the next one. -/
def instruction? (c : Chunk) (offset : Nat) : Option (String × Nat) := do
  let line := (c.spans[offset]?.map Span.line).getD 0
  let head := padded offset ++ " " ++ fill ' ' (Text.decimal line) ++ " "
  let b ← c.code[offset]?
  match Opcode.ofByte? b with
  | none => return (head ++ "<bad opcode " ++ Text.decimal b.toNat ++ ">", offset + 1)
  | some op =>
    let (text, next) ← c.operation? offset op
    return (head ++ text, next)

/-- Lists the instructions from `offset` on behind the text `shown`. The budget is the number of
bytes left, and each instruction has at least one. -/
def listFrom? (c : Chunk) : Nat → Nat → String → Option String
  | 0, _, shown => some shown
  | budget + 1, offset, shown =>
    if offset < c.size then do
      let (line, next) ← c.instruction? offset
      listFrom? c budget next (shown ++ line ++ "\n")
    else
      some shown

/-- The listing of a chunk under a title. -/
def listing? (c : Chunk) (title : String) : Option String :=
  c.listFrom? c.size 0 ("== " ++ title ++ " ==\n")

end Chunk

end Smil.Bytecode
