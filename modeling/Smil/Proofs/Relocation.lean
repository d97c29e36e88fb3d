import Smil.Proofs.Generation

/-!
# Code behind other code

The code of a program can be generated behind any chunk, also behind one that another program has
left unfinished. Nothing of what was there changes, and the new part means the same as the code of
the program alone: jumps hold distances and not places, and a name that has another index is still
the same name. So the two parts are read as the same instructions.
-/

namespace Smil

open Bytecode Assembly

/-- A chunk starts with another: its bytes, places and names go on where those of the other end. -/
structure Bytecode.Chunk.StartsWith (c old : Chunk) : Prop where
  code : old.code.toList <+: c.code.toList
  spans : old.spans.toList <+: c.spans.toList
  names : old.names.toList <+: c.names.toList

/-- From an offset to the end of a chunk the machine fetches these instructions, one behind the
other. -/
def Decodes (c : Chunk) : Nat → List Instruction → Prop
  | offset, [] => offset = c.size
  | offset, i :: rest =>
    Instruction.fetch c offset = .ok (i, offset + i.size) ∧ Decodes c (offset + i.size) rest

namespace Assembly

/-- A chunk with code added starts as it was. -/
theorem startsWith_append (c : Chunk) (code : List Line) : (append c code).StartsWith c where
  code := by simp [append]
  spans := by simp [append]
  names := prefix_rememberAll _ _

/-- Appended code that fits is fetched line by line, up to the end of the chunk. -/
theorem decodes_append {c : Chunk} {code : List Line} (h : Fits c.names.toList code) :
    Decodes (append c code) c.size (code.map Line.instruction) := by
  -- The induction runs over the lines already read, which stand between the old code and the rest.
  suffices hfrom : ∀ read rest, code = read ++ rest →
      Decodes (append c code) (c.size + size read) (rest.map Line.instruction) from
    hfrom [] code rfl
  intro read rest
  induction rest generalizing read with
  | nil =>
    intro hsplit
    rw [List.append_nil] at hsplit
    rw [List.map_nil, Decodes, size_append_chunk, hsplit]
  | cons l rest ih =>
    intro hsplit
    refine ⟨fetch_append_chunk c h hsplit, ?_⟩
    have hrest := ih (read ++ [l]) (by simp [hsplit])
    rwa [size_append, size_singleton, ← Nat.add_assoc] at hrest

end Assembly

namespace Codegen

/-- Code generation appends and does not depend on where it starts. Behind any chunk a program's
code leaves all that was there, has the length and the places of the program's code alone, and is
read as the same instructions with the same distances, counts, modes and names. -/
theorem program_relocates {p : Program} {c chunk rest fresh : Chunk}
    (h : program p c = .ok chunk rest) (hfresh : compile p = .ok fresh) :
    chunk.StartsWith c ∧ chunk.size = c.size + fresh.size ∧ chunk.spans = c.spans ++ fresh.spans ∧
      ∃ instructions, Decodes fresh 0 instructions ∧ Decodes chunk c.size instructions := by
  obtain ⟨-, hfits, rfl, -⟩ := program_eq_ok h
  obtain ⟨-, hfitsFresh, rfl⟩ := compile_eq_ok hfresh
  refine ⟨startsWith_append c _, ?_, ?_, _, decodes_append hfitsFresh, decodes_append hfits⟩
  · rw [size_append_chunk, size_append_chunk]
    exact congrArg (c.size + ·) (Nat.zero_add _).symm
  · simp [append, Chunk.empty]

/-- A loop that counts a variable down by the length of another and prints both. -/
def countdown : Program :=
  let n : Expr := .var "n" false .nowhere
  let step : Expr := .var "step" true .nowhere
  ⟨[.loop n [.assign n (.binary n .subtract (.lengthOf step .nowhere) .nowhere) .nowhere,
    .print [n, step] .nowhere] [.hello .nowhere] .nowhere], 0⟩

/-- A chunk of two bytes with one place for both, and with the names of the loop in another
order. -/
def remains : Chunk :=
  ⟨#[9, 255], #[.nowhere], #["step", "", "n", "step"]⟩

/-- Behind the remains the loop has other bytes and the same instructions. -/
theorem program_relocates_countdown : ∃ chunk rest fresh,
    program countdown remains = .ok chunk rest ∧ compile countdown = .ok fresh ∧
      chunk.code ≠ remains.code ++ fresh.code ∧ chunk.StartsWith remains ∧
      ∃ instructions, Decodes fresh 0 instructions ∧ Decodes chunk 2 instructions := by
  have hbehind : ((program countdown).run' remains).isSome = true := by decide +kernel
  have halone : (compile countdown).isOk = true := by decide +kernel
  have hbytes : ((program countdown).run' remains).map (·.code) ≠
      (compile countdown).toOption.map (remains.code ++ ·.code) := by decide +kernel
  cases hprogram : program countdown remains with
  | error e c =>
    delta EStateM.run' EStateM.run at hbehind
    rw [hprogram] at hbehind
    cases hbehind
  | ok chunk rest =>
    cases hcompile : compile countdown with
    | error e =>
      rw [hcompile] at halone
      cases halone
    | ok fresh =>
      delta EStateM.run' EStateM.run at hbytes
      rw [hprogram, hcompile] at hbytes
      obtain ⟨hstarts, -, -, hinstructions⟩ := program_relocates hprogram hcompile
      exact ⟨chunk, rest, fresh, rfl, rfl, fun h => hbytes (congrArg some h), hstarts,
        hinstructions⟩

end Codegen

end Smil
