import Smil.Proofs.CommandLine
import Smil.Proofs.Failures
import Smil.Proofs.Lines

/-!
# The caret of an error stands under the offending character

Every error with a place has the place of a token or of a node, whichever stage it comes from: the
reader fails at a token or at a node, the generator at a line of the code, the machine at the line
that it carries out, and lines have the places of nodes. Such a place is at the end of the source or
at a character that is no white space. The line that is shown with the error is the line of this
character, and the column is where the line has it.
-/

namespace Smil

open Bytecode Codegen

/-! ### Errors have places of the source -/

variable {source : String} {p : Program} {e : Error} {span : Span}

/-- The lines of a program with statements have places of its source. -/
theorem points_of_line {l : Line} (h : parse source = .ok p) (hne : p.statements ≠ [])
    (hl : l ∈ programCode p) : l.span.Points source := by
  obtain ⟨stmt, hstmt, x, hx, hspan⟩ := placedBy_programCode (executable_of_parse h) hne l hl
  obtain ⟨s, -, hmarks⟩ := located_of_parse h stmt hstmt x hx
  rw [← hspan]
  exact hmarks.points

/-- An error from compiling has a place of the source. -/
theorem points_of_compile (h : compile source = .error e) (hspan : e.span = some span) :
    span.Points source := by
  rcases compile_cases source with ⟨e', hparse, hcompile⟩ | ⟨p, e', hparse, hgenerate, hcompile⟩ |
    ⟨p, chunk, -, -, hcompile⟩
  · cases h.symm.trans hcompile
    obtain ⟨cause, span', rfl, hpoints, -⟩ := reported_of_parse hparse
    cases hspan
    exact hpoints
  · cases h.symm.trans hcompile
    -- without statements the code is one line that always fits
    have hne : p.statements ≠ [] := by
      intro hempty
      obtain ⟨statements, inputCount⟩ := p
      subst hempty
      cases hgenerate
    obtain ⟨l, hl, hplace⟩ := exists_line_of_compile_error (executable_of_parse hparse) hgenerate
    cases hspan.symm.trans hplace
    exact points_of_line hparse hne hl
  · cases h.symm.trans hcompile

/-- A run that fails at a place has carried out a line of a program with statements there: the only
line of a program without them ends the run. -/
theorem exists_line_of_run_error {chunk : Chunk} {m last : Machine} {budget : Nat}
    (hchunk : Codegen.compile p = .ok chunk) (h : m.run budget chunk = some (.error e, last))
    (hspan : e.span = some span) :
    p.statements ≠ [] ∧ ∃ l ∈ programCode p, l.span = span := by
  obtain ⟨ip, before, hsteps, ⟨hstep, hplace⟩ | ⟨-, rfl⟩⟩ := Machine.exists_last_step_of_run h
  swap
  · cases hspan
  have hmem : span ∈ chunk.spans := Array.mem_of_getElem? (hplace.symm.trans hspan)
  refine ⟨?_, exists_line_of_mem_spans hchunk hmem⟩
  intro hempty
  have hholds := holds_of_compile hchunk
  rw [programCode, hempty] at hholds
  have hstops := Machine.step_of_holds hholds { m with operands := [] }
  rcases hsteps.cases_head with hsame | ⟨next, hfirst, -⟩
  · cases hsame
    cases hstep.symm.trans hstops
  · cases Eq.trans (Eq.symm hfirst) hstops

/-- An error from running has a place of the source, if it has a place at all: missing inputs and
output that cannot be flushed have none. -/
theorem points_of_run {budget : Nat} {inputs : List String}
    (h : run budget source inputs = some (.error e)) (hspan : e.span = some span) :
    span.Points source := by
  have hcompiling : ∀ e', compile source = .error e' → span.Points source := by
    intro e' hcompile
    simp only [run, hcompile] at h
    cases h
    exact points_of_compile hcompile hspan
  rcases compile_cases source with ⟨e', -, hcompile⟩ | ⟨p, e', -, -, hcompile⟩ |
    ⟨p, chunk, hparse, hchunk, hcompile⟩
  · exact hcompiling e' hcompile
  · exact hcompiling e' hcompile
  · rcases Machine.bindInputs_cases p.inputCount inputs (.new .unlimited) with hbind | hbind
    · simp only [run, hcompile, hbind] at h
      cases h
      cases hspan
    · simp only [run, hcompile, hbind] at h
      split at h
      · cases h
      · rename_i e' last hrun
        cases h
        obtain ⟨hne, l, hl, rfl⟩ := exists_line_of_run_error hchunk hrun hspan
        exact points_of_line hparse hne hl
      · cases h

/-! ### Carets -/

/-- A character stands in a text at an offset in bytes. -/
def Text.HasAt (text : String) (offset : Nat) (ch : Char) : Prop :=
  ∃ before after : String, text = before.push ch ++ after ∧ offset = before.utf8ByteSize

namespace Span.Points

/-- A span that points into a source has a line, a column and a start in it. -/
theorem bounds (h : span.Points source) :
    1 ≤ span.line ∧ 1 ≤ span.column ∧ span.start ≤ source.utf8ByteSize := by
  obtain ⟨before, after, rfl, hstart, hline, hcolumn, -⟩ := h
  rw [String.utf8ByteSize_append]
  omega

/-- Before the end of the source, the line with the number of the span is the line that contains its
start, and has the character there in the column of the span. -/
theorem exists_caret (h : span.Points source) (hstart : span.start < source.utf8ByteSize) :
    ∃ before line after ch, (Text.lines source)[span.line - 1]? = some line ∧
      Text.IsLine source before line after ∧ before.utf8ByteSize ≤ span.start ∧
      span.start < (before ++ line).utf8ByteSize ∧ Text.HasAt source span.start ch ∧
      line.toList[span.column - 1]? = some ch := by
  obtain ⟨front, back, rfl, hoffset, hline, hcolumn, hvisible⟩ := h
  cases hback : back.toList with
  | nil =>
    rw [String.toList_eq_nil_iff.mp hback] at hstart
    simp [hoffset] at hstart
  | cons ch chs =>
    obtain ⟨before, left, right, after, rfl, hleft, hfound, hisLine⟩ :=
      Text.exists_line front hback (hvisible ch (by simp [hback]))
    refine ⟨before, left.push ch ++ right, after, ch, ?_, hisLine, ?_, ?_, ?_, ?_⟩
    · rwa [hline, Nat.add_sub_cancel_left]
    · simp [hoffset]
    · have hsize := ch.utf8Size_pos
      simp only [hoffset, String.utf8ByteSize_append, String.utf8ByteSize_push]
      omega
    · refine ⟨before ++ left, String.ofList chs, ?_, hoffset⟩
      apply String.toList_inj.mp
      simp [hback]
    · rw [hcolumn, Nat.add_sub_cancel_left, ← hleft]
      simp

/-- At the end of the source the column is behind the last character of its last line. This line has
the number of the span, and if it is empty no line has. -/
theorem exists_caret_at_end (h : span.Points source) (hstart : span.start = source.utf8ByteSize) :
    ∃ before line, Text.IsLine source before line "" ∧ span.column = line.length + 1 ∧
      (Text.lines source)[span.line - 1]? = if line = "" then none else some line := by
  obtain ⟨front, back, rfl, hoffset, hline, hcolumn, -⟩ := h
  have hback : back = "" := by
    rw [String.utf8ByteSize_append] at hstart
    exact String.utf8ByteSize_eq_zero_iff.mp (by omega)
  subst hback
  rw [String.append_empty]
  obtain ⟨before, line, hisLine, hchars, hfound⟩ := Text.exists_line_at_end front
  refine ⟨before, line, hisLine, ?_, ?_⟩
  · rw [hcolumn, ← hchars, String.length_toList, Nat.add_comm]
  · rwa [hline, Nat.add_sub_cancel_left]

end Span.Points

/-- With a source the error shows the line that has the number of its place. -/
theorem Error.withSource_eq (hspan : e.span = some span) (hline : span.line ≠ 0) :
    e.withSource source = ⟨e.cause, some span, (Text.lines source)[span.line - 1]?⟩ := by
  simp only [withSource, hspan, if_neg hline]

/-- A line that is attached is shown behind the error, with a caret below the column. -/
theorem Error.render_some (cause : Cause) (span : Span) (line : String) :
    render ⟨cause, some span, some line⟩ =
      (placed cause span).render ++ excerpt line span.column := by
  simp [render, placed]

/-- The caret of an error points at the offending character. Every error with a place, from
compiling or from running a source, has a line and a column from one on. If its place is before the
end of the source, the line that the source attaches to it is the line that contains the first byte
of the place, and it has the source's character there right above the caret. If the place is the end
of the source, the caret is right behind the last line, which is not attached if it is empty. -/
theorem caret_of_error {source : String} {e : Error} {span : Span}
    (h : compile source = .error e ∨ ∃ budget inputs, run budget source inputs = some (.error e))
    (hspan : e.span = some span) :
    1 ≤ span.line ∧ 1 ≤ span.column ∧ span.start ≤ source.utf8ByteSize ∧
    (span.start < source.utf8ByteSize → ∃ before line after ch,
      (e.withSource source).sourceLine = some line ∧ Text.IsLine source before line after ∧
      before.utf8ByteSize ≤ span.start ∧ span.start < (before ++ line).utf8ByteSize ∧
      Text.HasAt source span.start ch ∧ line.toList[span.column - 1]? = some ch ∧
      (e.withSource source).render =
        (Error.placed e.cause span).render ++ Error.excerpt line span.column) ∧
    (span.start = source.utf8ByteSize → ∃ before line, Text.IsLine source before line "" ∧
      span.column = line.length + 1 ∧
      (e.withSource source).sourceLine = if line = "" then none else some line) := by
  have hpoints : span.Points source := by
    rcases h with hcompile | ⟨budget, inputs, hrun⟩
    · exact points_of_compile hcompile hspan
    · exact points_of_run hrun hspan
  obtain ⟨hline, hcolumn, hwithin⟩ := hpoints.bounds
  have hattached : e.withSource source =
      ⟨e.cause, some span, (Text.lines source)[span.line - 1]?⟩ :=
    Error.withSource_eq hspan (by omega)
  refine ⟨hline, hcolumn, hwithin, ?_, ?_⟩
  · intro hbefore
    obtain ⟨before, line, after, ch, hfound, hisLine, hle, hlt, hchar, habove⟩ :=
      hpoints.exists_caret hbefore
    rw [hattached, hfound]
    exact ⟨before, line, after, ch, rfl, hisLine, hle, hlt, hchar, habove,
      Error.render_some e.cause span line⟩
  · intro hend
    rw [hattached]
    exact hpoints.exists_caret_at_end hend

/-- A comment, and a division by zero on the second of three lines. The lines end in a carriage
return and a newline, and some of the characters take several bytes. -/
def dividesOnSecondLine : String :=
  ":# größe\r\n:(ü:) := :$ :/ :(ß:)\r\n:|"

/-- The line is shown without its carriage return, and the caret stands below the operator. -/
theorem caret_dividesOnSecondLine :
    run 20 dividesOnSecondLine ["7"] =
      some (.error (.placed .divisionByZero ⟨25, 27, 2, 13⟩)) ∧
    ∃ before after, Text.IsLine dividesOnSecondLine before ":(ü:) := :$ :/ :(ß:)" after ∧
      before.utf8ByteSize ≤ 25 ∧ Text.HasAt dividesOnSecondLine 25 ':' ∧
      (Error.withSource (.placed .divisionByZero ⟨25, 27, 2, 13⟩) dividesOnSecondLine).render =
        "(2:13): division by zero\n  | :(ü:) := :$ :/ :(ß:)\n  |             ^" := by
  have hrun : run 20 dividesOnSecondLine ["7"] =
      some (.error (.placed .divisionByZero ⟨25, 27, 2, 13⟩)) := by decide +kernel
  have hshown : (Error.withSource (.placed .divisionByZero ⟨25, 27, 2, 13⟩)
      dividesOnSecondLine).sourceLine = some ":(ü:) := :$ :/ :(ß:)" := by decide +kernel
  obtain ⟨-, -, -, hcaret, -⟩ := caret_of_error (Or.inr ⟨20, ["7"], hrun⟩) rfl
  obtain ⟨before, line, after, ch, hline, hisLine, hle, -, hchar, habove, hrender⟩ :=
    hcaret (by decide +kernel)
  cases hshown.symm.trans hline
  obtain rfl : ':' = ch := Option.some.inj habove
  refine ⟨hrun, before, after, hisLine, hle, hchar, hrender.trans ?_⟩
  decide +kernel

end Smil
