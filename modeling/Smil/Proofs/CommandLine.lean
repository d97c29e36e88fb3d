import Smil.Console.Perform
import Smil.Proofs.Sessions
import Smil.Proofs.SizeLimits
import Smil.Proofs.Spans
import Smil.Proofs.Truncation
import Smil.Proofs.WellFormed

/-!
# The command line runs what the interpreter runs

Running a source with the interpreter and running a file from the command line go through the same
stages: the source is compiled, the inputs are bound, and the machine runs the chunk. The conclusion
of these stages is a result and the bytes that the machine has written by then. Both ways of running
are functions of it. Verbose flags only add to the second stream: a dump of the program, and log
lines, which are left out here, so that what is said about the second stream is said without flags.

Two facts make them agree. What a machine writes is the UTF-8 of a text, so reading it as text loses
nothing. And the report of an error is chosen by its cause: no stage but the binding of inputs
complains about missing inputs.
-/

namespace Smil

open Bytecode

/-! ### Stages -/

/-- The status of a completed run. -/
def Completion.status : Completion → Nat
  | finished => 0
  | exit code => code.toNat

/-- Compiling fails in reading or in generating code, or it yields what both yield. -/
theorem compile_cases (source : String) :
    (∃ e, parse source = .error e ∧ compile source = .error e) ∨
    (∃ p e, parse source = .ok p ∧ Codegen.compile p = .error e ∧ compile source = .error e) ∨
    ∃ p chunk, parse source = .ok p ∧ Codegen.compile p = .ok chunk ∧
      compile source = .ok (p, chunk) := by
  unfold compile
  cases parse source with
  | error e => exact Or.inl ⟨e, rfl, rfl⟩
  | ok p =>
    cases hchunk : Codegen.compile p with
    | error e =>
      refine Or.inr (Or.inl ⟨p, e, rfl, hchunk, ?_⟩)
      change Codegen.compile p >>= _ = _
      rw [hchunk]
      rfl
    | ok chunk =>
      refine Or.inr (Or.inr ⟨p, chunk, rfl, hchunk, ?_⟩)
      change Codegen.compile p >>= _ = _
      rw [hchunk]
      rfl

/-- The result of running a source, and the bytes that the machine has written when it ends. These
are none if the source does not compile or if inputs are missing. -/
def conclusion (budget : Nat) (source : String) (inputs : List String) :
    Option (Except Error Completion × ByteArray) :=
  match compile source with
  | .error e => some (.error e, .empty)
  | .ok (program, chunk) =>
    match (Machine.new .unlimited).bindInputs program.inputCount inputs with
    | .error e => some (.error e, .empty)
    | .ok m => (m.run budget chunk).map fun ended => (ended.1, ended.2.out.written)

/-- The interpreter keeps the output of a completed run and the error of a failed one. -/
theorem run_eq_conclusion (budget : Nat) (source : String) (inputs : List String) :
    run budget source inputs = (conclusion budget source inputs).map fun ended =>
      ended.1.map fun completion => ⟨Text.ofUtf8 ended.2, completion⟩ := by
  unfold run conclusion
  cases compile source with
  | error e => rfl
  | ok compiled =>
    dsimp only
    cases (Machine.new .unlimited).bindInputs compiled.1.inputCount inputs with
    | error e => rfl
    | ok m =>
      dsimp only
      rcases m.run budget compiled.2 with _ | ⟨e | completion, last⟩ <;> rfl

/-! ### What is written is text -/

/-- The bytes of a text are read back as the text. -/
theorem Text.fromUTF8?_toUTF8 (s : String) : String.fromUTF8? s.toUTF8 = some s :=
  dif_pos s.isValidUTF8

/-- Reading the bytes of a text never replaces anything. -/
theorem Text.ofUtf8_toUTF8 (s : String) : ofUtf8 s.toUTF8 = s := by
  unfold ofUtf8
  rw [fromUTF8?_toUTF8]

namespace Machine

/-- Binding inputs fails if there are too few, and otherwise binds all of them. -/
theorem bindInputs_cases (required : Nat) (inputs : List String) (m : Machine) :
    m.bindInputs required inputs = .error (.unplaced (.missingInputs required inputs.length)) ∨
      m.bindInputs required inputs = .ok (m.bindFrom 0 inputs) := by
  unfold bindInputs
  by_cases h : inputs.length < required
  · exact Or.inl (if_pos h)
  · exact Or.inr (if_neg h)

/-- Binding inputs writes nothing. -/
theorem out_bindFrom (index : Nat) (inputs : List String) (m : Machine) :
    (m.bindFrom index inputs).out = m.out := by
  induction inputs generalizing index m with
  | nil => rfl
  | cons arg inputs ih =>
    rw [bindFrom_cons, ih]
    rfl

/-- On a sink that takes everything a run adds a text. -/
theorem exists_text_of_run {m last : Machine} {chunk : Chunk} {budget : Nat}
    {result : Except Error Completion} (hroom : m.out.room = none)
    (h : m.run budget chunk = some (result, last)) :
    ∃ text : String, last.out.written = m.out.written ++ text.toUTF8 := by
  unfold Machine.run at h
  split at h
  · rename_i ended last' hrun
    cases h
    have hstart : { m with operands := [] }.out.room = none := hroom
    obtain ⟨text, htext⟩ := exists_endsOnSink hstart hrun
    refine ⟨text, ?_⟩
    rw [EndsOnSink.out_eq hstart hrun (htext _)]
  · cases h

end Machine

/-- What has been written when a run concludes is a text. -/
theorem exists_text_of_conclusion {budget : Nat} {source : String} {inputs : List String}
    {result : Except Error Completion} {bytes : ByteArray}
    (h : conclusion budget source inputs = some (result, bytes)) :
    ∃ text : String, bytes = text.toUTF8 := by
  have hempty : ByteArray.empty = "".toUTF8 := by simp
  unfold conclusion at h
  split at h
  · cases h
    exact ⟨"", hempty⟩
  · rename_i program chunk _
    rcases Machine.bindInputs_cases program.inputCount inputs (.new .unlimited) with hbind | hbind
    · rw [hbind] at h
      cases h
      exact ⟨"", hempty⟩
    · rw [hbind] at h
      obtain ⟨⟨ended, last⟩, hrun, heq⟩ := Option.map_eq_some_iff.mp h
      cases heq
      have hout := Machine.out_bindFrom 0 inputs (.new .unlimited)
      obtain ⟨text, htext⟩ := Machine.exists_text_of_run (by rw [hout]; rfl) hrun
      refine ⟨text, htext.trans ?_⟩
      rw [hout]
      exact ByteArray.empty_append

/-- The interpreter gives the text that the machine has written. -/
theorem conclusion_of_completed {budget : Nat} {source : String} {inputs : List String}
    {execution : Execution} (h : run budget source inputs = some (.ok execution)) :
    conclusion budget source inputs =
      some (.ok execution.completion, execution.output.toUTF8) := by
  rw [run_eq_conclusion] at h
  obtain ⟨⟨result, bytes⟩, hconclusion, hmap⟩ := Option.map_eq_some_iff.mp h
  obtain ⟨text, rfl⟩ := exists_text_of_conclusion hconclusion
  cases result with
  | error e => cases hmap
  | ok completion =>
    cases hmap
    rw [Text.ofUtf8_toUTF8]
    exact hconclusion

/-- A failing run has written a text too, which the interpreter drops. -/
theorem conclusion_of_failed {budget : Nat} {source : String} {inputs : List String} {e : Error}
    (h : run budget source inputs = some (.error e)) :
    ∃ out : String, conclusion budget source inputs = some (.error e, out.toUTF8) := by
  rw [run_eq_conclusion] at h
  obtain ⟨⟨result, bytes⟩, hconclusion, hmap⟩ := Option.map_eq_some_iff.mp h
  obtain ⟨text, rfl⟩ := exists_text_of_conclusion hconclusion
  cases result with
  | error e' =>
    cases hmap
    exact ⟨text, hconclusion⟩
  | ok completion => cases hmap

/-! ### Who complains about missing inputs -/

/-- What a step reports is never a complaint about missing inputs. -/
theorem Cause.Reported.category_ne {cause : Cause} (h : cause.Reported) :
    cause.category ≠ .missingInput := by
  rcases h with hraised | ⟨f, -, rfl⟩
  · cases cause with
    | missingInputs expected got => cases hraised
    | _ => simp [category]
  · simp [Fault.cause, category]

namespace Machine

/-- An error of a run is one that a step reports. -/
theorem Intact.reported_of_runFrom {m last : Machine} {chunk : Chunk} {budget ip : Nat} {e : Error}
    (hm : m.Intact) (h : runFrom chunk budget ip m = some (.error e, last)) : e.cause.Reported := by
  induction budget generalizing ip m with
  | zero => cases h
  | succ budget ih =>
    have hleaves := hm.step chunk ip
    rw [runFrom] at h
    split at h
    · rename_i hstep
      rw [hstep] at hleaves
      exact ih hleaves h
    · cases h
    · rename_i hstep
      rw [hstep] at hleaves
      cases h
      exact hleaves.2

/-- An error of a run, or of the flush behind it, is one that a step can report. -/
theorem Intact.reported_of_run {m last : Machine} {chunk : Chunk} {budget : Nat} {e : Error}
    (hm : m.Intact) (h : m.run budget chunk = some (.error e, last)) : e.cause.Reported := by
  unfold Machine.run at h
  split at h
  · rename_i ended last' hrun
    obtain ⟨hflushed, rfl⟩ := Prod.mk.inj (Option.some.inj h)
    cases ended with
    | error e' =>
      cases hflushed
      exact hm.start.reported_of_runFrom hrun
    | ok completion =>
      cases hflush : last'.out.flushFails with
      | false => simp [flushed, hflush] at hflushed
      | true =>
        simp only [flushed, hflush, if_true, Except.error.injEq] at hflushed
        subst hflushed
        exact Or.inl rfl
  · cases h

end Machine

/-- Compiling does not complain about inputs. -/
theorem category_of_compile {source : String} {e : Error} (h : compile source = .error e) :
    e.cause.category ≠ .missingInput := by
  rcases compile_cases source with ⟨e', hparse, hcompile⟩ | ⟨p, e', hparse, hgenerate, hcompile⟩ |
    ⟨p, chunk, -, -, hcompile⟩
  · cases h.symm.trans hcompile
    obtain ⟨cause, span, rfl, -, hcategory | hcategory⟩ := reported_of_parse hparse
    · simp [Error.placed, hcategory]
    · simp [Error.placed, hcategory]
  · cases h.symm.trans hcompile
    rcases Codegen.compile_of_executable (executable_of_parse hparse) with ⟨-, hok⟩ |
      ⟨-, limit, span, herror⟩
    · cases hgenerate.symm.trans hok
    · cases hgenerate.symm.trans herror
      simp [Error.placed, Cause.category]
  · cases h.symm.trans hcompile

namespace Console

/-! ### Arguments -/

/-- The flags of a verbose run. -/
def IsFlag (arg : String) : Prop :=
  arg = "-v" ∨ arg = "--verbose"

variable {flags : List String} {path : String}

/-- Flags make a run verbose, and the first argument that is none is the path. -/
theorem RunOptions.ofArgs?_append (hflags : ∀ arg ∈ flags, IsFlag arg) (hpath : ¬ IsFlag path)
    (verbose : Bool) (inputs : List String) :
    RunOptions.ofArgs? verbose (flags ++ path :: inputs) =
      some ⟨verbose || !flags.isEmpty, path, inputs⟩ := by
  induction flags generalizing verbose with
  | nil =>
    have hpath' : (path = "-v" || path = "--verbose") = false := by simpa [IsFlag] using hpath
    simp [RunOptions.ofArgs?, hpath']
  | cons flag flags ih =>
    obtain ⟨hflag, hrest⟩ := List.forall_mem_cons.mp hflags
    have hflag' : (flag = "-v" || flag = "--verbose") = true := by simpa [IsFlag] using hflag
    simp [RunOptions.ofArgs?, hflag', ih hrest]

/-- Behind the word for running stand flags, the path and the inputs. -/
theorem Command.ofArgs_run (hflags : ∀ arg ∈ flags, IsFlag arg) (hpath : ¬ IsFlag path)
    (inputs : List String) :
    Command.ofArgs ("run" :: (flags ++ path :: inputs)) =
      .run ⟨!flags.isEmpty, path, inputs⟩ := by
  simp [Command.ofArgs, RunOptions.ofArgs?_append hflags hpath]

/-! ### Outcomes -/

/-- What a verbose run shows of a source that compiles, before the program runs. -/
def trace (colour verbose : Bool) (path source : String) : String :=
  match compile source with
  | .error _ => ""
  | .ok (program, chunk) => if verbose then dump colour path program chunk else ""

/-- How an error is shown: with the line of the source that it points at, and missing inputs, which
point nowhere, as an error of the command line. -/
def report (colour : Bool) (source : String) (e : Error) : String :=
  if e.cause.category = .missingInput then errorLine colour e.cause.message
  else (e.withSource source).render ++ "\n"

/-- The outcome of a run with this conclusion. -/
def Outcome.ofConclusion (colour : Bool) (source shown : String) :
    Except Error Completion × ByteArray → Outcome
  | (.ok completion, bytes) => ⟨completion.status, Text.ofUtf8 bytes, shown⟩
  | (.error e, bytes) => ⟨1, Text.ofUtf8 bytes, shown ++ report colour source e⟩

/-- An error that is not about inputs is shown with its line. -/
theorem report_of_category {e : Error} (h : e.cause.category ≠ .missingInput) (colour : Bool)
    (source : String) : report colour source e = (e.withSource source).render ++ "\n" :=
  if_neg h

/-- A program that is compiled runs to its conclusion. -/
theorem runCompiled_eq {source : String} {program : Program} {chunk : Chunk}
    (hcompile : compile source = .ok (program, chunk)) (colour : Bool) (budget : Nat)
    (inputs : List String) (shown : String) :
    runCompiled colour budget source inputs program chunk shown =
      (conclusion budget source inputs).map (Outcome.ofConclusion colour source shown) := by
  unfold runCompiled conclusion
  rw [hcompile]
  dsimp only
  rcases Machine.bindInputs_cases program.inputCount inputs (.new .unlimited) with hbind | hbind
  · rw [hbind]
    rfl
  · rw [hbind]
    dsimp only
    rcases hrun : (Machine.bindFrom 0 inputs (.new .unlimited)).run budget chunk with
      _ | ⟨e | _ | code, last⟩
    · rfl
    · -- the report goes by the cause, and no step of an intact machine complains about inputs
      have hintact := (Machine.intact_new .unlimited).bindFrom 0 inputs
      have hreport := report_of_category (hintact.reported_of_run hrun).category_ne colour source
      simp only [Option.map_some, Outcome.ofConclusion, hreport, String.append_assoc]
      rfl
    · rfl
    · rfl

/-- A source runs to its conclusion. -/
theorem runSource_eq (colour : Bool) (budget : Nat) (options : RunOptions) (source : String) :
    runSource colour budget options source =
      (conclusion budget source options.inputs).map (Outcome.ofConclusion colour source
        (trace colour options.verbose options.path source)) := by
  unfold runSource
  cases hcompile : compile source with
  | error e =>
    have hreport := report_of_category (category_of_compile hcompile) colour source
    simp only [conclusion, trace, hcompile, Option.map_some, Outcome.ofConclusion, hreport]
    rfl
  | ok compiled =>
    simp only [trace, hcompile]
    exact runCompiled_eq hcompile colour budget options.inputs _

/-- A file that holds the bytes of a text is decoded to the text. -/
theorem decode_toUTF8 (s : String) : decode (.ok s.toUTF8) = .ok s := by
  simp only [decode, bind, Except.bind]
  rw [Text.fromUTF8?_toUTF8]
  rfl

/-- The outcome of running a file with flags in front of its path. -/
def performRun (colour : Bool) (budget : Nat) (read : String → Except ReadFault ByteArray)
    (stdin : String) (flags : List String) (path : String) (inputs : List String) :
    Option Outcome :=
  perform colour budget read stdin (Command.ofArgs ("run" :: (flags ++ path :: inputs)))

/-- Running a file leads to the conclusion of its source. -/
theorem performRun_eq {read : String → Except ReadFault ByteArray} {source : String}
    (hread : read path = .ok source.toUTF8) (hpath : ¬ IsFlag path)
    (hflags : ∀ arg ∈ flags, IsFlag arg) (colour : Bool) (budget : Nat) (stdin : String)
    (inputs : List String) :
    performRun colour budget read stdin flags path inputs =
      (conclusion budget source inputs).map
        (Outcome.ofConclusion colour source (trace colour (!flags.isEmpty) path source)) := by
  unfold performRun
  rw [Command.ofArgs_run hflags hpath]
  change runFile colour budget _ (read path) = _
  rw [hread, runFile, decode_toUTF8]
  exact runSource_eq colour budget _ source

/-- What can be seen of an outcome without looking at the second stream. -/
def Outcome.visible (outcome : Outcome) : Nat × String :=
  (outcome.status, outcome.out)

/-- What is shown of the program is not visible on the first stream. -/
theorem visible_ofConclusion (colour : Bool) (source shown shown' : String) :
    Outcome.visible ∘ Outcome.ofConclusion colour source shown =
      Outcome.visible ∘ Outcome.ofConclusion colour source shown' := by
  funext ended
  rcases ended with ⟨e | completion, bytes⟩ <;> rfl

/-- Without flags nothing is shown of the program. -/
theorem trace_false (colour : Bool) (path source : String) :
    trace colour false path source = "" := by
  unfold trace
  cases compile source <;> rfl

/-- Without flags the second stream has nothing but the report of an error. -/
theorem performRun_nil_eq {read : String → Except ReadFault ByteArray} {source : String}
    (hread : read path = .ok source.toUTF8) (hpath : ¬ IsFlag path) (colour : Bool) (budget : Nat)
    (stdin : String) (inputs : List String) :
    performRun colour budget read stdin [] path inputs =
      (conclusion budget source inputs).map (Outcome.ofConclusion colour source "") := by
  have hperform := performRun_eq hread hpath (List.forall_mem_nil IsFlag) colour budget stdin inputs
  rwa [List.isEmpty_nil, Bool.not_true, trace_false] at hperform

/-- The dump of a program has its statements and its listing, which every program that compiles
has. -/
theorem dump_of_compile {source : String} {program : Program} {chunk : Chunk}
    (h : compile source = .ok (program, chunk)) (path : String) :
    ∃ listing, chunk.listing? path = some listing ∧ dump false path program chunk =
      unlines ("=== Program ===" :: program.statements.map Expr.display ++
        [listing, "=== Output ==="]) := by
  have hchunk : Codegen.compile program = .ok chunk := by
    rcases compile_cases source with ⟨e, -, hcompile⟩ | ⟨p, e, -, -, hcompile⟩ |
      ⟨p, c, -, hgenerate, hcompile⟩
    · cases h.symm.trans hcompile
    · cases h.symm.trans hcompile
    · cases h.symm.trans hcompile
      exact hgenerate
  obtain ⟨lines, hlisted, -⟩ := (Codegen.wellFormed_of_compile hchunk).lines
  have hsome : (chunk.listing? path).isSome = true := hlisted.isSome_listFrom? _ _
  obtain ⟨listing, hlisting⟩ := Option.isSome_iff_exists.mp hsome
  refine ⟨listing, hlisting, ?_⟩
  simp only [dump, hlisting]
  rfl

/-- Running a file from the command line agrees with the interpreter. Whatever flags stand in front
of the path, a completed run has the output of the interpreter on the first stream and the status of
its completion, and a failed run has status 1 and on the first stream what the machine has written
before the error. Other flags change neither of the two. Without flags the second stream has nothing
after a completed run, and the report of the error after a failed one, here without colour. The dump
that flags ask for never fails: a program that compiles has a listing. -/
theorem performRun_agrees {read : String → Except ReadFault ByteArray} {path source : String}
    {flags : List String} (hread : read path = .ok source.toUTF8) (hpath : ¬ IsFlag path)
    (hflags : ∀ arg ∈ flags, IsFlag arg) (colour : Bool) (budget : Nat) (stdin : String)
    (inputs : List String) :
    (run budget source inputs = none →
      performRun colour budget read stdin flags path inputs = none) ∧
    (∀ execution, run budget source inputs = some (.ok execution) →
      (performRun colour budget read stdin flags path inputs).map Outcome.visible =
        some (execution.completion.status, execution.output) ∧
      performRun colour budget read stdin [] path inputs =
        some ⟨execution.completion.status, execution.output, ""⟩) ∧
    (∀ e, run budget source inputs = some (.error e) → ∃ out : String,
      conclusion budget source inputs = some (.error e, out.toUTF8) ∧
      (performRun colour budget read stdin flags path inputs).map Outcome.visible =
        some (1, out) ∧
      performRun false budget read stdin [] path inputs =
        some ⟨1, out, report false source e⟩) ∧
    (∀ others, (∀ arg ∈ others, IsFlag arg) →
      (performRun colour budget read stdin others path inputs).map Outcome.visible =
        (performRun colour budget read stdin flags path inputs).map Outcome.visible) ∧
    ∀ program chunk, compile source = .ok (program, chunk) → ∃ listing,
      chunk.listing? path = some listing ∧ dump false path program chunk =
        unlines ("=== Program ===" :: program.statements.map Expr.display ++
          [listing, "=== Output ==="]) := by
  have hperform := performRun_eq hread hpath hflags colour budget stdin inputs
  refine ⟨?_, ?_, ?_, ?_, fun program chunk h => dump_of_compile h path⟩
  · intro hrun
    rw [run_eq_conclusion, Option.map_eq_none_iff] at hrun
    rw [hperform, hrun]
    rfl
  · intro execution hrun
    rw [hperform, performRun_nil_eq hread hpath, conclusion_of_completed hrun]
    simp only [Option.map_some, Outcome.ofConclusion, Outcome.visible, Text.ofUtf8_toUTF8,
      and_self]
  · intro e hrun
    obtain ⟨out, hconclusion⟩ := conclusion_of_failed hrun
    refine ⟨out, hconclusion, ?_⟩
    rw [hperform, performRun_nil_eq hread hpath, hconclusion]
    simp only [Option.map_some, Outcome.ofConclusion, Outcome.visible, Text.ofUtf8_toUTF8,
      String.empty_append, and_self]
  · intro others hothers
    rw [hperform, performRun_eq hread hpath hothers, Option.map_map, Option.map_map,
      visible_ofConclusion colour source _ (trace colour (!flags.isEmpty) path source)]

/-- Prints its input and then divides it by zero. -/
def dividesByZero : String :=
  ":P :$ :D\n:(x:) := :$ :/ :(z:)"

/-- A reader of files that finds this program under any path. -/
def readsDividesByZero (_ : String) : Except ReadFault ByteArray :=
  .ok dividesByZero.toUTF8

/-- The line that is printed before the error is on the first stream, with flags and without. -/
theorem performRun_dividesByZero :
    run 20 dividesByZero ["7"] = some (.error (.placed .divisionByZero ⟨21, 23, 2, 13⟩)) ∧
    performRun false 20 readsDividesByZero "" [] "a.smil" ["7"] = some ⟨1, "7\n",
      "(2:13): division by zero\n  | :(x:) := :$ :/ :(z:)\n  |             ^\n"⟩ ∧
    (performRun false 20 readsDividesByZero "" ["-v", "--verbose"] "a.smil" ["7"]).map
      Outcome.visible = some (1, "7\n") := by
  have hrun : run 20 dividesByZero ["7"] =
      some (.error (.placed .divisionByZero ⟨21, 23, 2, 13⟩)) := by decide +kernel
  have hwritten : conclusion 20 dividesByZero ["7"] =
      some (.error (.placed .divisionByZero ⟨21, 23, 2, 13⟩), "7\n".toUTF8) := by decide +kernel
  have hreport : report false dividesByZero (.placed .divisionByZero ⟨21, 23, 2, 13⟩) =
      "(2:13): division by zero\n  | :(x:) := :$ :/ :(z:)\n  |             ^\n" := by decide +kernel
  have hflags : ∀ arg ∈ ["-v", "--verbose"], IsFlag arg := by simp [IsFlag]
  obtain ⟨-, -, hfailed, -, -⟩ :=
    performRun_agrees (rfl : readsDividesByZero "a.smil" = .ok dividesByZero.toUTF8)
      (by simp [IsFlag]) hflags false 20 "" ["7"]
  obtain ⟨out, hout, hvisible, hplain⟩ := hfailed _ hrun
  have htext : out = "7\n" := by
    have hbytes := (Prod.mk.inj (Option.some.inj (hout.symm.trans hwritten))).2
    exact String.toByteArray_inj.mp hbytes
  rw [htext] at hvisible hplain
  rw [hreport] at hplain
  exact ⟨hrun, hplain, hvisible⟩

end Console

end Smil
