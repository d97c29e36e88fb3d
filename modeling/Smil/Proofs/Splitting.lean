import Smil.Proofs.Change
import Smil.Proofs.Contents
import Smil.Proofs.OperandDiscipline

/-!
# Programs in two parts

A program can be run in two parts, one after the other on the same machine. The chunk of the whole
program has the statements of each part at another offset, with other indices of names, and nothing
that finishes between the parts. The machine still does the same step by step, since jumps are
relative and a part only jumps within itself or to its end.

What the chunk of a part does determines what a chunk that holds the part somewhere does: it ends in
the same way, or it goes on behind the part where the part's own chunk finishes, or neither of them
is done.
-/

namespace Smil

open Bytecode

namespace Machine

open Assembly Codegen

/-! ### Instructions at another offset -/

/-- The same result of a step, but going on further behind by a distance. -/
def movedBy (distance : Nat) :
    EStateM.Result Cause Machine Progress → EStateM.Result Cause Machine Progress
  | .ok (.goto ip) m => .ok (.goto (distance + ip)) m
  | r => r

/-- Two actions that differ only in where the run goes on. -/
def Moves (distance : Nat) (x y : Action Progress) : Prop :=
  ∀ m, y m = movedBy distance (x m)

variable {distance : Nat}

/-- Going on somewhere is going on as far away. -/
theorem Moves.goto (ip : Nat) :
    Moves distance (pure (.goto ip)) (pure (.goto (distance + ip))) :=
  fun _ => rfl

/-- What comes before makes no difference. -/
theorem Moves.bind {α : Type} (x : Action α) {f g : α → Action Progress}
    (h : ∀ a, Moves distance (f a) (g a)) : Moves distance (x >>= f) (x >>= g) := by
  intro m
  cases hx : x m with
  | ok a m' =>
    rw [bind_of_ok hx, bind_of_ok hx]
    exact h a m'
  | error cause m' =>
    rw [bind_of_error hx, bind_of_error hx]
    rfl

/-- An instruction does the same wherever it stands and goes on relative to that, unless it jumps
back before the first byte. -/
theorem execute_moves (distance : Nat) {i : Instruction} {next : Nat}
    (hback : ∀ far, i = .loop far → far ≤ next) :
    Moves distance (execute i next) (execute i (distance + next)) := by
  cases i with
  | load _ | assign _ | binary _ | print _ | helloWorld | stackClear | pop =>
    exact .bind _ fun _ => .goto next
  | loadNamed | hello | stackPush | stackPop _ =>
    exact .bind _ fun _ => .bind _ fun _ => .goto next
  | length | stackPopNamed =>
    exact .bind _ fun _ => .bind _ fun _ => .bind _ fun _ => .goto next
  | jumpIfNotPositive far =>
    refine .bind _ fun _ => .bind _ fun v => ?_
    by_cases hv : v.toInteger ≤ 0
    · simp only [if_pos hv, Nat.add_assoc]
      exact .goto _
    · simp only [if_neg hv]
      exact .goto _
  | loop far =>
    have hfar := hback far rfl
    intro m
    simp only [execute, if_pos hfar, if_pos (Nat.le_add_left_of_le hfar),
      Nat.add_sub_assoc hfar distance]
    rfl
  | exit _ | finish => exact fun _ => rfl

/-- An instruction of a statement that ends the run is an exit. -/
theorem exit_of_stop {i : Instruction} {next : Nat} {m m' : Machine} {c : Completion}
    (hi : i.Inner) (hv : m.Valid) (hpops : i.pops ≤ m.operands.length)
    (hback : ∀ far, i = .loop far → far ≤ next) (h : execute i next m = .ok (.stop c) m') :
    ∃ code, c = .exit code := by
  have houtcome := execute_outcome hv hpops hback
  rw [h] at houtcome
  have htargets : i.targets next = [] := houtcome.1
  cases i with
  | exit code =>
    cases h
    exact ⟨code, rfl⟩
  | finish => cases hi
  | _ => cases htargets

/-! ### A part at another offset -/

section Parts

variable {p : Program} {own other : Chunk} {start ip budget : Nat} {m : Machine}

/-- What a chunk that holds the statements of a program does from their start on, given the outcome
of a run of the program's own chunk. The statements end at `stop`. -/
def Continues (other : Chunk) (budget start stop : Nat) (m : Machine) :
    Option (Except Error Completion × Machine) → Prop
  | none => runFrom other budget start m = none
  | some (.ok .finished, last) => Steps other (start, m) (stop, last)
  | some r => runFrom other budget start m = some r

/-- A step in front. -/
theorem Continues.of_step {start' stop : Nat} {m' : Machine}
    {r : Option (Except Error Completion × Machine)} (hstep : Step other (start, m) (start', m'))
    (h : Continues other budget start' stop m' r) :
    Continues other (budget + 1) start stop m r := by
  have hrun := hstep.runFrom budget
  rcases r with _ | ⟨_ | _ | code, last⟩
  · exact hrun.trans h
  · exact hrun.trans h
  · exact Relation.ReflTransGen.head hstep h
  · exact hrun.trans h

/-- A line of the code of a program is its last one or one of its statements' lines. -/
theorem split_programCode {before after : List Line} {l : Line}
    (h : programCode p = before ++ l :: after) :
    (before = statementsCode p.inputCount p.statements ∧ l.instruction = .finish) ∨
      ∃ rest, statementsCode p.inputCount p.statements = before ++ l :: rest := by
  rcases List.eq_nil_or_concat after with rfl | ⟨rest, last, rfl⟩
  · obtain ⟨hbefore, hl⟩ := List.append_inj' h rfl
    exact Or.inl ⟨hbefore.symm, by rw [← (List.cons.inj hl).1]⟩
  · have hsplit : statementsCode p.inputCount p.statements ++ [⟨.finish, lastSpan p.statements⟩] =
        (before ++ l :: rest) ++ [last] := by
      rw [← programCode, h]
      simp
    exact Or.inr ⟨rest, (List.append_inj' hsplit rfl).1⟩

/-- A line that two chunks hold at different offsets does the same in both, at the same place of the
source. -/
theorem step_moved {l : Line} (hown : Holds own ip [l]) (hother : Holds other (start + ip) [l])
    (hback : ∀ far, l.instruction = .loop far → far ≤ ip + l.instruction.size) (m : Machine) :
    step other (start + ip) m = movedBy start (step own ip m) ∧
      other.spans[start + ip]? = own.spans[ip]? := by
  rw [step_of_holds hown, step_of_holds hother, Nat.add_assoc]
  exact ⟨execute_moves start hback m,
    (holds_singleton.mp hother).2.trans (holds_singleton.mp hown).2.symm⟩

/-- A chunk that holds the statements of a program somewhere does what the program's own chunk does,
up to where the program finishes. -/
theorem runFrom_continues (hcompile : Codegen.compile p = .ok own)
    (hother : Holds other start (statementsCode p.inputCount p.statements))
    (htracks : Tracks (programCode p) ip m) (budget : Nat) :
    Continues other budget (start + ip)
      (start + size (statementsCode p.inputCount p.statements)) m (runFrom own budget ip m) := by
  obtain ⟨hexec, -, -⟩ := compile_eq_ok hcompile
  have hown := holds_of_compile hcompile
  have hadmits := admitsAll_programCode hexec
  induction budget generalizing ip m with
  | zero => rfl
  | succ budget ih =>
    have hkeeps := htracks.step hown hadmits
    obtain ⟨before, l, after, hcode, rfl, hgain, hadmit⟩ := htracks.admits hadmits
    have hline := hown.line hcode
    rw [Nat.zero_add] at hline
    rcases split_programCode hcode with ⟨rfl, hfinish⟩ | ⟨rest, hrest⟩
    · -- The own chunk finishes where the other one goes on behind the statements.
      rw [runFrom, step_of_holds hline, hfinish]
      exact Relation.ReflTransGen.refl
    · have hline' := hother.line hrest
      have hinner : l.instruction.Inner :=
        inner_statementsCode p.inputCount hexec l (by simp [hrest])
      obtain ⟨hstep, hspan⟩ := step_moved hline hline' hadmit.back m
      rw [runFrom]
      cases hown' : step own (size before) m with
      | ok progress m' =>
        rw [hown'] at hstep hkeeps
        cases progress with
        | goto ip' => exact (ih hkeeps).of_step hstep
        | stop c =>
          have hpops : l.instruction.pops ≤ m.operands.length := by
            have hoperands := hadmit.operands
            omega
          rw [step_of_holds hline] at hown'
          obtain ⟨code, rfl⟩ := exit_of_stop hinner htracks.valid hpops hadmit.back hown'
          change runFrom other (budget + 1) _ m = some _
          rw [runFrom, hstep]
          rfl
      | error cause m' =>
        rw [hown'] at hstep
        change runFrom other (budget + 1) _ m = some _
        rw [runFrom, hstep, ← hspan]
        rfl

end Parts

end Machine

/-! ### Runs whose output can be flushed -/

/-- Writing does not decide whether a flush fails. -/
theorem Sink.flushFails_write (s : Sink) (bytes : ByteArray) :
    (s.write bytes).2.flushFails = s.flushFails := by
  unfold Sink.write
  split
  · rfl
  · split <;> rfl

namespace Memory

/-- A line that is written, in whole or in part, does not decide whether a flush fails. -/
theorem flushFails_of_writeLine {m m' : Memory} {text : String} {ok : Bool}
    (h : m.writeLine text = (ok, m')) : m'.out.flushFails = m.out.flushFails := by
  have hout : (m.out.write (text ++ "\n").toUTF8).2 = m'.out := congrArg (fun r => r.2.out) h
  rw [← hout, Sink.flushFails_write]

/-- No instruction decides whether a flush fails. -/
theorem Change.flushFails {m m' : Memory} {i : Instruction} (h : m.Change i m') :
    m'.out.flushFails = m.out.flushFails := by
  have hpopped : ∀ name h, (m.pop.2.rebind name h).out.flushFails = m.out.flushFails := by
    intro name h
    rw [rebind_eq]
    rfl
  cases h with
  | line _ hline => exact flushFails_of_writeLine hline
  | stackPop name _ => exact hpopped name _
  | stackPopNamed _ _ => exact hpopped _ _
  | _ => rfl

end Memory

namespace Machine

open Assembly Codegen

/-- A machine whose handles belong to objects and whose output can be flushed. -/
structure Ready (m : Machine) : Prop where
  valid : m.Valid
  flushes : m.out.flushFails = false

variable {chunk : Chunk} {m : Machine} {ip budget : Nat}

/-- A step has left a machine that is ready. -/
def LeavesReady : EStateM.Result Cause Machine Progress → Prop
  | .ok _ m | .error _ m => m.Ready

/-- A machine stays ready during a step, whatever the bytes are. -/
theorem Ready.step (h : m.Ready) (chunk : Chunk) (ip : Nat) :
    LeavesReady (step chunk ip m) := by
  rcases step_cases chunk ip m with ⟨f, -, hstep⟩ | ⟨i, next, -, hstep⟩
  · rw [hstep]
    exact h
  · rw [hstep]
    have hleaves := execute_leaves i next h.valid
    have hchanges := execute_changes i next h.valid
    revert hleaves hchanges
    rcases execute i next m with ⟨_ | _, m'⟩ | ⟨cause, m'⟩
    · exact fun hvalid hchange => ⟨hvalid, hchange.flushFails.trans h.flushes⟩
    · intro hvalid hsame
      have hout : m'.out = m.out := congrArg Memory.out hsame
      exact ⟨hvalid, hout ▸ h.flushes⟩
    · rintro ⟨hvalid, -⟩ (hsame | hpop | ⟨-, text, hline⟩)
      · have hout : m'.out = m.out := congrArg Memory.out hsame
        exact ⟨hvalid, hout ▸ h.flushes⟩
      · have hout : m.out = m'.out := congrArg (fun r => r.2.out) hpop
        exact ⟨hvalid, hout ▸ h.flushes⟩
      · exact ⟨hvalid, (Memory.flushFails_of_writeLine hline).trans h.flushes⟩

/-- A machine stays ready during a run. -/
theorem Ready.runFrom {r : Except Error Completion × Machine} (h : m.Ready)
    (hrun : runFrom chunk budget ip m = some r) : r.2.Ready := by
  induction budget generalizing ip m with
  | zero => cases hrun
  | succ budget ih =>
    have hleaves := h.step chunk ip
    rw [Machine.runFrom] at hrun
    split at hrun <;> rename_i hstep <;> rw [hstep] at hleaves
    · exact ih hleaves hrun
    · cases hrun
      exact hleaves
    · cases hrun
      exact hleaves

/-- A run without a failing flush has the outcome of its steps. -/
theorem run_eq_runFrom (hvalid : m.memory.Valid) (hflush : m.out.flushFails = false)
    (budget : Nat) (chunk : Chunk) :
    m.run budget chunk = runFrom chunk budget 0 { m with operands := [] } := by
  have hready : Ready { m with operands := [] } := ⟨Valid.start hvalid, hflush⟩
  unfold run
  cases hrun : runFrom chunk budget 0 { m with operands := [] } with
  | none => rfl
  | some r =>
    obtain ⟨result, last⟩ := r
    have hlast : last.out.flushFails = false := (hready.runFrom hrun).flushes
    cases result <;> simp [flushed, hlast]

/-! ### Two parts -/

/-- A run from here on has this outcome if it has budget enough. -/
def Yields (chunk : Chunk) (ip : Nat) (m : Machine) (r : Except Error Completion × Machine) :
    Prop :=
  ∃ budget, runFrom chunk budget ip m = some r

/-- Steps do not change the outcome. -/
theorem yields_of_steps {a b : Nat × Machine} (h : Steps chunk a b)
    (r : Except Error Completion × Machine) :
    Yields chunk a.1 a.2 r ↔ Yields chunk b.1 b.2 r := by
  obtain ⟨used, hused⟩ := h.runFrom
  constructor
  · rintro ⟨budget, hrun⟩
    exact ⟨budget, (hused budget).symm.trans (runFrom_mono hrun (Nat.le_add_right _ _))⟩
  · rintro ⟨budget, hrun⟩
    exact ⟨budget + used, (hused budget).trans hrun⟩

/-- A program at the end of another chunk has the outcome that it has by itself. -/
theorem yields_of_moved {p : Program} {own other : Chunk} {start : Nat} {span : Span}
    (hcompile : Codegen.compile p = .ok own)
    (hother : Holds other start
      (statementsCode p.inputCount p.statements ++ [⟨.finish, span⟩]))
    (htracks : Tracks (programCode p) ip m) (r : Except Error Completion × Machine) :
    Yields other (start + ip) m r ↔ Yields own ip m r := by
  obtain ⟨hstmts, hfinish⟩ := holds_append.mp hother
  have hcontinues := runFrom_continues hcompile hstmts htracks
  have hback : ∀ r, Yields own ip m r → Yields other (start + ip) m r := by
    rintro ⟨result, last⟩ ⟨budget, hrun⟩
    have hbudget := hcontinues budget
    rw [hrun] at hbudget
    rcases result with e | _ | code
    · exact ⟨budget, hbudget⟩
    · refine (yields_of_steps hbudget _).mpr ⟨1, ?_⟩
      rw [runFrom, step_of_holds hfinish]
      rfl
    · exact ⟨budget, hbudget⟩
  refine ⟨fun hyields => ?_, hback r⟩
  obtain ⟨budget, hrun⟩ := hyields
  have hbudget := hcontinues budget
  cases hown : runFrom own budget ip m with
  | none =>
    rw [hown] at hbudget
    cases hbudget.symm.trans hrun
  | some r' =>
    obtain ⟨budget', hrun'⟩ := hback r' ⟨budget, hown⟩
    exact ⟨budget, hown.trans (congrArg some (runFrom_unique hrun' hrun))⟩

/-- Runs that have the same outcomes diverge together. -/
theorem diverges_of_outcomes {run run' : Nat → Option (Except Error Completion × Machine)}
    (h : ∀ r, (∃ budget, run budget = some r) ↔ ∃ budget, run' budget = some r) :
    (∀ budget, run budget = none) ↔ ∀ budget, run' budget = none := by
  simp only [Option.eq_none_iff_forall_ne_some]
  constructor
  · intro hrun budget r hr
    obtain ⟨budget', hr'⟩ := (h r).mpr ⟨budget, hr⟩
    exact hrun budget' r hr'
  · intro hrun budget r hr
    obtain ⟨budget', hr'⟩ := (h r).mp ⟨budget, hr⟩
    exact hrun budget' r hr'

end Machine

open Machine Codegen Assembly

/-- A program can be run in two parts. If the first part finishes, the whole program has the outcome
that the second part has then, or both run forever; if the first part exits, fails or runs forever,
so does the whole program. Not only what outlives a run is the same, but the whole machine. -/
theorem run_append {first second : List Expr} {inputCount : Nat} {c₁ c₂ c₁₂ : Chunk}
    (h₁ : Codegen.compile ⟨first, inputCount⟩ = .ok c₁)
    (h₂ : Codegen.compile ⟨second, inputCount⟩ = .ok c₂)
    (h₁₂ : Codegen.compile ⟨first ++ second, inputCount⟩ = .ok c₁₂)
    {m : Machine} (hvalid : m.memory.Valid) (hflush : m.out.flushFails = false) :
    (∀ budget m₁, m.run budget c₁ = some (.ok .finished, m₁) →
      (∀ r, (∃ budget, m.run budget c₁₂ = some r) ↔ ∃ budget, m₁.run budget c₂ = some r) ∧
      ((∀ budget, m.run budget c₁₂ = none) ↔ ∀ budget, m₁.run budget c₂ = none)) ∧
    (∀ budget result m₁, m.run budget c₁ = some (result, m₁) → result ≠ .ok .finished →
      m.run budget c₁₂ = some (result, m₁)) ∧
    ((∀ budget, m.run budget c₁ = none) → ∀ budget, m.run budget c₁₂ = none) := by
  have hwhole := holds_of_compile h₁₂
  rw [programCode, statementsCode_append, List.append_assoc, holds_append, Nat.zero_add] at hwhole
  obtain ⟨hfirst, hsecond⟩ := hwhole
  have htracks : Tracks (programCode ⟨first, inputCount⟩) 0 { m with operands := [] } :=
    Tracks.start _ hvalid
  have hcontinues : ∀ budget, Continues c₁₂ budget 0 (size (statementsCode inputCount first))
      { m with operands := [] } (runFrom c₁ budget 0 { m with operands := [] }) := by
    simpa using runFrom_continues h₁ hfirst htracks
  simp only [run_eq_runFrom hvalid hflush]
  refine ⟨fun budget m₁ hrun => ?_, fun budget result m₁ hrun hresult => ?_, fun hrun budget => ?_⟩
  · have hready : m₁.Ready := Ready.runFrom ⟨Valid.start hvalid, hflush⟩ hrun
    obtain ⟨hexec, -, -⟩ := compile_eq_ok h₁
    -- The first part leaves no operands, so the second one starts where the whole program goes on.
    have hoperands : m₁.operands = [] :=
      htracks.runFrom (holds_of_compile h₁) (admitsAll_programCode hexec) hrun
    have hm₁ : { m₁ with operands := [] } = m₁ := by rw [← hoperands]
    have hsteps := hcontinues budget
    rw [hrun] at hsteps
    have houtcomes : ∀ r, Yields c₁₂ 0 { m with operands := [] } r ↔ Yields c₂ 0 m₁ r := by
      intro r
      have htracks₂ : Tracks (programCode ⟨second, inputCount⟩) 0 m₁ := by
        simpa only [hm₁] using Tracks.start ⟨second, inputCount⟩ hready.valid.memory
      exact (yields_of_steps hsteps r).trans (yields_of_moved h₂ hsecond htracks₂ r)
    simp only [run_eq_runFrom hready.valid.memory hready.flushes, hm₁]
    exact ⟨houtcomes, diverges_of_outcomes houtcomes⟩
  · have hbudget := hcontinues budget
    rw [hrun] at hbudget
    rcases result with e | _ | code
    · exact hbudget
    · exact absurd rfl hresult
    · exact hbudget
  · have hbudget := hcontinues budget
    rw [hrun] at hbudget
    exact hbudget

/-- Gives `x` the length of its text, which is one. -/
def measured : List Expr :=
  let x : Expr := .var "x" false .nowhere
  [.assign x (.lengthOf x .nowhere) .nowhere]

/-- Takes a round for each time that `x` is positive, prints it and exits. -/
def shownWhilePositive : List Expr :=
  let x : Expr := .var "x" false .nowhere
  [.loop x [.print [x] .nowhere, .assign x (.var "y" false .nowhere) .nowhere] [] .nowhere,
    .exit 3 .nowhere]

/-- The chunk that the code of a program without inputs makes. -/
def chunkOf (statements : List Expr) : Chunk :=
  append Chunk.empty (programCode ⟨statements, 0⟩)

/-- The second part prints the variable that the first part has set, since the whole program
does. -/
theorem run_append_measured :
    Codegen.compile ⟨measured, 0⟩ = .ok (chunkOf measured) ∧
    Codegen.compile ⟨shownWhilePositive, 0⟩ = .ok (chunkOf shownWhilePositive) ∧
    Codegen.compile ⟨measured ++ shownWhilePositive, 0⟩ =
      .ok (chunkOf (measured ++ shownWhilePositive)) ∧
    (Machine.new .unlimited).memory.Valid ∧ (Machine.new .unlimited).out.flushFails = false ∧
    ∃ m₁ budget last,
      (Machine.new .unlimited).run 10 (chunkOf measured) = some (.ok .finished, m₁) ∧
      m₁.run budget (chunkOf shownWhilePositive) = some (.ok (.exit 3), last) ∧
      last.out.written.toList = [49, 10] := by
  have h₁ : Codegen.compile ⟨measured, 0⟩ = .ok (chunkOf measured) := by decide +kernel
  have h₂ : Codegen.compile ⟨shownWhilePositive, 0⟩ = .ok (chunkOf shownWhilePositive) := by
    decide +kernel
  have h₁₂ : Codegen.compile ⟨measured ++ shownWhilePositive, 0⟩ =
      .ok (chunkOf (measured ++ shownWhilePositive)) := by
    decide +kernel
  have hfirst : ((Machine.new .unlimited).run 10 (chunkOf measured)).map Prod.fst =
      some (.ok .finished) := by
    decide +kernel
  have hwhole : ((Machine.new .unlimited).run 20
      (chunkOf (measured ++ shownWhilePositive))).map (fun r => (r.1, r.2.out.written.toList)) =
      some (.ok (.exit 3), [49, 10]) := by
    decide +kernel
  obtain ⟨⟨_, m₁⟩, hrun, rfl⟩ := Option.map_eq_some_iff.mp hfirst
  obtain ⟨⟨_, last⟩, hlast, heq⟩ := Option.map_eq_some_iff.mp hwhole
  obtain ⟨rfl, hwritten⟩ := Prod.mk.inj heq
  have hvalid := Memory.new_valid .unlimited
  obtain ⟨houtcomes, -⟩ := (run_append h₁ h₂ h₁₂ hvalid rfl).1 10 m₁ hrun
  obtain ⟨budget, hsecond⟩ := (houtcomes _).mp ⟨20, hlast⟩
  exact ⟨h₁, h₂, h₁₂, hvalid, rfl, m₁, budget, last, hrun, hsecond, hwritten⟩

end Smil
