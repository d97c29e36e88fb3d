import Smil.Proofs.Frames
import Smil.Proofs.OperandDiscipline
import Smil.Proofs.RenamedCode

/-!
# Variable names do not matter

A renaming moves variables to other buckets and to other places within them, so the tables of names
of a program and of its renaming have nothing in common but what is found in them: under the new
name of a variable there is what is found under the old name. Two machines that are related in this
way stay so: they take the same steps, one with renamed instructions, unless an instruction computes
the name of a variable.
-/

namespace Smil

open Bytecode

variable {r : String → String}

/-- A name that is asked for in a table and its new name in a renamed one lead to the same value and
leave tables that are renamed again. -/
theorem Table.getOrInsert_renamed {α σ : Type} (hr : Function.Injective r) {t t' : Table α}
    (h : ∀ name, t'.lookup (r name) = t.lookup name) (name : String) (make : σ → α × σ) (s : σ) :
    (t'.getOrInsert (r name) make s).1 = (t.getOrInsert name make s).1 ∧
      (t'.getOrInsert (r name) make s).2.1 = (t.getOrInsert name make s).2.1 ∧
      ∀ other, (t'.getOrInsert (r name) make s).2.2.lookup (r other) =
        (t.getOrInsert name make s).2.2.lookup other := by
  have hsame : (t'.getOrInsert (r name) make s).1 = (t.getOrInsert name make s).1 ∧
      (t'.getOrInsert (r name) make s).2.1 = (t.getOrInsert name make s).2.1 := by
    cases hlookup : t.lookup name with
    | some a =>
      rw [getOrInsert_of_some hlookup, getOrInsert_of_some ((h name).trans hlookup)]
      exact ⟨rfl, rfl⟩
    | none =>
      rw [getOrInsert_of_none hlookup, getOrInsert_of_none ((h name).trans hlookup)]
      exact ⟨rfl, rfl⟩
  refine ⟨hsame.1, hsame.2, fun other => ?_⟩
  simp only [lookup_getOrInsert, hr.eq_iff, hsame.1, h]

/-- A name that is rebound in a memory and its new name in a renamed one. -/
theorem Memory.lookup_rebind_renamed (hr : Function.Injective r) {m m' : Memory}
    (h : ∀ name, m'.symbols.lookup (r name) = m.symbols.lookup name) (name : String)
    (handle : Handle) (other : String) :
    (m'.rebind (r name) handle).symbols.lookup (r other) =
      (m.rebind name handle).symbols.lookup other := by
  simp only [lookup_rebind, hr.eq_iff, h]

namespace Machine

/-! ### Machines up to names -/

/-- Two machines that differ in their tables of names only, where the second has each value under
the new name. -/
structure Renamed (r : String → String) (m m' : Machine) : Prop where
  operands : m'.operands = m.operands
  heap : m'.heap = m.heap
  lookup : ∀ name, m'.symbols.lookup (r name) = m.symbols.lookup name
  stack : m'.stack = m.stack
  out : m'.out = m.out

/-- A variable has the same value under its new name. -/
theorem Renamed.valueOf {m m' : Machine} (h : m.Renamed r m') (name : String) :
    m'.valueOf (r name) = m.valueOf name := by
  unfold Machine.valueOf
  rw [h.lookup, h.heap]

/-- Two results of actions that agree up to names. -/
def Agree {α : Type} (r : String → String) :
    EStateM.Result Cause Machine α → EStateM.Result Cause Machine α → Prop
  | .ok a m, .ok a' m' => a' = a ∧ m.Renamed r m'
  | .error cause m, .error cause' m' => cause' = cause ∧ m.Renamed r m'
  | _, _ => False

/-- What agrees with a success. -/
theorem Agree.of_ok {α : Type} {a : α} {m : Machine} {result : EStateM.Result Cause Machine α}
    (h : Agree r (.ok a m) result) : ∃ m', result = .ok a m' ∧ m.Renamed r m' := by
  cases result with
  | ok a' m' =>
    obtain ⟨rfl, hm⟩ := h
    exact ⟨m', rfl, hm⟩
  | error cause m' => cases h

/-- What agrees with a failure. -/
theorem Agree.of_error {α : Type} {cause : Cause} {m : Machine}
    {result : EStateM.Result Cause Machine α} (h : Agree r (.error cause m) result) :
    ∃ m', result = .error cause m' ∧ m.Renamed r m' := by
  cases result with
  | ok a' m' => cases h
  | error cause' m' =>
    obtain ⟨rfl, hm⟩ := h
    exact ⟨m', rfl, hm⟩

/-- Two actions that agree on machines that agree up to names. -/
def Blind {α : Type} (r : String → String) (x y : Action α) : Prop :=
  ∀ m m', m.Renamed r m' → Agree r (x m) (y m')

namespace Blind

variable {α β : Type}

/-- Doing nothing does not look at names. -/
theorem pure (a : α) : Blind r (pure a) (pure a) :=
  fun _ _ h => ⟨rfl, h⟩

/-- Failing does not look at names. -/
theorem throw (cause : Cause) : Blind r (throw cause : Action α) (throw cause) :=
  fun _ _ h => ⟨rfl, h⟩

/-- Actions in sequence. -/
theorem bind {x y : Action α} {f g : α → Action β} (hx : Blind r x y)
    (hf : ∀ a, Blind r (f a) (g a)) : Blind r (x >>= f) (y >>= g) := by
  intro m m' h
  have hagree := hx m m' h
  cases hm : x m with
  | ok a n =>
    rw [hm] at hagree
    obtain ⟨n', hm', hn⟩ := hagree.of_ok
    rw [bind_of_ok hm, bind_of_ok hm']
    exact hf a n n' hn
  | error cause n =>
    rw [hm] at hagree
    obtain ⟨n', hm', hn⟩ := hagree.of_error
    rw [bind_of_error hm, bind_of_error hm']
    exact ⟨rfl, hn⟩

/-- Actions agree if they do so on each machine and the same machine with a renamed table. -/
theorem of_symbols {x y : Action α}
    (h : ∀ m symbols, m.Renamed r { m with symbols } → Agree r (x m) (y { m with symbols })) :
    Blind r x y := by
  rintro m ⟨operands, heap, symbols, stack, out⟩ hm
  obtain ⟨rfl, rfl, hlookup, rfl, rfl⟩ := hm
  exact h m symbols ⟨rfl, rfl, hlookup, rfl, rfl⟩

/-- A change of the machine that leaves the table of names alone. -/
theorem modify {f : Machine → Machine}
    (h : ∀ m symbols, f { m with symbols } = { f m with symbols } ∧ (f m).symbols = m.symbols) :
    Blind r (modify f : Action PUnit) (modify f) := by
  refine of_symbols fun m symbols hm => ⟨rfl, ?_⟩
  obtain ⟨hf, hsymbols⟩ := h m symbols
  rw [hf]
  exact ⟨rfl, rfl, fun name => (hm.lookup name).trans (by rw [hsymbols]), rfl, rfl⟩

/-- An action that depends on the machine it starts from, but not on the table of names. -/
theorem get {f : Machine → Action α} (h : ∀ m symbols, f { m with symbols } = f m)
    (hf : ∀ m, Blind r (f m) (f m)) : Blind r (get >>= f) (get >>= f) := by
  refine of_symbols fun m symbols hm => ?_
  change Agree r (f m m) (f { m with symbols } { m with symbols })
  rw [h m symbols]
  exact hf m m _ hm

/-- Pushing an operand does not look at names. -/
theorem push (h : Handle) : Blind r (push h) (push h) :=
  modify fun _ _ => ⟨rfl, rfl⟩

/-- Popping an operand does not look at names. -/
theorem pop : Blind r pop pop := by
  refine get (fun _ _ => rfl) fun m => ?_
  cases m.operands with
  | nil => exact throw _
  | cons h rest => exact bind (modify fun _ _ => ⟨rfl, rfl⟩) fun _ => pure h

/-- Popping several operands does not look at names. -/
theorem popMany (count : Nat) : Blind r (popMany count) (popMany count) := by
  refine get (fun _ _ => rfl) fun m => ?_
  dsimp only
  split
  · exact throw _
  · exact bind (modify fun _ _ => ⟨rfl, rfl⟩) fun _ => pure _

/-- Reading an object does not look at names. -/
theorem read (h : Handle) : Blind r (read h) (read h) := by
  refine get (fun _ _ => rfl) fun m => ?_
  split
  · exact pure _
  · exact throw _

/-- Overwriting an object does not look at names. -/
theorem store (h : Handle) (v : Value) : Blind r (store h v) (store h v) := by
  refine get (fun _ _ => rfl) fun m => ?_
  split
  · exact modify fun _ _ => ⟨rfl, rfl⟩
  · exact throw _

/-- Creating an object does not look at names. -/
theorem create (v : Value) : Blind r (create v) (create v) :=
  modify fun _ _ => ⟨rfl, rfl⟩

/-- Popping the text of an object does not look at names. -/
theorem popText : Blind r popText popText :=
  bind pop fun h => bind (read h) fun v => pure v.toText

/-- Popping the evaluation stack does not look at names. -/
theorem popStack : Blind r popStack popStack := by
  refine bind (of_symbols fun m symbols hm => ⟨rfl, rfl, rfl, hm.lookup, rfl, rfl⟩)
    fun popped => ?_
  cases popped with
  | none => exact throw _
  | some h => exact pure h

/-- Writing a line does not look at names. -/
theorem writeLine (line : String) : Blind r (writeLine line) (writeLine line) := by
  refine bind (of_symbols fun m symbols hm => ⟨rfl, rfl, rfl, hm.lookup, rfl, rfl⟩) fun ok => ?_
  cases ok with
  | false => exact throw _
  | true => exact pure ()

/-- Objects that are read one after the other. -/
theorem mapM_read (args : List Handle) :
    Blind r (args.mapM Machine.read) (args.mapM Machine.read) := by
  induction args with
  | nil => exact pure []
  | cons h args ih =>
    rw [List.mapM_cons]
    exact bind (read h) fun v => bind ih fun vs => pure (v :: vs)

/-- A variable is loaded under its new name. -/
theorem load (hr : Function.Injective r) (name : String) :
    Blind r (load name) (load (r name)) := by
  have hhandle : Blind r (modifyGet (variableHandle name) : Action Handle)
      (modifyGet (variableHandle (r name))) := by
    refine of_symbols fun m symbols hm => ?_
    obtain ⟨hvalue, hheap, hlookup⟩ := Table.getOrInsert_renamed hr hm.lookup name
      (fun heap : Heap => heap.alloc (.integer 0)) m.heap
    exact ⟨hvalue, rfl, hheap, hlookup, rfl, rfl⟩
  exact bind hhandle push

/-- A variable is rebound under its new name. -/
theorem rebind (hr : Function.Injective r) (name : String) (h : Handle) :
    Blind r (rebind name h) (rebind (r name) h) := by
  refine of_symbols fun m symbols hm => ?_
  let renamed : Memory := ⟨m.heap, symbols, m.stack, m.out⟩
  have hlookup := Memory.lookup_rebind_renamed hr
    (show ∀ other, renamed.symbols.lookup (r other) = m.memory.symbols.lookup other from hm.lookup)
    name h
  change Agree r (Machine.rebind name h (m.memory.machine m.operands))
    (Machine.rebind (r name) h (renamed.machine m.operands))
  rw [Memory.rebind_machine, Memory.rebind_machine, Memory.rebind_eq name,
    Memory.rebind_eq (r name)]
  exact ⟨rfl, rfl, rfl, hlookup, rfl, rfl⟩

end Blind

/-! ### Runs up to names -/

/-- An instruction that does not compute a name does the same as the renamed instruction. -/
theorem execute_blind (hr : Function.Injective r) {i : Instruction} (hi : i.computesName = false)
    (next : Nat) : Blind r (execute i next) (execute (i.rename r) next) := by
  cases i with
  | load name => exact .bind (.load hr name) fun _ => .pure _
  | loadNamed | stackPopNamed => cases hi
  | assign mode =>
    have hassign : Blind r (assign mode) (assign mode) :=
      .bind .pop fun target => .bind .pop fun source => .bind (.read source) fun v =>
        .bind (.store target (stored mode v)) fun _ => .push target
    exact .bind hassign fun _ => .pure _
  | binary op =>
    have hoperate : Blind r (operate op) (operate op) := by
      refine .bind .pop fun b => .bind .pop fun a => .bind (.read a) fun v => .bind (.read b)
        fun w => ?_
      cases Value.operate op v w with
      | ok result => exact .create result
      | error cause => exact .throw cause
    exact .bind hoperate fun _ => .pure _
  | length => exact .bind .pop fun h => .bind (.read h) fun v => .bind (.create _) fun _ => .pure _
  | print count =>
    have hprint : Blind r (print count) (print count) :=
      .bind (.popMany count) fun args => .bind (.mapM_read args) fun values => .writeLine _
    exact .bind hprint fun _ => .pure _
  | hello => exact .bind .popText fun name => .bind (.writeLine _) fun _ => .pure _
  | helloWorld => exact .bind (.writeLine _) fun _ => .pure _
  | stackPush => exact .bind .pop fun h => .bind (.modify fun _ _ => ⟨rfl, rfl⟩) fun _ => .pure _
  | stackPop name => exact .bind .popStack fun h => .bind (.rebind hr name h) fun _ => .pure _
  | stackClear => exact .bind (.modify fun _ _ => ⟨rfl, rfl⟩) fun _ => .pure _
  | pop => exact .bind (.bind .pop fun _ => .pure _) fun _ => .pure _
  | jumpIfNotPositive distance => exact .bind .pop fun h => .bind (.read h) fun v => .pure _
  | loop distance =>
    simp only [Instruction.rename, execute]
    split
    · exact .pure _
    · exact .throw _
  | exit code => exact .pure _
  | finish => exact .pure _

/-- Two outcomes of runs that agree up to names. -/
def AgreeOutcome (r : String → String) :
    Option (Except Error Completion × Machine) → Option (Except Error Completion × Machine) → Prop
  | none, none => True
  | some (result, m), some (result', m') => result' = result ∧ m.Renamed r m'
  | _, _ => False

/-- What agrees with a run that is not done. -/
theorem AgreeOutcome.of_none {outcome : Option (Except Error Completion × Machine)}
    (h : AgreeOutcome r none outcome) : outcome = none := by
  cases outcome with
  | none => rfl
  | some _ => cases h

/-- What agrees with a run that has ended. -/
theorem AgreeOutcome.of_some {ended : Except Error Completion × Machine}
    {outcome : Option (Except Error Completion × Machine)}
    (h : AgreeOutcome r (some ended) outcome) :
    ∃ m', outcome = some (ended.1, m') ∧ ended.2.Renamed r m' := by
  cases outcome with
  | none => cases h
  | some ended' =>
    obtain ⟨hresult, hm⟩ := h
    exact ⟨ended'.2, by rw [← hresult], hm⟩

open Assembly Codegen

variable {chunk chunk' : Chunk} {code : List Line} {ip budget : Nat} {m m' : Machine}

/-- Code that computes no name and the renamed code do the same on machines that agree up to
names. -/
theorem runFrom_renamed (hr : Function.Injective r) (hholds : Holds chunk 0 code)
    (hholds' : Holds chunk' 0 (code.map (Line.rename r))) (hadmits : AdmitsAll code [] code)
    (hplain : ∀ l ∈ code, l.instruction.computesName = false) (htracks : Tracks code ip m)
    (hm : m.Renamed r m') (budget : Nat) :
    AgreeOutcome r (runFrom chunk budget ip m) (runFrom chunk' budget ip m') := by
  induction budget generalizing ip m m' with
  | zero => trivial
  | succ budget ih =>
    have hkeeps := htracks.step hholds hadmits
    obtain ⟨before, l, after, hcode, rfl, -⟩ := htracks.reaches
    have hline := hholds.line hcode
    have hline' : Holds chunk' (0 + size (before.map (Line.rename r))) [l.rename r] :=
      hholds'.line (by rw [hcode, List.map_append, List.map_cons])
    rw [Nat.zero_add] at hline
    rw [Nat.zero_add, size_map_rename] at hline'
    have hagree := execute_blind hr (hplain l (by simp [hcode]))
      (size before + l.instruction.size) m m' hm
    have hstep' : step chunk' (size before) m' =
        execute (l.instruction.rename r) (size before + l.instruction.size) m' := by
      rw [step_of_holds hline', Line.rename, Instruction.size_rename]
    have hspans : chunk'.spans[size before]? = chunk.spans[size before]? :=
      (holds_singleton.mp hline').2.trans (holds_singleton.mp hline).2.symm
    rw [← step_of_holds hline, ← hstep'] at hagree
    rw [runFrom, runFrom, hspans]
    cases hstep : step chunk (size before) m with
    | ok progress n =>
      rw [hstep] at hagree hkeeps
      obtain ⟨n', hn', hrenamed⟩ := hagree.of_ok
      rw [hn']
      cases progress with
      | goto ip => exact ih hkeeps hrenamed
      | stop c => exact ⟨rfl, hrenamed⟩
    | error cause n =>
      rw [hstep] at hagree
      obtain ⟨n', hn', hrenamed⟩ := hagree.of_error
      rw [hn']
      exact ⟨rfl, hrenamed⟩

/-- Whole runs agree up to names too, since the flush depends on the output only. -/
theorem run_renamed (hr : Function.Injective r) (hholds : Holds chunk 0 code)
    (hholds' : Holds chunk' 0 (code.map (Line.rename r))) (hadmits : AdmitsAll code [] code)
    (hplain : ∀ l ∈ code, l.instruction.computesName = false)
    (htracks : Tracks code 0 { m with operands := [] }) (hm : m.Renamed r m') (budget : Nat) :
    AgreeOutcome r (m.run budget chunk) (m'.run budget chunk') := by
  have hstart : Renamed r { m with operands := [] } { m' with operands := [] } :=
    ⟨rfl, hm.heap, hm.lookup, hm.stack, hm.out⟩
  have hagree := runFrom_renamed hr hholds hholds' hadmits hplain htracks hstart budget
  unfold run
  cases hrun : runFrom chunk budget 0 { m with operands := [] } with
  | none =>
    rw [hrun] at hagree
    rw [hagree.of_none]
    trivial
  | some outcome =>
    rw [hrun] at hagree
    obtain ⟨last', hrun', hlast⟩ := hagree.of_some
    rw [hrun']
    refine ⟨?_, hlast⟩
    cases outcome.1 with
    | error e => rfl
    | ok c => simp only [flushed, hlast.out]

/-! ### Machines with bound inputs -/

/-- A machine with bound inputs agrees with itself up to a renaming that leaves the names of inputs
as they are. -/
theorem renamed_bindFrom (hr : Function.Injective r) (hinputs : ∀ i, r (inputName i) = inputName i)
    (out : Sink) (inputs : List String) :
    Renamed r ((new out).bindFrom 0 inputs) ((new out).bindFrom 0 inputs) := by
  refine ⟨rfl, rfl, fun name => ?_, rfl, rfl⟩
  by_cases hname : ∃ i, name = inputName i
  · obtain ⟨i, rfl⟩ := hname
    rw [hinputs]
  · have hold : ∀ i, name ≠ inputName i := fun i hi => hname ⟨i, hi⟩
    have hnew : ∀ i, r name ≠ inputName i := by
      intro i hi
      exact hold i (hr (hi.trans (hinputs i).symm))
    have hempty : ∀ name, (new out).symbols.lookup name = none := Table.lookup_empty
    rw [lookup_bindFrom fun i _ => hold _, lookup_bindFrom fun i _ => hnew _, hempty, hempty]

end Machine

open Machine Codegen

/-- Variable names do not matter. A program without computed names compiles if and only if its
renaming does. On new machines with the same inputs both are done after the same number of steps or
never; then they have the same result, output, heap and evaluation stack, and each variable has the
same value under its new name. -/
theorem run_rename {p : Program} (hplain : Expr.allPlain p.statements = true)
    {r : String → String} (hr : Function.Injective r)
    (hinputs : ∀ i, r (inputName i) = inputName i) :
    (Codegen.compile (p.rename r)).isOk = (Codegen.compile p).isOk ∧
    ∀ chunk chunk', Codegen.compile p = .ok chunk → Codegen.compile (p.rename r) = .ok chunk' →
    ∀ out required inputs m, (Machine.new out).bindInputs required inputs = .ok m →
      (∀ budget, m.run budget chunk' = none ↔ m.run budget chunk = none) ∧
      ∀ budget result last, m.run budget chunk = some (result, last) →
        ∃ last', m.run budget chunk' = some (result, last') ∧ last'.out = last.out ∧
          last'.heap = last.heap ∧ last'.stack = last.stack ∧
          ∀ name, last'.valueOf (r name) = last.valueOf name := by
  refine ⟨isOk_compile_rename hr hinputs p, ?_⟩
  intro chunk chunk' hcompile hcompile' out required inputs m hbind
  obtain ⟨hexec, -, -⟩ := compile_eq_ok hcompile
  have hholds' := holds_of_compile hcompile'
  rw [programCode_rename hinputs hexec] at hholds'
  have hm : m = (Machine.new out).bindFrom 0 inputs := by
    unfold bindInputs at hbind
    split at hbind
    · cases hbind
    · exact (Except.ok.inj hbind).symm
  have hrenamed : m.Renamed r m := hm ▸ renamed_bindFrom hr hinputs out inputs
  have hvalid : m.memory.Valid := hm ▸ ((intact_new out).bindFrom 0 inputs).valid.memory
  have hagree := run_renamed hr (holds_of_compile hcompile) hholds' (admitsAll_programCode hexec)
    (computesName_programCode hexec hplain) (Tracks.start p hvalid) hrenamed
  have hsome : ∀ budget result last, m.run budget chunk = some (result, last) →
      ∃ last', m.run budget chunk' = some (result, last') ∧ last.Renamed r last' := by
    intro budget result last hrun
    have hbudget := hagree budget
    rw [hrun] at hbudget
    exact hbudget.of_some
  refine ⟨fun budget => ⟨fun hnone => ?_, fun hnone => ?_⟩, fun budget result last hrun => ?_⟩
  · cases hrun : m.run budget chunk with
    | none => rfl
    | some outcome =>
      obtain ⟨last', hrun', -⟩ := hsome budget outcome.1 outcome.2 hrun
      cases hnone.symm.trans hrun'
  · have hbudget := hagree budget
    rw [hnone] at hbudget
    exact hbudget.of_none
  · obtain ⟨last', hrun', hlast⟩ := hsome budget result last hrun
    exact ⟨last', hrun', hlast.out, hlast.heap, hlast.stack, hlast.valueOf⟩

/-- The name of an input starts like the sigil of inputs. -/
theorem head?_inputName (i : Nat) : (inputName i).toList.head? = some ':' := by
  simp [inputName, List.replicate_succ, Sigil.text]

/-- Exchanges two names. -/
def exchanged (name : String) : String :=
  if name = "x" then "c" else if name = "c" then "x" else name

/-- Pops one variable into another and prints it with the input. -/
def poppedAndPrinted : Program :=
  let x : Expr := .var "x" false .nowhere
  let n : Expr := .var "n" false .nowhere
  ⟨[.assign x (.lengthOf n .nowhere) .nowhere, .push x .nowhere, .pop n .nowhere,
    .print [n, .input 0 .nowhere] .nowhere], 1⟩

/-- The two variables are in different buckets, and under their new names in the same one. Still the
same is printed, and the object is found under the new name. -/
theorem run_rename_exchanged :
    Expr.allPlain poppedAndPrinted.statements = true ∧ Function.Injective exchanged ∧
    (∀ i, exchanged (inputName i) = inputName i) ∧ bucketOf "x" ≠ bucketOf "n" ∧
    bucketOf (exchanged "x") = bucketOf (exchanged "n") ∧
    ∃ chunk chunk' m last last', Codegen.compile poppedAndPrinted = .ok chunk ∧
      Codegen.compile (poppedAndPrinted.rename exchanged) = .ok chunk' ∧
      (Machine.new .unlimited).bindInputs 1 ["hi"] = .ok m ∧
      m.run 20 chunk = some (.ok .finished, last) ∧
      m.run 20 chunk' = some (.ok .finished, last') ∧ last'.out = last.out ∧
      last'.heap = last.heap ∧ last'.valueOf "c" = last.valueOf "x" := by
  have hplain : Expr.allPlain poppedAndPrinted.statements = true := by decide
  have hr : Function.Injective exchanged := by
    intro a b hab
    unfold exchanged at hab
    split_ifs at hab <;> simp_all
  have hinputs : ∀ i, exchanged (inputName i) = inputName i := by
    intro i
    have hhead := head?_inputName i
    have hx : inputName i ≠ "x" := by
      intro h
      rw [h] at hhead
      exact absurd hhead (by decide)
    have hc : inputName i ≠ "c" := by
      intro h
      rw [h] at hhead
      exact absurd hhead (by decide)
    rw [exchanged, if_neg hx, if_neg hc]
  obtain ⟨hok, hruns⟩ := run_rename hplain hr hinputs
  have hcompile : Codegen.compile poppedAndPrinted =
      .ok (Assembly.append Chunk.empty (programCode poppedAndPrinted)) := by
    decide +kernel
  let m := (Machine.new .unlimited).bindFrom 0 ["hi"]
  have hrun : (m.run 20 (Assembly.append Chunk.empty (programCode poppedAndPrinted))).map
      Prod.fst = some (.ok .finished) := by
    decide +kernel
  obtain ⟨⟨_, last⟩, hlast, rfl⟩ := Option.map_eq_some_iff.mp hrun
  cases hcompile' : Codegen.compile (poppedAndPrinted.rename exchanged) with
  | error e =>
    rw [hcompile', hcompile] at hok
    cases hok
  | ok chunk' =>
    obtain ⟨-, hends⟩ := hruns _ chunk' hcompile hcompile' .unlimited 1 ["hi"] m rfl
    obtain ⟨last', hlast', hout, hheap, -, hvalues⟩ := hends 20 _ last hlast
    exact ⟨hplain, hr, hinputs, by decide +kernel, by decide +kernel, _, chunk', m, last, last',
      hcompile, rfl, rfl, hlast, hlast', hout, hheap, hvalues "x"⟩

end Smil
