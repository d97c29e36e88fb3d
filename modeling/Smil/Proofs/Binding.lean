import Smil.Proofs.Aliasing

/-!
# What binding inputs does

The arguments of a program are stored one after another in the variables of the inputs. The names
of inputs are repetitions of one sigil, so different indices have different names; but a value is
stored through a handle, and a pop can have made two names share one. As long as the names that are
written do not share a handle among themselves, no argument overwrites an earlier one. Other
variables are touched only where they share the handle of an input.
-/

namespace Smil

open Bytecode

/-! ### The names of inputs -/

/-- The name of an input is its sigil, once more than the index. -/
theorem toList_inputName (index : Nat) :
    (inputName index).toList = (List.replicate (index + 1) Sigil.input.text.toList).flatten := by
  rw [inputName, String.toList_join, List.flatMap_replicate]

/-- The name of an input has two characters for each of its sigils. -/
theorem length_toList_inputName (index : Nat) :
    (inputName index).toList.length = 2 * (index + 1) := by
  rw [toList_inputName, List.length_flatten, List.map_replicate, List.sum_replicate_nat]
  exact Nat.mul_comm _ 2

/-- Different inputs have different names, since the names have different lengths. -/
theorem inputName_inj {i j : Nat} (h : inputName i = inputName j) : i = j := by
  have hlength := congrArg (fun name => name.toList.length) h
  simp only [length_toList_inputName] at hlength
  omega

/-- The names of the first inputs. -/
def inputNames (count : Nat) : List String :=
  (List.range count).map inputName

/-- The names of inputs are those of the indices below their number. -/
theorem mem_inputNames {count : Nat} {name : String} :
    name ∈ inputNames count ↔ ∃ i < count, inputName i = name := by
  simp [inputNames]

/-- An index below the number of inputs has its name among theirs. -/
theorem inputName_mem {count i : Nat} (h : i < count) : inputName i ∈ inputNames count :=
  mem_inputNames.mpr ⟨i, h, rfl⟩

namespace Machine

variable {m m' : Machine} {inputs : List String}

/-! ### Names, handles and objects -/

/-- The name of an input that is bound is there, and its object holds the argument. -/
theorem bindFrom_singleton (hm : m.Intact) (index : Nat) (arg : String) :
    ∃ h, (m.bindFrom index [arg]).symbols.lookup (inputName index) = some h ∧
      (m.bindFrom index [arg]).memory.Owns h ∧
      (m.bindFrom index [arg]).heap.get? h = some (.ofInput arg) := by
  have hnamed := (hm.variableHandle (inputName index)).1
  have howns := (hm.variableHandle (inputName index)).2
  have hlt : (m.variableHandle (inputName index)).1.index <
      (m.variableHandle (inputName index)).2.heap.objects.size := Memory.owns_iff.mp howns
  refine ⟨(m.variableHandle (inputName index)).1, ?_, ?_, ?_⟩
  · exact (m.memory.lookup_variableHandle (inputName index) (inputName index)).trans (if_pos rfl)
  · exact howns.extends (Memory.store_valid hnamed.valid.memory _ _).2
  · simp only [bindFrom, Heap.get?, Heap.set, Array.getElem?_setIfInBounds, if_true, hlt]

/-- Binding leaves every name its handle, and it overwrites the objects of the inputs only. -/
theorem frame_bindFrom_inputs (hm : m.Intact) (index : Nat) (inputs : List String) :
    m.memory.Frame (fun _ => False)
      (fun h => ∃ i < inputs.length,
        (m.bindFrom index inputs).symbols.lookup (inputName (index + i)) = some h)
      (m.bindFrom index inputs).memory := by
  induction inputs generalizing index m with
  | nil => exact Memory.frame_of_eq rfl rfl
  | cons arg inputs ih =>
    have hrest := ih (hm.bindFrom index [arg]) (index + 1)
    refine ((frame_bindFrom_singleton index arg m).mono (fun _ => id) ?_).trans
      (hrest.mono (fun _ => id) ?_)
    · -- the name that is bound first has kept its handle to the end
      rintro h rfl
      have hname := (m.memory.lookup_variableHandle (inputName index) (inputName index)).trans
        (if_pos rfl)
      rcases hrest.names (inputName index) _ hname with hkept | ⟨hfalse, -⟩
      · exact ⟨0, Nat.zero_lt_succ _, hkept⟩
      · exact hfalse.elim
    · rintro h ⟨i, hi, hlookup⟩
      refine ⟨i + 1, Nat.succ_lt_succ hi, ?_⟩
      rw [← Nat.add_assoc, Nat.add_right_comm]
      exact hlookup

/-- Each input holds its argument in the end. An earlier one is not overwritten, since the names of
inputs do not share handles. -/
theorem valueOf_bindFrom {count : Nat} (hm : m.Intact)
    (hd : m.symbols.DistinctOn (· ∈ inputNames count)) (index : Nat)
    (hcount : index + inputs.length ≤ count) {i : Nat} {arg : String}
    (harg : inputs[i]? = some arg) :
    (m.bindFrom index inputs).valueOf (inputName (index + i)) = some (.ofInput arg) := by
  induction inputs generalizing index m i with
  | nil => cases harg
  | cons first inputs ih =>
    rw [List.length_cons] at hcount
    have hm₁ := hm.bindFrom index [first]
    have hd₁ := distinctOn_bindFrom index [first] hm hd
    cases i with
    | succ i =>
      have hvalue := ih hm₁ hd₁ (index + 1) (by omega) harg
      rw [Nat.add_right_comm] at hvalue
      exact hvalue
    | zero =>
      obtain rfl : first = arg := Option.some.inj harg
      obtain ⟨h, hname, howns, hobject⟩ := bindFrom_singleton hm index first
      have hframe := frame_bindFrom_inputs hm₁ (index + 1) inputs
      have hkept : (m.bindFrom index (first :: inputs)).symbols.lookup (inputName index) =
          some h := by
        rcases hframe.names _ h hname with hkept | ⟨hfalse, -⟩
        · exact hkept
        · exact hfalse.elim
      have hstored : (m.bindFrom index (first :: inputs)).heap.get? h = some (.ofInput first) := by
        rcases hframe.objects h howns with hsame | ⟨j, hj, hlater⟩
        · exact hsame.trans hobject
        · have hnames := distinctOn_bindFrom index (first :: inputs) hm hd _ _ h
            (inputName_mem (by omega)) (inputName_mem (by omega)) hkept hlater
          have hindices := inputName_inj hnames
          omega
      rw [valueOf, Nat.add_zero, hkept]
      exact hstored

/-- Binding does not touch the stacks and writes nothing. -/
theorem bindFrom_eq (index : Nat) (inputs : List String) (m : Machine) :
    m.bindFrom index inputs = { m with
      heap := (m.bindFrom index inputs).heap, symbols := (m.bindFrom index inputs).symbols } := by
  induction inputs generalizing index m with
  | nil => rfl
  | cons arg inputs ih =>
    rw [bindFrom_cons, ih]
    rfl

/-! ### Binding as a call -/

/-- What a machine holds after it was given arguments: each input has the value of its argument, all
names keep their handles and, unless they share the handle of an input, their values; only names of
inputs are new; and the rest of the machine is the same. -/
structure Binds (inputs : List String) (m m' : Machine) : Prop where
  values : ∀ i arg, inputs[i]? = some arg → m'.valueOf (inputName i) = some (.ofInput arg)
  handles : ∀ name h, m.symbols.lookup name = some h → m'.symbols.lookup name = some h
  others : ∀ name h, m.symbols.lookup name = some h →
    (∀ i < inputs.length, m'.symbols.lookup (inputName i) ≠ some h) →
      m'.valueOf name = m.valueOf name
  created : ∀ name, m.symbols.lookup name = none → m'.symbols.lookup name ≠ none →
    name ∈ inputNames inputs.length
  stack : m'.stack = m.stack
  operands : m'.operands = m.operands
  out : m'.out = m.out

/-- Binding does to the machine what it is for, if the names that are bound share no handle. -/
theorem binds_bindFrom (hm : m.Intact)
    (hd : m.symbols.DistinctOn (· ∈ inputNames inputs.length)) :
    Binds inputs m (m.bindFrom 0 inputs) := by
  have hframe := frame_bindFrom_inputs hm 0 inputs
  have hhandles : ∀ name h, m.symbols.lookup name = some h →
      (m.bindFrom 0 inputs).symbols.lookup name = some h := by
    intro name h hname
    rcases hframe.names name h hname with hkept | ⟨hfalse, -⟩
    · exact hkept
    · exact hfalse.elim
  refine ⟨?_, hhandles, ?_, ?_, ?_, ?_, ?_⟩
  · intro i arg harg
    have hvalue := valueOf_bindFrom hm hd 0 (Nat.le_of_eq (Nat.zero_add _)) harg
    rwa [Nat.zero_add] at hvalue
  · intro name h hname hshared
    rw [valueOf, valueOf, hhandles name h hname, hname]
    rcases hframe.objects h (hm.valid.memory.symbols.lookup hname) with hsame | ⟨i, hi, hinput⟩
    · exact hsame
    · rw [Nat.zero_add] at hinput
      exact absurd hinput (hshared i hi)
  · intro name hmissing hthere
    by_contra hname
    apply hthere
    rw [lookup_bindFrom, hmissing]
    rintro i hi rfl
    rw [Nat.zero_add] at hname
    exact hname (inputName_mem hi)
  · rw [bindFrom_eq]
  · rw [bindFrom_eq]
  · rw [bindFrom_eq]

/-- Stores an argument in the variable of an input. -/
def bindArgument (index : Nat) (arg : String) : EStateM Error Machine Unit := do
  let h ← modifyGet (variableHandle (inputName index))
  modify fun m => { m with heap := m.heap.set h (.ofInput arg) }

/-- Stores arguments in the variables of the inputs from `index` on. -/
def bindArguments : Nat → List String → EStateM Error Machine Unit
  | _, [] => pure ()
  | index, arg :: args => do
    bindArgument index arg
    bindArguments (index + 1) args

/-- Binding inputs as a call that changes a machine in place, and that may fail. -/
def bindCall (required : Nat) (inputs : List String) : EStateM Error Machine Unit := do
  if inputs.length < required then
    throw (.unplaced (.missingInputs required inputs.length))
  bindArguments 0 inputs

/-- The loop over the arguments fails nowhere and binds all of them. -/
theorem bindArguments_eq (index : Nat) (inputs : List String) (m : Machine) :
    bindArguments index inputs m = .ok () (m.bindFrom index inputs) := by
  induction inputs generalizing index m with
  | nil => rfl
  | cons arg inputs ih =>
    have hfirst : bindArgument index arg m = .ok () (m.bindFrom index [arg]) := rfl
    exact (bind_of_ok hfirst).trans (ih (index + 1) _)

/-- A call with too few arguments fails before anything is stored. -/
theorem bindCall_of_lt {required : Nat} (h : inputs.length < required) (m : Machine) :
    bindCall required inputs m =
      .error (.unplaced (.missingInputs required inputs.length)) m := by
  unfold bindCall
  rw [if_pos h]
  rfl

/-- With arguments enough the call binds all of them. -/
theorem bindCall_of_le {required : Nat} (h : required ≤ inputs.length) (m : Machine) :
    bindCall required inputs m = .ok () (m.bindFrom 0 inputs) := by
  unfold bindCall
  rw [if_neg (Nat.not_lt.mpr h)]
  exact bindArguments_eq 0 inputs m

/-- Binding inputs, in every state that a session reaches and in which the names that are bound, as
far as they are there, have different handles. With too few arguments the call fails and leaves the
machine as it was. Otherwise it succeeds: each input has the value of its argument, also beyond the
ones that are required, variables that share no handle with them are the same, no other names are
made, and the stacks stay. The names have different handles in every session that pops into no
variable. -/
theorem inputs_bound (required : Nat) (inputs : List String) :
    (∀ activity m, Reached activity m → m.symbols.DistinctOn (· ∈ inputNames inputs.length) →
      (inputs.length < required →
        m.bindInputs required inputs =
            .error (.unplaced (.missingInputs required inputs.length)) ∧
          bindCall required inputs m =
            .error (.unplaced (.missingInputs required inputs.length)) m) ∧
      (required ≤ inputs.length → ∃ m', m.bindInputs required inputs = .ok m' ∧
        bindCall required inputs m = .ok () m' ∧ Binds inputs m m')) ∧
    ∀ out s, Leads (fun _ e => e.isPop = false) (.idle, new out) s →
      s.2.symbols.DistinctOn (· ∈ inputNames inputs.length) := by
  refine ⟨?_, ?_⟩
  · intro activity m hm hd
    refine ⟨fun hfew => ⟨if_pos hfew, bindCall_of_lt hfew m⟩, fun henough => ?_⟩
    exact ⟨m.bindFrom 0 inputs, if_neg (Nat.not_lt.mpr henough), bindCall_of_le henough m,
      binds_bindFrom hm.intact hd⟩
  · intro out s hleads a b h _ _ ha hb
    have hnew : (new out).symbols.Distinct := by
      intro a b h ha _
      cases (Table.lookup_empty a).symm.trans ha
    exact hleads.distinct (intact_new out) hnew a b h ha hb

/-- Pops the object of the first input into a variable, and asks for another variable. -/
def shareInput : Chunk :=
  ⟨#[Opcode.load.toByte, 0, 0, Opcode.stackPush.toByte, Opcode.stackPop.toByte, 0, 1,
    Opcode.load.toByte, 0, 2, Opcode.finish.toByte], #[], #[":$", "b", "c"]⟩

/-- Two arguments are given where one is required. The variable that shares the object of the first
input has its value as well, and the other variable keeps its own. -/
theorem inputs_bound_shared : ∃ m m', Reached .idle m ∧
    m.symbols.lookup "b" = m.symbols.lookup ":$" ∧ m.valueOf ":$" = some (.integer 5) ∧
    m.symbols.DistinctOn (· ∈ inputNames 2) ∧
    m.bindInputs 1 ["7", "x y"] = .ok m' ∧ Binds ["7", "x y"] m m' ∧
    m'.valueOf ":$" = some (.integer 7) ∧ m'.valueOf "b" = some (.integer 7) ∧
    m'.valueOf ":$:$" = some (.text "x y") ∧ m'.valueOf "c" = m.valueOf "c" := by
  have hbound : Reached .idle ((new .unlimited).bindFrom 0 ["5"]) :=
    ⟨.unlimited, .single ⟨.bound ["5"], trivial, .bound 1 rfl⟩⟩
  have hrun : (((new .unlimited).bindFrom 0 ["5"]).run 5 shareInput).map (fun r =>
      ([":$", "b", ":$:$", "c"].map r.2.symbols.lookup, r.2.valueOf ":$",
        (r.2.bindFrom 0 ["7", "x y"]).symbols.lookup ":$:$")) =
      some ([some ⟨0⟩, some ⟨0⟩, none, some ⟨1⟩], some (.integer 5), some ⟨2⟩) := by
    decide +kernel
  obtain ⟨r, hr, hfacts⟩ := Option.map_eq_some_iff.mp hrun
  simp only [List.map_cons, List.map_nil, Prod.mk.injEq, List.cons.injEq, and_true] at hfacts
  obtain ⟨⟨hfirst, hb, hsecond, hc⟩, hvalue, hnew⟩ := hfacts
  have hnames : inputNames 2 = [":$", ":$:$"] := by decide +kernel
  -- of the two names only the first is there
  have hd : r.2.symbols.DistinctOn (· ∈ inputNames 2) := by
    have honly : ∀ name h, name ∈ inputNames 2 → r.2.symbols.lookup name = some h →
        name = ":$" := by
      intro name h hname hlookup
      rw [hnames, List.mem_pair] at hname
      rcases hname with rfl | rfl
      · rfl
      · cases hsecond.symm.trans hlookup
    intro x y h hx hy hxh hyh
    rw [honly x h hx hxh, honly y h hy hyh]
  have hreached : Reached .idle r.2 := hbound.leads (leads_of_run hr)
  obtain ⟨m', hbind, -, hbinds⟩ :=
    ((inputs_bound 1 ["7", "x y"]).1 .idle r.2 hreached hd).2 (by decide)
  have hvalues : m'.valueOf ":$" = some (.integer 7) ∧ m'.valueOf ":$:$" = some (.text "x y") :=
    ⟨hbinds.values 0 "7" rfl, hbinds.values 1 "x y" rfl⟩
  refine ⟨r.2, m', hreached, hb.trans hfirst.symm, hvalue, hd, hbind, hbinds, hvalues.1, ?_,
    hvalues.2, ?_⟩
  · rw [← hvalues.1, valueOf, valueOf, hbinds.handles _ _ hb, hbinds.handles _ _ hfirst]
  · apply hbinds.others "c" ⟨1⟩ hc
    intro i hi
    have hi' : i = 0 ∨ i = 1 := by
      simp only [List.length_cons, List.length_nil] at hi
      omega
    rcases hi' with rfl | rfl
    · change m'.symbols.lookup ":$" ≠ some ⟨1⟩
      rw [hbinds.handles _ _ hfirst]
      decide
    · change m'.symbols.lookup ":$:$" ≠ some ⟨1⟩
      rw [eq_of_bindInputs hbind, hnew]
      decide

end Machine

end Smil
