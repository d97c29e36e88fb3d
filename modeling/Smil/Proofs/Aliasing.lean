import Smil.Proofs.Frames

/-!
# Names share an object only by a pop

A new name gets a new object, so as long as nothing is popped into a variable different names have
different handles. Then storing through a handle is seen under one name at most.
-/

namespace Smil

open Bytecode

/-- Different names have different values. -/
def Table.Distinct {α : Type} (t : Table α) : Prop :=
  ∀ a b x, t.lookup a = some x → t.lookup b = some x → a = b

/-- Different names of some kind, as far as they are there, have different values. -/
def Table.DistinctOn {α : Type} (kind : String → Prop) (t : Table α) : Prop :=
  ∀ a b x, kind a → kind b → t.lookup a = some x → t.lookup b = some x → a = b

/-- Where all names are of the kind, nothing is left out. -/
theorem Table.distinctOn_true_iff {α : Type} {t : Table α} :
    t.DistinctOn (fun _ => True) ↔ t.Distinct :=
  ⟨fun h a b x => h a b x trivial trivial, fun h a b x _ _ => h a b x⟩

namespace Memory

variable {m m' : Memory} {i : Instruction} {kind : String → Prop}

/-- A new name gets a handle that no other name has. -/
theorem distinctOn_variableHandle (hv : m.Valid) (hd : m.symbols.DistinctOn kind) (name : String) :
    (m.variableHandle name).2.symbols.DistinctOn kind := by
  cases hname : m.symbols.lookup name with
  | some h =>
    rw [variableHandle_of_some hname]
    exact hd
  | none =>
    obtain ⟨hhandle, -⟩ := variableHandle_of_none hname
    have hnew : ∀ other, m.symbols.lookup other ≠ some (m.variableHandle name).1 := by
      intro other hother
      have hlt := owns_iff.mp (hv.symbols.lookup hother)
      rw [hhandle] at hlt
      exact Nat.lt_irrefl _ hlt
    intro a b h hkindA hkindB ha hb
    rw [lookup_variableHandle] at ha hb
    split at ha <;> split at hb
    · rename_i ha' hb'
      rw [ha', hb']
    · rw [← ha] at hb
      exact absurd hb (hnew b)
    · rw [← hb] at ha
      exact absurd ha (hnew a)
    · exact hd a b h hkindA hkindB ha hb

/-- Asking for a variable gives no two names one handle. -/
theorem distinct_variableHandle (hv : m.Valid) (hd : m.symbols.Distinct) (name : String) :
    (m.variableHandle name).2.symbols.Distinct :=
  Table.distinctOn_true_iff.mp
    (distinctOn_variableHandle hv (Table.distinctOn_true_iff.mpr hd) name)

/-- An instruction that pops into no variable keeps the handles of different names different. -/
theorem Change.distinct (h : m.Change i m') (hpop : i.isPop = false) (hv : m.Valid)
    (hd : m.symbols.Distinct) : m'.symbols.Distinct := by
  cases h with
  | load name => exact distinct_variableHandle hv hd name
  | loadNamed _ => exact distinct_variableHandle hv hd _
  | line _ hline =>
    have hsymbols : m.symbols = m'.symbols := congrArg (fun r => r.2.symbols) hline
    exact hsymbols ▸ hd
  | stackPop name _ => cases hpop
  | stackPopNamed _ _ => cases hpop
  | _ => exact hd

/-- Where no name gets another handle and one object at most is overwritten, the names of this
object are the only ones under which a change can be seen. -/
theorem Frame.lookup_of_changed {target : Handle} (h : Frame (fun _ => False) (· = target) m m')
    (hv : m.Valid) {name : String} (hname : (m.symbols.lookup name).isSome = true)
    (hchanged : (m'.symbols.lookup name).bind m'.heap.get? ≠
      (m.symbols.lookup name).bind m.heap.get?) : m.symbols.lookup name = some target := by
  obtain ⟨handle, hhandle⟩ := Option.isSome_iff_exists.mp hname
  rcases h.names name handle hhandle with hkept | ⟨hfalse, -⟩
  · rcases h.objects handle (hv.symbols.lookup hhandle) with hobject | htarget
    · rw [hkept, hhandle] at hchanged
      exact absurd hobject hchanged
    · rw [hhandle, htarget]
  · exact hfalse.elim

end Memory

namespace Machine

variable {m m' : Machine} {s s' : Situation} {e : Event}

/-- An input that is bound may be a new name, and a new name has a handle of its own. -/
theorem distinctOn_bindFrom {kind : String → Prop} (index : Nat) (inputs : List String)
    {m : Machine} (hm : m.Intact) (hd : m.symbols.DistinctOn kind) :
    (m.bindFrom index inputs).symbols.DistinctOn kind := by
  induction inputs generalizing index m with
  | nil => exact hd
  | cons arg inputs ih =>
    have hnamed := (hm.variableHandle (inputName index)).1
    exact ih (index + 1) (hnamed.set _ _)
      (Memory.distinctOn_variableHandle hm.valid.memory hd (inputName index))

/-- Binding inputs gives no two names one handle. -/
theorem distinct_bindFrom (index : Nat) (inputs : List String) {m : Machine} (hm : m.Intact)
    (hd : m.symbols.Distinct) : (m.bindFrom index inputs).symbols.Distinct :=
  Table.distinctOn_true_iff.mp
    (distinctOn_bindFrom index inputs hm (Table.distinctOn_true_iff.mpr hd))

/-- An event that is no pop keeps the handles of different names different. -/
theorem Transition.distinct (h : Transition s e s') (hs : s.2.Intact) (he : e.isPop = false)
    (hd : s.2.symbols.Distinct) : s'.2.symbols.Distinct := by
  cases h with
  | bound required hbind =>
    rw [eq_of_bindInputs hbind]
    exact distinct_bindFrom 0 _ hs hd
  | named m name => exact Memory.distinct_variableHandle hs.valid.memory hd name
  | drained m => exact hd
  | started m chunk => exact hd
  | executed hfetch hstep =>
    exact ((Transition.executed hfetch hstep).change hs).distinct he hs.valid.memory hd
  | @stopped m m' _ _ _ hstep =>
    have hsymbols : m'.symbols = m.symbols := congrArg Memory.symbols (hs.memory_of_stop hstep)
    exact hsymbols ▸ hd
  | @failed m m' _ _ _ hstep =>
    have hsymbols : m'.symbols = m.symbols := (hs.spared_of_step hstep).symbols
    exact hsymbols ▸ hd

/-- Without a pop different names have different handles all along. -/
theorem Leads.distinct (h : Leads (fun _ e => e.isPop = false) s s') (hs : s.2.Intact)
    (hd : s.2.symbols.Distinct) : s'.2.symbols.Distinct := by
  induction h with
  | refl => exact hd
  | tail hbefore hlast ih =>
    obtain ⟨e, he, htransition⟩ := hlast
    exact htransition.distinct (Leads.intact hbefore hs) he ih

/-- One name at most, of those that are there, has another value afterwards. -/
def ChangesOne (m m' : Machine) : Prop :=
  ∀ a b, (m.symbols.lookup a).isSome = true → (m.symbols.lookup b).isSome = true →
    m'.valueOf a ≠ m.valueOf a → m'.valueOf b ≠ m.valueOf b → a = b

/-- Where different names have different handles, a store through one handle is seen under one name
at most. -/
theorem changesOne_of_frame {target : Handle} (hm : m.Intact) (hd : m.symbols.Distinct)
    (h : m.memory.Frame (fun _ => False) (· = target) m'.memory) : ChangesOne m m' := by
  intro a b ha hb hchangedA hchangedB
  exact hd a b target (h.lookup_of_changed hm.valid.memory ha hchangedA)
    (h.lookup_of_changed hm.valid.memory hb hchangedB)

/-- Names share an object only by a pop. As long as a session pops into no variable, different names
have different handles; so an assignment and each input that is bound change the value of one name
at most, of those that are there. In any session names and objects stay once they are there. A name
keeps its handle while nothing is popped into it, and the object behind a handle is the same while
nothing is assigned and no inputs are bound. -/
theorem aliases_only_by_pop (out : Sink) :
    (∀ s, Leads (fun _ e => e.isPop = false) (.idle, new out) s →
      s.2.symbols.Distinct ∧
      (∀ mode s', Transition s (.executed (.assign mode)) s' → ChangesOne s.2 s'.2) ∧
      ∀ before arg after s', Transition s (.bound (before ++ arg :: after)) s' →
        ChangesOne (s.2.bindFrom 0 before) (s.2.bindFrom 0 (before ++ [arg])) ∧
          s'.2 = (s.2.bindFrom 0 (before ++ [arg])).bindFrom (before.length + 1) after) ∧
    ∀ s, Leads (fun _ _ => True) (.idle, new out) s →
      (∀ s', Leads (fun _ _ => True) s s' → s.2.heap.size ≤ s'.2.heap.size ∧
        ∀ name, (s.2.symbols.lookup name).isSome = true →
          (s'.2.symbols.lookup name).isSome = true) ∧
      (∀ name s', Leads (fun t e => e.popTarget? t.2 ≠ some name) s s' →
        ∀ h, s.2.symbols.lookup name = some h → s'.2.symbols.lookup name = some h) ∧
      ∀ s', Leads (fun _ e => e.stores = false) s s' →
        ∀ h, s.2.heap.contains h = true → s'.2.heap.get? h = s.2.heap.get? h := by
  refine ⟨fun s hs => ?_, fun s hs => ?_⟩
  · have hintact : s.2.Intact := hs.intact (intact_new out)
    have hdistinct : s.2.symbols.Distinct := by
      apply hs.distinct (intact_new out)
      intro a b h ha _
      cases (Table.lookup_empty a).symm.trans ha
    refine ⟨hdistinct, ?_, ?_⟩
    · intro mode s' htransition
      obtain ⟨target, hframe⟩ := (htransition.change hintact).exists_target
      exact changesOne_of_frame hintact hdistinct hframe
    · intro before arg after s' htransition
      refine ⟨?_, ?_⟩
      · rw [bindFrom_append]
        exact changesOne_of_frame (hintact.bindFrom 0 before)
          (distinct_bindFrom 0 before hintact hdistinct)
          (frame_bindFrom_singleton _ arg _)
      · cases htransition with
        | @bound m m' required _ hbind =>
          have hsplit := bindFrom_append 0 (before ++ [arg]) after m
          rw [List.append_assoc, List.singleton_append, List.length_append, Nat.zero_add] at hsplit
          exact (eq_of_bindInputs hbind).trans hsplit
  · have hintact : s.2.Intact := hs.intact (intact_new out)
    refine ⟨?_, ?_, ?_⟩
    · intro s' hleads
      exact hleads.extends hintact
    · intro name s' hleads h hname
      exact hleads.lookup_eq hintact hname
    · intro s' hleads h hh
      exact hleads.get?_eq hintact hh

/-- Assigns the first input to a variable. -/
def copyInput : Chunk :=
  ⟨#[Opcode.load.toByte, 0, 0, Opcode.load.toByte, 0, 1, Opcode.assign.toByte, 0], #[],
    #[":$", "b"]⟩

/-- A machine with an input. -/
def boundInput : Machine :=
  (new .unlimited).bindFrom 0 ["7"]

/-- The handle of the input, and the memory once it is loaded. -/
def loadedInput : Handle × Memory :=
  boundInput.memory.variableHandle ":$"

/-- The handle of the variable, and the memory once it is loaded behind the input. -/
def loadedBoth : Handle × Memory :=
  loadedInput.2.variableHandle "b"

/-- A step at a load pushes the handle of the variable. -/
theorem step_load {chunk : Chunk} {ip next : Nat} {name : String}
    (h : Instruction.fetch chunk ip = .ok (.load name, next)) (m : Memory)
    (operands : List Handle) :
    step chunk ip (m.machine operands) = .ok (.goto next)
      ((m.variableHandle name).2.machine ((m.variableHandle name).1 :: operands)) := by
  unfold step
  rw [h]
  rfl

/-- The assignment is seen under the name of the variable and under no other. -/
theorem aliases_only_by_pop_copyInput : ∃ s s',
    Leads (fun _ e => e.isPop = false) (.idle, new .unlimited) s ∧
    Transition s (.executed (.assign .copy)) s' ∧ s.2.symbols.Distinct ∧
    s.2.valueOf "b" = some (.integer 0) ∧ s'.2.valueOf "b" = some (.integer 7) ∧
    ChangesOne s.2 s'.2 := by
  have hinput : Instruction.fetch copyInput 0 = .ok (.load ":$", 3) := by decide +kernel
  have hboth : Instruction.fetch copyInput 3 = .ok (.load "b", 6) := by decide +kernel
  have hfetch : Instruction.fetch copyInput 6 = .ok (.assign .copy, 8) := by decide +kernel
  have hleads : Leads (fun _ e => e.isPop = false) (.idle, new .unlimited)
      (.running copyInput 6, loadedBoth.2.machine [loadedBoth.1, loadedInput.1]) := by
    have hbound : Transition (.idle, new .unlimited) (.bound ["7"]) (.idle, boundInput) :=
      .bound 1 rfl
    have hstarted := Transition.started boundInput copyInput
    have hfirst := Transition.executed hinput (step_load hinput boundInput.memory [])
    have hsecond := Transition.executed hboth (step_load hboth loadedInput.2 [loadedInput.1])
    exact (((Relation.ReflTransGen.single ⟨_, rfl, hbound⟩).tail ⟨_, rfl, hstarted⟩).tail
      ⟨_, rfl, hfirst⟩).tail ⟨_, rfl, hsecond⟩
  have hassign : Transition
      (.running copyInput 6, loadedBoth.2.machine [loadedBoth.1, loadedInput.1])
      (.executed (.assign .copy)) (.running copyInput 8,
        (loadedBoth.2.store loadedBoth.1 (loadedBoth.2.object loadedInput.1)).machine
          [loadedBoth.1]) := by
    refine .executed hfetch ?_
    unfold step
    rw [hfetch]
    refine Memory.execute_assign .copy 8 ?_ ?_ []
    · unfold Memory.Owns
      decide +kernel
    · unfold Memory.Owns
      decide +kernel
  obtain ⟨hdistinct, hassigns, -⟩ := (aliases_only_by_pop .unlimited).1 _ hleads
  exact ⟨_, _, hleads, hassign, hdistinct, by decide +kernel, by decide +kernel,
    hassigns _ _ hassign⟩

/-- Pushes the object of one variable and pops it into another. -/
def shareByPop : Chunk :=
  ⟨#[Opcode.load.toByte, 0, 0, Opcode.stackPush.toByte, Opcode.stackPop.toByte, 0, 1,
    Opcode.finish.toByte], #[], #["a", "b"]⟩

/-- A pop does make two names share an object. -/
example : ((new .unlimited).run 4 shareByPop).map
    (fun r => (r.2.symbols.lookup "a", r.2.symbols.lookup "b")) = some (some ⟨0⟩, some ⟨0⟩) := by
  decide +kernel

end Machine

end Smil
