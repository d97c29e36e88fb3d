import Smil.Proofs.Failures
import Smil.Proofs.Tables

/-!
# What a session leaves alone

A session is a sequence of transitions, each with an event that says what was done. From the
memories on both sides of a transition one can tell what was left alone: no name and no object is
lost, names keep their handles unless the event pops into them, and objects stay as they are unless
the event stores.
-/

namespace Smil

open Bytecode

/-! ### What a memory keeps -/

namespace Memory

variable {m m' m'' : Memory} {rebound rebound' : String → Prop} {stored stored' : Handle → Prop}

/-- From one memory to another no object and no name is lost, only some names get other handles and
only some objects are overwritten. -/
structure Frame (rebound : String → Prop) (stored : Handle → Prop) (m m' : Memory) : Prop where
  size : m.Extends m'
  names : ∀ name h, m.symbols.lookup name = some h → m'.symbols.lookup name = some h ∨
    rebound name ∧ (m'.symbols.lookup name).isSome = true
  objects : ∀ h, m.Owns h → m'.heap.get? h = m.heap.get? h ∨ stored h

/-- Where heap and names are the same, everything is left alone. -/
theorem frame_of_eq (hheap : m'.heap = m.heap) (hsymbols : m'.symbols = m.symbols) :
    Frame rebound stored m m' := by
  refine ⟨?_, ?_, ?_⟩
  · exact Nat.le_of_eq (congrArg Heap.size hheap.symm)
  · intro name h hname
    rw [hsymbols]
    exact Or.inl hname
  · intro h _
    rw [hheap]
    exact Or.inl rfl

/-- More names may get other handles, and more objects may be overwritten. -/
theorem Frame.mono (h : Frame rebound stored m m') (hrebound : ∀ name, rebound name → rebound' name)
    (hstored : ∀ h, stored h → stored' h) : Frame rebound' stored' m m' := by
  refine ⟨h.size, ?_, ?_⟩
  · intro name handle hname
    exact (h.names name handle hname).imp_right fun hother => ⟨hrebound name hother.1, hother.2⟩
  · intro handle hhandle
    exact (h.objects handle hhandle).imp_right (hstored handle)

/-- One frame after another, where no name gets another handle. -/
theorem Frame.trans (h : Frame (fun _ => False) stored m m')
    (h' : Frame (fun _ => False) stored m' m'') : Frame (fun _ => False) stored m m'' := by
  refine ⟨Nat.le_trans h.size h'.size, ?_, ?_⟩
  · intro name handle hname
    rcases h.names name handle hname with hkept | ⟨hfalse, -⟩
    · exact h'.names name handle hkept
    · exact hfalse.elim
  · intro handle hhandle
    rcases h.objects handle hhandle with hkept | hstored
    · rw [← hkept]
      exact h'.objects handle (hhandle.extends h.size)
    · exact Or.inr hstored

/-- A new object takes the place of no other. -/
theorem frame_create (v : Value) (m : Memory) : Frame rebound stored m (m.create v).2 := by
  refine ⟨?_, fun name h hname => Or.inl hname, ?_⟩
  · rw [Extends, show (m.create v).2.heap.size = _ from size_alloc m.heap v]
    exact Nat.le_succ _
  · intro h hh
    have hlt : h.index < m.heap.objects.size := owns_iff.mp hh
    left
    simp only [create, Heap.alloc, Heap.get?, Array.getElem?_push]
    rw [if_neg (Nat.ne_of_lt hlt)]

/-- Storing overwrites the object behind one handle. -/
theorem frame_store (h : Handle) (v : Value) (m : Memory) :
    Frame rebound (· = h) m (m.store h v) := by
  refine ⟨Nat.le_of_eq (size_set m.heap h v).symm, fun name h hname => Or.inl hname, ?_⟩
  intro other _
  by_cases hother : other = h
  · exact Or.inr hother
  · have hindex : h.index ≠ other.index := by
      intro heq
      exact hother (by rw [show other = ⟨other.index⟩ from rfl, ← heq])
    left
    simp only [store, Heap.set, Heap.get?, Array.getElem?_setIfInBounds, if_neg hindex]

/-- A name that is there keeps its handle when it is asked for. -/
theorem variableHandle_of_some {name : String} {h : Handle}
    (hname : m.symbols.lookup name = some h) :
    m.variableHandle name = (h, m) := by
  unfold variableHandle
  rw [Table.getOrInsert_of_some hname]

/-- A name that is missing gets the handle of a new object. -/
theorem variableHandle_of_none {name : String} (hname : m.symbols.lookup name = none) :
    (m.variableHandle name).1 = ⟨m.heap.size⟩ ∧
      (m.variableHandle name).2.heap = (m.create (.integer 0)).2.heap := by
  unfold variableHandle
  rw [Table.getOrInsert_of_none hname]
  exact ⟨rfl, rfl⟩

/-- Asking for a variable changes neither names nor objects that are there. -/
theorem frame_variableHandle (name : String) (m : Memory) :
    Frame rebound stored m (m.variableHandle name).2 := by
  cases hname : m.symbols.lookup name with
  | some h =>
    rw [variableHandle_of_some hname]
    exact frame_of_eq rfl rfl
  | none =>
    obtain ⟨-, hheap⟩ := variableHandle_of_none hname
    have hcreate : Frame rebound stored m (m.create (.integer 0)).2 := frame_create _ m
    refine ⟨?_, ?_, ?_⟩
    · rw [Extends, hheap]
      exact hcreate.size
    · intro other h hother
      have hne : other ≠ name := by
        rintro rfl
        cases hother.symm.trans hname
      rw [lookup_variableHandle, if_neg hne]
      exact Or.inl hother
    · rw [hheap]
      exact hcreate.objects

/-- Popping the evaluation stack into a name gives this name another handle. -/
theorem frame_rebind (name : String) (h : Handle) (m : Memory) :
    Frame (· = name) stored m (m.pop.2.rebind name h) := by
  have hrebind := rebind_eq name h m.pop.2
  refine ⟨?_, ?_, ?_⟩
  · rw [hrebind]
    exact Nat.le_refl _
  · intro other handle hother
    rw [lookup_rebind]
    split
    · rename_i hname
      exact Or.inr ⟨hname, rfl⟩
    · exact Or.inl hother
  · intro handle _
    rw [hrebind]
    exact Or.inl rfl

end Memory

/-! ### Instructions -/

namespace Instruction

/-- Whether an instruction pops the evaluation stack into a variable. -/
def isPop : Instruction → Bool
  | stackPop _ | stackPopNamed => true
  | _ => false

/-- The variable into which an instruction pops; its name may be the text of the operand on top. -/
def popTarget? (i : Instruction) (m : Machine) : Option String :=
  match i with
  | stackPop name => some name
  | stackPopNamed => m.operands.head?.bind fun h => (m.heap.get? h).map Value.toText
  | _ => none

/-- Whether an instruction overwrites an object. -/
def isAssign : Instruction → Bool
  | assign _ => true
  | _ => false

end Instruction

namespace Memory

variable {m m' : Memory} {i : Instruction}

/-- An instruction that pops into no variable leaves the handles of names alone, and overwrites an
object only if it assigns. -/
theorem Change.frame (h : m.Change i m') (hpop : i.isPop = false) :
    Frame (fun _ => False) (fun _ => i.isAssign = true) m m' := by
  cases h with
  | load name => exact frame_variableHandle name m
  | loadNamed _ => exact frame_variableHandle _ m
  | assign mode _ _ => exact (frame_store _ _ m).mono (fun _ => id) fun _ _ => rfl
  | binary _ _ _ => exact frame_create _ m
  | length _ => exact frame_create _ m
  | line _ hline =>
    have hheap : m.heap = m'.heap := congrArg (fun r => r.2.heap) hline
    have hsymbols : m.symbols = m'.symbols := congrArg (fun r => r.2.symbols) hline
    exact frame_of_eq hheap.symm hsymbols.symm
  | stackPush _ => exact frame_of_eq rfl rfl
  | stackPop name _ => cases hpop
  | stackPopNamed _ _ => cases hpop
  | stackClear => exact frame_of_eq rfl rfl
  | keep _ => exact frame_of_eq rfl rfl

/-- An assignment overwrites one object. -/
theorem Change.exists_target {mode : AssignMode} (h : m.Change (.assign mode) m') :
    ∃ target, Frame (fun _ => False) (· = target) m m' := by
  cases h with
  | @assign _ target _ _ _ => exact ⟨target, frame_store target _ m⟩
  | line hi _ => cases hi
  | keep hi => cases hi

/-- Popping into a variable gives this variable another handle. -/
theorem frame_of_afterPop {name : String} {next ip : Nat} {operands : List Handle}
    {last : Machine} {stored : Handle → Prop}
    (h : afterPop name next m operands = .ok (.goto ip) last) :
    Frame (· = name) stored m last.memory := by
  unfold afterPop at h
  split at h
  · cases h
    exact frame_rebind name _ m
  · cases h

end Memory

namespace Machine

variable {m m' : Machine} {i : Instruction} {next ip' : Nat}

/-- An instruction that goes on changes the handle of the name into which it pops, and of no other;
and it overwrites an object only if it assigns. -/
theorem frame_of_execute (hv : m.Valid) (h : execute i next m = .ok (.goto ip') m') :
    m.memory.Frame (i.popTarget? m = some ·) (fun _ => i.isAssign = true) m'.memory := by
  have hchanges := execute_changes i next hv
  rw [h] at hchanges
  obtain ⟨operands, memory, rfl⟩ : ∃ operands memory, m = Memory.machine memory operands :=
    ⟨m.operands, m.memory, rfl⟩
  cases i with
  | stackPop name =>
    rw [Memory.execute_stackPop] at h
    exact (Memory.frame_of_afterPop h).mono (fun _ hname => hname ▸ rfl) fun _ => id
  | stackPopNamed =>
    cases operands with
    | nil => cases h
    | cons named operands =>
      rw [Memory.execute_stackPopNamed next hv.head] at h
      have htarget : Instruction.stackPopNamed.popTarget? (memory.machine (named :: operands)) =
          some (memory.object named).toText :=
        congrArg (Option.map Value.toText) (Memory.get?_of_owns hv.head)
      exact (Memory.frame_of_afterPop h).mono (fun _ hname => hname ▸ htarget) fun _ => id
  | _ => exact (Memory.Change.frame hchanges rfl).mono (fun _ => False.elim) fun _ => id

/-! ### Events -/

namespace Event

/-- Whether the evaluation stack is popped into a variable. -/
def isPop : Event → Bool
  | executed i => i.isPop
  | _ => false

/-- The variable into which the evaluation stack is popped. -/
def popTarget? (e : Event) (m : Machine) : Option String :=
  match e with
  | executed i => i.popTarget? m
  | _ => none

/-- Whether an object may be overwritten: by an assignment or by binding inputs. -/
def stores : Event → Bool
  | bound _ => true
  | executed i => i.isAssign
  | _ => false

end Event

variable {s s' : Situation} {e : Event} {allowed : Situation → Event → Prop}

/-! ### What a transition keeps -/

/-- Binding an input may make its name, and stores in the object of this name. -/
theorem frame_bindFrom_singleton (index : Nat) (arg : String) (m : Machine) :
    m.memory.Frame (fun _ => False) (· = (m.memory.variableHandle (inputName index)).1)
      (m.bindFrom index [arg]).memory :=
  (Memory.frame_variableHandle _ m.memory).trans (Memory.frame_store _ _ _)

/-- Binding inputs makes names and overwrites objects, and gives no name another handle. -/
theorem frame_bindFrom (index : Nat) (inputs : List String) (m : Machine) :
    m.memory.Frame (fun _ => False) (fun _ => True) (m.bindFrom index inputs).memory := by
  induction inputs generalizing index m with
  | nil => exact Memory.frame_of_eq rfl rfl
  | cons arg inputs ih =>
    have hfirst := (frame_bindFrom_singleton index arg m).mono (fun _ => id) fun _ _ => trivial
    exact hfirst.trans (ih _ _)

/-- Binding inputs makes no names but those of the inputs. -/
theorem lookup_bindFrom {index : Nat} {inputs : List String} {name : String}
    (hname : ∀ i < inputs.length, name ≠ inputName (index + i)) (m : Machine) :
    (m.bindFrom index inputs).symbols.lookup name = m.symbols.lookup name := by
  induction inputs generalizing index m with
  | nil => rfl
  | cons input inputs ih =>
    have hfirst : name ≠ inputName index := hname 0 (Nat.zero_lt_succ _)
    have hrest : ∀ i < inputs.length, name ≠ inputName (index + 1 + i) := by
      intro i hi
      rw [Nat.add_assoc, Nat.add_comm 1 i]
      exact hname (i + 1) (Nat.succ_lt_succ hi)
    rw [bindFrom_cons, ih hrest]
    exact (m.memory.lookup_variableHandle (inputName index) name).trans (if_neg hfirst)

/-- A call that binds inputs binds all of them. -/
theorem eq_of_bindInputs {required : Nat} {inputs : List String}
    (h : m.bindInputs required inputs = .ok m') : m' = m.bindFrom 0 inputs := by
  unfold bindInputs at h
  split at h
  · cases h
  · exact (Except.ok.inj h).symm

/-- A step that reads an instruction and goes on has carried it out. -/
theorem execute_of_step {chunk : Chunk} {ip : Nat}
    (hfetch : Instruction.fetch chunk ip = .ok (i, next))
    (hstep : step chunk ip m = .ok (.goto ip') m') : execute i next m = .ok (.goto ip') m' := by
  unfold step at hstep
  rwa [hfetch] at hstep

/-- An event that is an instruction changes the memory as the instruction does. -/
theorem Transition.change (h : Transition s (.executed i) s') (hs : s.2.Intact) :
    s.2.memory.Change i s'.2.memory := by
  cases h with
  | @executed m _ _ _ _ next _ hfetch hstep =>
    have hchanges := execute_changes i next hs.valid
    change Changes i _ (execute i next m) at hchanges
    rwa [execute_of_step hfetch hstep] at hchanges

/-- An event changes the handle of the name into which it pops, and of no other; and objects are
overwritten only by events that store. -/
theorem Transition.frame (h : Transition s e s') (hs : s.2.Intact) :
    s.2.memory.Frame (e.popTarget? s.2 = some ·) (fun _ => e.stores = true) s'.2.memory := by
  cases h with
  | bound required hbind =>
    rw [eq_of_bindInputs hbind]
    exact (frame_bindFrom 0 _ _).mono (fun _ => False.elim) fun _ _ => rfl
  | named m name => exact Memory.frame_variableHandle name m.memory
  | drained m => exact Memory.frame_of_eq rfl rfl
  | started m chunk => exact Memory.frame_of_eq rfl rfl
  | executed hfetch hstep => exact frame_of_execute hs.valid (execute_of_step hfetch hstep)
  | stopped hstep =>
    have hmemory := hs.memory_of_stop hstep
    exact Memory.frame_of_eq (congrArg Memory.heap hmemory) (congrArg Memory.symbols hmemory)
  | failed hstep =>
    have hspared := hs.spared_of_step hstep
    exact Memory.frame_of_eq hspared.heap hspared.symbols

/-! ### Whole sessions -/

/-- Neither objects nor names are lost. -/
theorem Leads.extends (h : Leads allowed s s') (hs : s.2.Intact) :
    s.2.heap.size ≤ s'.2.heap.size ∧ ∀ name, (s.2.symbols.lookup name).isSome = true →
      (s'.2.symbols.lookup name).isSome = true := by
  induction h with
  | refl => exact ⟨Nat.le_refl _, fun _ => id⟩
  | @tail t _ hbefore hlast ih =>
    obtain ⟨e, -, htransition⟩ := hlast
    have hframe := htransition.frame (Leads.intact hbefore hs)
    refine ⟨Nat.le_trans ih.1 hframe.size, fun name hname => ?_⟩
    obtain ⟨handle, hhandle⟩ := Option.isSome_iff_exists.mp (ih.2 name hname)
    rcases hframe.names name handle hhandle with hkept | ⟨-, hsome⟩
    · exact Option.isSome_of_mem hkept
    · exact hsome

/-- A name into which nothing is popped keeps its handle. -/
theorem Leads.lookup_eq {name : String} {handle : Handle}
    (h : Leads (fun s e => e.popTarget? s.2 ≠ some name) s s') (hs : s.2.Intact)
    (hname : s.2.symbols.lookup name = some handle) :
    s'.2.symbols.lookup name = some handle := by
  induction h with
  | refl => exact hname
  | tail hbefore hlast ih =>
    obtain ⟨e, he, htransition⟩ := hlast
    have hframe := htransition.frame (Leads.intact hbefore hs)
    rcases hframe.names name handle ih with hkept | ⟨hpop, -⟩
    · exact hkept
    · exact absurd hpop he

/-- Where nothing is stored, the objects that are there stay as they are. -/
theorem Leads.get?_eq {handle : Handle} (h : Leads (fun _ e => e.stores = false) s s')
    (hs : s.2.Intact) (hhandle : s.2.heap.contains handle = true) :
    s'.2.heap.get? handle = s.2.heap.get? handle := by
  induction h with
  | refl => rfl
  | @tail t _ hbefore hlast ih =>
    obtain ⟨e, he, htransition⟩ := hlast
    have hframe := htransition.frame (Leads.intact hbefore hs)
    have howns : t.2.memory.Owns handle :=
      Memory.Owns.extends (m := s.2.memory) hhandle (Leads.extends hbefore hs).1
    rcases hframe.objects handle howns with hkept | hstores
    · exact hkept.trans ih
    · rw [he] at hstores
      cases hstores

end Machine

end Smil
