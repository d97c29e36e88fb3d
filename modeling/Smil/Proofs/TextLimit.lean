import Smil.Proofs.Frames
import Smil.Proofs.ResultSizes

/-!
# The size of stored texts

Whatever is stored on the heap is an integer, the result of an operator, a copy of an object, or an
argument. None of these brings in a text beyond the limit that was not there before, except for an
argument. So in a session whose arguments are within the limit every text on the heap is, also in
the middle of a run and whatever chunks are run.
-/

namespace Smil

open Bytecode

/-! ### Objects -/

namespace Heap

/-- Every object of the heap has a property. -/
def All (p : Value → Prop) (heap : Heap) : Prop :=
  ∀ h v, heap.get? h = some v → p v

variable {p : Value → Prop} {heap : Heap} {v : Value}

/-- A new object with the property. -/
theorem All.alloc (hheap : heap.All p) (hv : p v) : (heap.alloc v).2.All p := by
  intro h w hw
  simp only [Heap.alloc, get?, Array.getElem?_push] at hw
  split at hw
  · cases hw
    exact hv
  · exact hheap h w hw

/-- An object is overwritten by one with the property. -/
theorem All.set (hheap : heap.All p) (hv : p v) (handle : Handle) : (heap.set handle v).All p := by
  intro h w hw
  simp only [Heap.set, get?, Array.getElem?_setIfInBounds] at hw
  split at hw
  · split at hw
    · cases hw
      exact hv
    · cases hw
  · exact hheap h w hw

end Heap

namespace Memory

variable {m m' : Memory} {i : Instruction}

/-- The memory holds no text beyond the limit. -/
def Within (m : Memory) : Prop :=
  m.heap.All (Value.AtMost maxTextBytes)

/-- What is read is within the limit; the value of a missing object is an integer. -/
theorem Within.object (hm : m.Within) (h : Handle) : (m.object h).AtMost maxTextBytes := by
  unfold Memory.object
  cases hget : m.heap.get? h with
  | none => trivial
  | some v => exact hm h v hget

/-- A new variable holds an integer, so no text is added. -/
theorem Within.variableHandle (hm : m.Within) (name : String) :
    (m.variableHandle name).2.Within := by
  cases hname : m.symbols.lookup name with
  | some h =>
    rw [variableHandle_of_some hname]
    exact hm
  | none =>
    unfold Within
    rw [(variableHandle_of_none hname).2]
    exact Heap.All.alloc hm trivial

/-- What an assignment stores is a copy or an integer. -/
theorem atMost_stored (mode : AssignMode) {bound : Nat} {v : Value} (hv : v.AtMost bound) :
    (Machine.stored mode v).AtMost bound := by
  cases mode with
  | copy => exact hv
  | truthy | negated => trivial

/-- No instruction brings a text beyond the limit into the memory. -/
theorem Change.within (h : m.Change i m') (hm : m.Within) : m'.Within := by
  have hpopped : ∀ name h, (m.pop.2.rebind name h).Within := by
    intro name h
    rw [rebind_eq]
    exact hm
  cases h with
  | load name => exact hm.variableHandle name
  | loadNamed _ => exact hm.variableHandle _
  | assign mode _ _ => exact Heap.All.set hm (atMost_stored mode (hm.object _)) _
  | binary _ _ hv =>
    have hresult := Value.atMost_of_operate (Nat.le_refl _) hv (hm.object _) (hm.object _)
    exact Heap.All.alloc hm hresult
  | length _ => exact Heap.All.alloc hm trivial
  | line _ hline =>
    have hheap : m.heap = m'.heap := congrArg (fun r => r.2.heap) hline
    unfold Within
    rw [← hheap]
    exact hm
  | stackPush _ => exact hm
  | stackPop name _ => exact hpopped name _
  | stackPopNamed _ _ => exact hpopped _ _
  | stackClear => exact hm
  | keep _ => exact hm

end Memory

/-! ### Sessions -/

namespace Machine

/-- An argument within the limit is stored as it is or as an integer. -/
theorem atMost_ofInput {bound : Nat} {arg : String} (h : arg.utf8ByteSize ≤ bound) :
    (Value.ofInput arg).AtMost bound := by
  unfold Value.ofInput
  split
  · trivial
  · exact h

/-- Binding arguments within the limit. -/
theorem within_bindFrom {inputs : List String}
    (hinputs : ∀ input ∈ inputs, input.utf8ByteSize ≤ maxTextBytes) (index : Nat) {m : Machine}
    (hm : m.memory.Within) : (m.bindFrom index inputs).memory.Within := by
  induction inputs generalizing index m with
  | nil => exact hm
  | cons arg inputs ih =>
    have hrest : ∀ input ∈ inputs, input.utf8ByteSize ≤ maxTextBytes := fun input hinput =>
      hinputs input (List.mem_cons_of_mem arg hinput)
    have harg := atMost_ofInput (hinputs arg List.mem_cons_self)
    rw [bindFrom_cons]
    exact ih hrest (index + 1) (Heap.All.set (hm.variableHandle (inputName index)) harg _)

namespace Event

/-- Arguments that are bound are within the limit. -/
def BindsWithin : Event → Prop
  | bound inputs => ∀ input ∈ inputs, input.utf8ByteSize ≤ 1 <<< 28
  | _ => True

end Event

variable {s s' : Situation} {e : Event} {m : Machine} {chunk : Chunk}

/-- What happens in a session brings no text beyond the limit into the memory. -/
theorem Transition.within (h : Transition s e s') (hs : s.2.Intact) (he : e.BindsWithin)
    (hwithin : s.2.memory.Within) : s'.2.memory.Within := by
  cases h with
  | bound required hbind =>
    rw [eq_of_bindInputs hbind]
    exact within_bindFrom he 0 hwithin
  | named m name => exact hwithin.variableHandle name
  | drained m => exact hwithin
  | started m chunk => exact hwithin
  | executed hfetch hstep => exact (Transition.change (.executed hfetch hstep) hs).within hwithin
  | stopped hstep =>
    rw [hs.memory_of_stop hstep]
    exact hwithin
  | @failed m m' _ _ _ hstep =>
    have hheap : m'.heap = m.heap := (hs.spared_of_step hstep).heap
    change m'.heap.All _
    rw [hheap]
    exact hwithin

/-- A session whose arguments are within the limit brings no text beyond it into the memory. -/
theorem Leads.within (h : Leads (fun _ e => e.BindsWithin) s s') (hs : s.2.Intact)
    (hwithin : s.2.memory.Within) : s'.2.memory.Within := by
  induction h with
  | refl => exact hwithin
  | tail hbefore hlast ih =>
    obtain ⟨e, he, htransition⟩ := hlast
    exact htransition.within (Leads.intact hbefore hs) he ih

/-- No event of a run binds arguments. -/
theorem Event.bindsWithin_of_isOfRun (h : e.isOfRun = true) : e.BindsWithin := by
  cases e with
  | bound inputs => cases h
  | _ => trivial

/-- No text on the heap is larger than the limit, in any state of a session on one machine whose
arguments are not: whatever chunks are run, in the middle of a run and after each, and in the
machine that a further run leaves. -/
theorem texts_within_limit {out : Sink} {s : Situation}
    (h : Leads (fun _ e => e.BindsWithin) (.idle, new out) s) :
    (∀ handle text, s.2.heap.get? handle = some (.text text) → text.utf8ByteSize ≤ 1 <<< 28) ∧
    ∀ budget chunk result last, s.1 = .idle → s.2.run budget chunk = some (result, last) →
      ∀ handle text, last.heap.get? handle = some (.text text) →
        text.utf8ByteSize ≤ 1 <<< 28 := by
  have hreached : ∀ {t : Situation}, Leads (fun _ e => e.BindsWithin) (.idle, new out) t →
      ∀ handle text, t.2.heap.get? handle = some (.text text) →
        text.utf8ByteSize ≤ 1 <<< 28 := by
    intro t ht handle text htext
    have hnew : (new out).memory.Within := by
      intro h v hv
      simp [memory, new, Heap.empty, Heap.get?] at hv
    exact ht.within (intact_new out) hnew handle _ htext
  refine ⟨hreached h, ?_⟩
  intro budget chunk result last hidle hrun
  obtain ⟨activity, m⟩ := s
  cases hidle
  exact hreached (h.trans ((leads_of_run hrun).mono fun _ _ => Event.bindsWithin_of_isOfRun))

/-- Removes the second input from the first. -/
def removeInput : Chunk :=
  ⟨#[Opcode.load.toByte, 0, 0, Opcode.load.toByte, 0, 1, (Opcode.binary .subtract).toByte,
    Opcode.finish.toByte], #[], #[":$", ":$:$"]⟩

/-- A session that binds two texts and removes one from the other. -/
theorem texts_within_limit_removed : ∃ m last,
    (new .unlimited).bindInputs 2 ["naïve", "ï"] = .ok m ∧
    m.run 4 removeInput = some (.ok .finished, last) ∧
    Leads (fun _ e => e.BindsWithin) (.idle, new .unlimited) (.idle, last) ∧
    last.heap.get? ⟨2⟩ = some (.text "nave") ∧ "nave".utf8ByteSize ≤ 1 <<< 28 := by
  have hrun : (((new .unlimited).bindFrom 0 ["naïve", "ï"]).run 4 removeInput).map
      (fun r => (r.1, r.2.heap.get? ⟨2⟩)) = some (.ok .finished, some (.text "nave")) := by
    decide +kernel
  obtain ⟨⟨result, last⟩, hlast, heq⟩ := Option.map_eq_some_iff.mp hrun
  obtain ⟨rfl, htext⟩ := Prod.mk.inj heq
  have hinputs : ∀ input ∈ ["naïve", "ï"], input.utf8ByteSize ≤ 1 <<< 28 := by decide +kernel
  have hbound : Leads (fun _ e => e.BindsWithin) (.idle, new .unlimited)
      (.idle, (new .unlimited).bindFrom 0 ["naïve", "ï"]) :=
    .single ⟨.bound ["naïve", "ï"], hinputs, .bound 2 rfl⟩
  have hleads := (leads_of_run hlast).mono fun _ _ => Event.bindsWithin_of_isOfRun
  exact ⟨_, last, rfl, hlast, hbound.trans hleads, htext,
    (texts_within_limit hbound).2 4 removeInput _ last rfl hlast ⟨2⟩ "nave" htext⟩

end Machine

end Smil
