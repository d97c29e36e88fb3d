import Smil.Machine.Run

/-!
# What outlives a run

Heap, names, evaluation stack and output are the memory of a machine; the operand stack is not part
of it. The operations of the language on a memory are total: an object is read through any handle,
and the outcome of a write says whether the line was written.

A memory is valid if every handle that it stores belongs to an object. Every operation keeps a
memory valid, and no operation takes an object away.
-/

namespace Smil

/-- The part of a machine that outlives a run. -/
structure Memory where
  heap : Heap
  symbols : Table Handle
  stack : Stack Handle
  out : Sink
deriving Inhabited

/-- The memory of a machine. -/
def Machine.memory (m : Machine) : Memory :=
  ⟨m.heap, m.symbols, m.stack, m.out⟩

namespace Memory

/-- A machine with this memory and the given operands, the top first. -/
def machine (m : Memory) (operands : List Handle) : Machine :=
  ⟨operands, m.heap, m.symbols, m.stack, m.out⟩

/-- The object behind a handle. -/
def object (m : Memory) (h : Handle) : Value :=
  (m.heap.get? h).getD default

/-- Creates an object. -/
def create (v : Value) (m : Memory) : Handle × Memory :=
  ((m.heap.alloc v).1, { m with heap := (m.heap.alloc v).2 })

/-- Overwrites the object behind a handle. -/
def store (h : Handle) (v : Value) (m : Memory) : Memory :=
  { m with heap := m.heap.set h v }

/-- The handle of a variable; a new variable holds the integer zero. -/
def variableHandle (name : String) (m : Memory) : Handle × Memory :=
  let (h, heap, symbols) :=
    m.symbols.getOrInsert name (fun heap => heap.alloc (.integer 0)) m.heap
  (h, { m with heap, symbols })

/-- Makes a name refer to an object, whether the name is new or not. -/
def rebind (name : String) (h : Handle) (m : Memory) : Memory :=
  match m.symbols.update name h with
  | (some _, symbols) => { m with symbols }
  | (none, symbols) => { m with symbols := (symbols.getOrInsert name (fun u => (h, u)) ()).2.2 }

/-- Pushes a handle onto the evaluation stack. -/
def push (h : Handle) (m : Memory) : Memory :=
  { m with stack := m.stack.push h }

/-- Pops the evaluation stack. -/
def pop (m : Memory) : Option Handle × Memory :=
  (m.stack.pop.1, { m with stack := m.stack.pop.2 })

/-- Empties the evaluation stack. -/
def clear (m : Memory) : Memory :=
  { m with stack := m.stack.clear }

/-- Writes a line; the answer is whether all of it was written. -/
def writeLine (line : String) (m : Memory) : Bool × Memory :=
  ((m.out.write (line ++ "\n").toUTF8).1,
    { m with out := (m.out.write (line ++ "\n").toUTF8).2 })

end Memory

/-! ### Tables and stacks of handles -/

/-- An entry of a bucket in which a value was changed is an old entry or holds the changed value. -/
theorem Bucket.mem_modify {α : Type} {b : Bucket α} {name : String} {f : α → α}
    {entry : String × α} (h : entry ∈ (b.modify name f).entries) :
    ∃ old ∈ b.entries, entry = old ∨ entry = Prod.map id f old := by
  obtain ⟨i, hi⟩ := List.mem_iff_getElem?.mp h
  rw [Bucket.modify, List.getElem?_modify] at hi
  obtain ⟨old, hold, rfl⟩ := Option.map_eq_some_iff.mp hi
  refine ⟨old, List.mem_iff_getElem?.mpr ⟨i, hold⟩, ?_⟩
  split
  · exact Or.inr rfl
  · exact Or.inl rfl

namespace Table

variable {α σ : Type} {p : α → Prop}

/-- Every value of the table has a property. -/
def All (p : α → Prop) (t : Table α) : Prop :=
  ∀ i : Fin bucketCount, ∀ entry ∈ t.buckets[i].entries, p entry.2

/-- A weaker property of all values of a table. -/
theorem All.mono {q : α → Prop} {t : Table α} (ht : t.All p) (h : ∀ a, p a → q a) : t.All q :=
  fun i entry hentry => h entry.2 (ht i entry hentry)

/-- A value that is found is one of the table's. -/
theorem All.lookup {t : Table α} (ht : t.All p) {name : String} {a : α}
    (h : t.lookup name = some a) : p a := by
  obtain ⟨before, after, hentries, _⟩ := List.lookup_eq_some_iff.mp h
  exact ht (bucketOf name) (name, a) (by
    rw [show t.buckets[bucketOf name].entries = _ from hentries]
    simp)

/-- Replacing a bucket by one whose values have the property. -/
theorem All.setBucket {t : Table α} (ht : t.All p) (name : String) {b : Bucket α}
    (hb : ∀ entry ∈ b.entries, p entry.2) : (t.setBucket name b).All p := by
  intro i entry hentry
  simp only [Table.setBucket, Fin.getElem_fin, Vector.getElem_set] at hentry
  split at hentry
  · exact hb entry hentry
  · exact ht i entry hentry

/-- A name that is there keeps its value, and nothing is made. -/
theorem getOrInsert_of_some {t : Table α} {name : String} {a : α} (h : t.lookup name = some a)
    (make : σ → α × σ) (s : σ) : t.getOrInsert name make s = (a, s, t) := by
  have hbucket : (t.bucketFor name).lookup name = some a := h
  simp only [Table.getOrInsert, hbucket]

/-- A name that is missing gets the value that is made. -/
theorem getOrInsert_of_none {t : Table α} {name : String} (h : t.lookup name = none)
    (make : σ → α × σ) (s : σ) :
    t.getOrInsert name make s =
      ((make s).1, (make s).2, t.setBucket name ((t.bucketFor name).insert name (make s).1)) := by
  have hbucket : (t.bucketFor name).lookup name = none := h
  simp only [Table.getOrInsert, hbucket]

/-- An entry added to a bucket of the table. -/
theorem All.insert {t : Table α} (ht : t.All p) (name : String) {a : α} (ha : p a) :
    (t.setBucket name ((t.bucketFor name).insert name a)).All p := by
  refine ht.setBucket name fun entry hentry => ?_
  rcases List.mem_append.mp hentry with hold | hnew
  · exact ht (bucketOf name) entry hold
  · rw [List.mem_singleton.mp hnew]
    exact ha

/-- An entry added to the table unless its name is there. -/
theorem All.getOrInsert {t : Table α} (ht : t.All p) (name : String) {a : α} (ha : p a) :
    (t.getOrInsert name (fun u => (a, u)) ()).2.2.All p := by
  cases hlookup : t.lookup name with
  | some b =>
    rw [getOrInsert_of_some hlookup]
    exact ht
  | none =>
    rw [getOrInsert_of_none hlookup]
    exact ht.insert name ha

/-- Replacing the value of a name. -/
theorem All.update {t : Table α} (ht : t.All p) (name : String) {a : α} (ha : p a) :
    (t.update name a).2.All p := by
  refine ht.setBucket name fun entry hentry => ?_
  obtain ⟨old, hold, rfl | rfl⟩ := Bucket.mem_modify hentry
  · exact ht (bucketOf name) entry hold
  · exact ha

end Table

namespace Stack

variable {α : Type} {p : α → Prop}

/-- Every value of the stack has a property. Slots above the top do not count. -/
def All (p : α → Prop) (s : Stack α) : Prop :=
  ∀ i < s.top, ∀ a, s.slots[i]? = some (some a) → p a

/-- A weaker property of all values of a stack. -/
theorem All.mono {q : α → Prop} {s : Stack α} (hs : s.All p) (h : ∀ a, p a → q a) : s.All q :=
  fun i hi a ha => h a (hs i hi a ha)

/-- Growing changes no slot in use. -/
theorem getElem?_grown {slots : Array (Option α)} {top i : Nat} {a : α}
    (h : (grown slots top)[i]? = some (some a)) : slots[i]? = some (some a) := by
  unfold grown at h
  split at h
  · rw [Array.getElem?_append] at h
    split at h
    · exact h
    · simp [Array.getElem?_replicate] at h
  · exact h

/-- A value with the property is pushed. -/
theorem All.push {s : Stack α} (hs : s.All p) {a : α} (ha : p a) : (s.push a).All p := by
  intro i hi b hb
  by_cases htop : s.top = i
  · simp only [Stack.push, Array.getElem?_setIfInBounds, htop, if_true] at hb
    split at hb
    · obtain rfl := Option.some.inj (Option.some.inj hb)
      exact ha
    · cases hb
  · simp only [Stack.push, Array.getElem?_setIfInBounds, htop, if_false] at hb
    have hlt : i < s.top := by
      change i < s.top + 1 at hi
      omega
    exact hs i hlt b (getElem?_grown hb)

/-- Popping looks at the slot below the top and lowers the top to it. -/
theorem pop_of_succ {s : Stack α} {top : Nat} (h : s.top = top + 1) :
    s.pop = (s.slots[top]?.join, ⟨s.slots, top⟩) := by
  unfold Stack.pop
  rw [h]

/-- An empty stack is left as it is. -/
theorem pop_of_zero {s : Stack α} (h : s.top = 0) : s.pop = (none, s) := by
  unfold Stack.pop
  rw [h]

/-- What is left of the stack by a pop, whether it finds a value or not. -/
theorem All.pop {s : Stack α} (hs : s.All p) : s.pop.2.All p := by
  cases htop : s.top with
  | zero =>
    rw [pop_of_zero htop]
    exact hs
  | succ top =>
    rw [pop_of_succ htop]
    exact fun i hi => hs i (htop ▸ Nat.lt_succ_of_lt hi)

/-- The value that is popped. -/
theorem All.popped {s : Stack α} (hs : s.All p) {a : α} (h : s.pop.1 = some a) : p a := by
  cases htop : s.top with
  | zero =>
    rw [pop_of_zero htop] at h
    cases h
  | succ top =>
    rw [pop_of_succ htop] at h
    exact hs top (htop ▸ Nat.lt_succ_self top) a (Option.join_eq_some_iff.mp h)

end Stack

/-! ### Valid memories -/

namespace Memory

/-- Whether a handle belongs to an object. -/
def Owns (m : Memory) (h : Handle) : Prop :=
  m.heap.contains h = true

/-- Every handle in the table of names and on the evaluation stack belongs to an object. -/
structure Valid (m : Memory) : Prop where
  symbols : m.symbols.All m.Owns
  stack : m.stack.All m.Owns

variable {m : Memory} {h : Handle}

/-- A handle belongs to an object if its index is below the number of objects. -/
theorem owns_iff : m.Owns h ↔ h.index < m.heap.size := by
  simp [Owns, Heap.contains]

/-- A new machine stores no handles. -/
theorem new_valid (out : Sink) : (Machine.new out).memory.Valid := by
  refine ⟨fun i entry hentry => ?_, fun i hi => absurd hi (Nat.not_lt_zero i)⟩
  simp [Machine.memory, Machine.new, Table.empty, Bucket.empty] at hentry

/-- The object behind a handle that belongs to one. -/
theorem get?_of_owns (hh : m.Owns h) : m.heap.get? h = some (m.object h) := by
  have hlt := owns_iff.mp hh
  simp [object, Heap.get?, Array.getElem?_eq_getElem (show h.index < m.heap.objects.size from hlt)]

/-- A memory with the same names and stack and at least as many objects is valid too. -/
theorem Valid.of_heap (hm : m.Valid) {heap : Heap} (hsize : m.heap.size ≤ heap.size) :
    Valid { m with heap } := by
  have howns : ∀ h, m.Owns h → Owns { m with heap } h := fun h hh =>
    owns_iff.mpr (Nat.lt_of_lt_of_le (owns_iff.mp hh) hsize)
  exact ⟨hm.symbols.mono howns, hm.stack.mono howns⟩

/-- A new object adds one to their number. -/
theorem size_alloc (heap : Heap) (v : Value) : (heap.alloc v).2.size = heap.size + 1 := by
  simp [Heap.alloc, Heap.size]

/-- Overwriting an object keeps their number. -/
theorem size_set (heap : Heap) (h : Handle) (v : Value) : (heap.set h v).size = heap.size := by
  simp [Heap.set, Heap.size]

/-- One memory has at least the objects of another. -/
def Extends (m m' : Memory) : Prop :=
  m.heap.size ≤ m'.heap.size

/-- A handle still belongs to an object when there are more. -/
theorem Owns.extends {m' : Memory} (hh : m.Owns h) (he : m.Extends m') : m'.Owns h :=
  owns_iff.mpr (Nat.lt_of_lt_of_le (owns_iff.mp hh) he)

/-- A new object has a handle of its own. -/
theorem create_valid (hm : m.Valid) (v : Value) :
    (m.create v).2.Valid ∧ (m.create v).2.Owns (m.create v).1 ∧ m.Extends (m.create v).2 := by
  have hsize : (m.create v).2.heap.size = m.heap.size + 1 := size_alloc m.heap v
  refine ⟨hm.of_heap (by rw [size_alloc]; omega), ?_, ?_⟩
  · refine owns_iff.mpr ?_
    rw [hsize]
    exact Nat.lt_succ_self _
  · unfold Extends
    omega

/-- Overwriting an object loses none. -/
theorem store_valid (hm : m.Valid) (h : Handle) (v : Value) :
    (m.store h v).Valid ∧ m.Extends (m.store h v) :=
  ⟨hm.of_heap (Nat.le_of_eq (size_set m.heap h v).symm), Nat.le_of_eq (size_set m.heap h v).symm⟩

/-- A variable has a handle, and it has one of its own if it is new. -/
theorem variableHandle_valid (hm : m.Valid) (name : String) :
    (m.variableHandle name).2.Valid ∧ (m.variableHandle name).2.Owns (m.variableHandle name).1 ∧
      m.Extends (m.variableHandle name).2 := by
  unfold variableHandle
  cases hlookup : m.symbols.lookup name with
  | some h =>
    rw [Table.getOrInsert_of_some hlookup]
    exact ⟨hm, hm.symbols.lookup hlookup, Nat.le_refl _⟩
  | none =>
    rw [Table.getOrInsert_of_none hlookup]
    obtain ⟨hvalid, howns, hext⟩ := create_valid hm (.integer 0)
    exact ⟨⟨hvalid.symbols.insert name howns, hvalid.stack⟩, howns, hext⟩

/-- Rebinding a name changes the table of names only. -/
theorem rebind_eq (name : String) (h : Handle) (m : Memory) :
    m.rebind name h = { m with symbols := (m.rebind name h).symbols } := by
  unfold rebind
  split <;> rfl

/-- A name may get any handle that belongs to an object. -/
theorem rebind_valid (hm : m.Valid) (name : String) (hh : m.Owns h) :
    (m.rebind name h).Valid ∧ m.Extends (m.rebind name h) := by
  have hupdated := hm.symbols.update name hh
  unfold rebind
  rcases hupdate : m.symbols.update name h with ⟨_ | old, symbols⟩
  · rw [hupdate] at hupdated
    exact ⟨⟨hupdated.getOrInsert name hh, hm.stack⟩, Nat.le_refl _⟩
  · rw [hupdate] at hupdated
    exact ⟨⟨hupdated, hm.stack⟩, Nat.le_refl _⟩

/-- A handle that belongs to an object may be pushed onto the evaluation stack. -/
theorem push_valid (hm : m.Valid) (hh : m.Owns h) : (m.push h).Valid ∧ m.Extends (m.push h) :=
  ⟨⟨hm.symbols, hm.stack.push hh⟩, Nat.le_refl _⟩

/-- Popping keeps a memory valid, and a handle that is popped belongs to an object. -/
theorem pop_valid (hm : m.Valid) :
    m.pop.2.Valid ∧ (∀ h, m.pop.1 = some h → m.pop.2.Owns h) ∧ m.Extends m.pop.2 :=
  ⟨⟨hm.symbols, hm.stack.pop⟩, fun _ => hm.stack.popped, Nat.le_refl _⟩

/-- An evaluation stack without values has no handles. -/
theorem clear_valid (hm : m.Valid) : m.clear.Valid ∧ m.Extends m.clear :=
  ⟨⟨hm.symbols, fun i hi => absurd hi (Nat.not_lt_zero i)⟩, Nat.le_refl _⟩

/-- Writing a line touches no handle. -/
theorem writeLine_valid (hm : m.Valid) (line : String) :
    (m.writeLine line).2.Valid ∧ m.Extends (m.writeLine line).2 :=
  ⟨⟨hm.symbols, hm.stack⟩, Nat.le_refl _⟩

end Memory

end Smil
