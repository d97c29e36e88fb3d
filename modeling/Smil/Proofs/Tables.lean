import Smil.Proofs.Memory

/-!
# The table of names as a map

Where an entry is kept depends on the hash of its name and on the entries before it, but what is
found under a name does not: each operation on the table changes what is found under one name and
leaves all others as they were.
-/

namespace Smil

namespace Bucket

variable {α : Type}

/-- A new entry is found under its name. -/
theorem lookup_insert {b : Bucket α} {name : String} (h : b.lookup name = none) (value : α)
    (other : String) :
    (b.insert name value).lookup other = if other = name then some value else b.lookup other := by
  unfold lookup at h
  simp only [lookup, insert, List.lookup_append]
  split
  · rename_i hname
    simp [hname, h]
  · rename_i hname
    rw [List.lookup_cons, beq_eq_false_iff_ne.mpr hname]
    exact Option.or_none

/-- Changing the value of a name. -/
theorem lookup_modify (b : Bucket α) (name : String) (f : α → α) (other : String) :
    (b.modify name f).lookup other =
      if other = name then (b.lookup other).map f else b.lookup other := by
  obtain ⟨entries, capacity⟩ := b
  simp only [lookup, modify]
  induction entries with
  | nil => simp
  | cons entry entries ih =>
    obtain ⟨key, value⟩ := entry
    rw [List.findIdx_cons]
    by_cases hkey : key = name
    · simp only [hkey, BEq.rfl, cond_true, List.modify_zero_cons, Prod.map_apply, id_eq,
        List.lookup_cons]
      by_cases hname : other = name
      · simp [hname]
      · simp [hname, beq_eq_false_iff_ne.mpr hname]
    · simp only [beq_eq_false_iff_ne.mpr hkey, cond_false, List.modify_succ_cons,
        List.lookup_cons]
      by_cases hname : other = key
      · simp [hname, hkey]
      · simp only [beq_eq_false_iff_ne.mpr hname]
        exact ih

end Bucket

namespace Table

variable {α σ : Type}

/-- An empty table has no names. -/
theorem lookup_empty (name : String) : (empty : Table α).lookup name = none := by
  simp [lookup, bucketFor, empty, Bucket.lookup, Bucket.empty]

/-- A bucket that is replaced holds the names of this bucket only. -/
theorem lookup_setBucket (t : Table α) (name : String) (b : Bucket α) (other : String) :
    (t.setBucket name b).lookup other =
      if bucketOf other = bucketOf name then b.lookup other else t.lookup other := by
  simp only [lookup, bucketFor, setBucket, Fin.getElem_fin, Vector.getElem_set, Fin.ext_iff]
  by_cases hbucket : (bucketOf other).val = (bucketOf name).val
  · simp [hbucket]
  · simp [hbucket, Ne.symm hbucket]

/-- A name that is asked for is there afterwards. -/
theorem lookup_getOrInsert (t : Table α) (name : String) (make : σ → α × σ) (s : σ)
    (other : String) :
    (t.getOrInsert name make s).2.2.lookup other =
      if other = name then some (t.getOrInsert name make s).1 else t.lookup other := by
  cases hlookup : t.lookup name with
  | some a =>
    rw [getOrInsert_of_some hlookup]
    split
    · rename_i hname
      rw [hname, hlookup]
    · rfl
  | none =>
    rw [getOrInsert_of_none hlookup]
    simp only [lookup_setBucket, Bucket.lookup_insert hlookup]
    by_cases hname : other = name
    · simp [hname]
    · by_cases hbucket : bucketOf other = bucketOf name
      · simp only [hname, hbucket, if_true, if_false, lookup, bucketFor]
      · simp only [hname, hbucket, if_false]

/-- Changing the value of a name. -/
theorem lookup_modify (t : Table α) (name : String) (f : α → α) (other : String) :
    (t.modify name f).lookup other =
      if other = name then (t.lookup name).map f else t.lookup other := by
  simp only [modify, lookup_setBucket, Bucket.lookup_modify]
  by_cases hname : other = name
  · simp only [hname, if_true]
    rfl
  · by_cases hbucket : bucketOf other = bucketOf name
    · simp only [hname, hbucket, if_true, if_false, lookup, bucketFor]
    · simp only [hname, hbucket, if_false]

/-- Replacing the value of a name. -/
theorem lookup_update (t : Table α) (name : String) (value : α) (other : String) :
    (t.update name value).2.lookup other =
      if other = name then (t.lookup name).map (fun _ => value) else t.lookup other :=
  t.lookup_modify name (fun _ => value) other

end Table

namespace Memory

/-- The handle of a variable is found under its name from then on. -/
theorem lookup_variableHandle (m : Memory) (name other : String) :
    (m.variableHandle name).2.symbols.lookup other =
      if other = name then some (m.variableHandle name).1 else m.symbols.lookup other :=
  m.symbols.lookup_getOrInsert name (fun heap : Heap => heap.alloc (.integer 0)) m.heap other

/-- A name that is rebound refers to its new object, whether the name was there or not. -/
theorem lookup_rebind (m : Memory) (name : String) (h : Handle) (other : String) :
    (m.rebind name h).symbols.lookup other =
      if other = name then some h else m.symbols.lookup other := by
  have hupdate := m.symbols.lookup_update name h
  have hold : (m.symbols.update name h).1 = m.symbols.lookup name := rfl
  unfold rebind
  split
  · rename_i old symbols heq
    rw [heq] at hupdate hold
    rw [← hold] at hupdate
    exact hupdate other
  · rename_i symbols heq
    rw [heq] at hupdate hold
    have hmissing : symbols.lookup name = none := by
      rw [hupdate, if_pos rfl, ← hold]
      rfl
    have hinsert := symbols.lookup_getOrInsert name (fun u => (h, u)) () other
    rw [Table.getOrInsert_of_none hmissing] at hinsert ⊢
    rw [hinsert, hupdate]
    split <;> rfl

end Memory

end Smil
