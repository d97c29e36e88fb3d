import Smil.Proofs.Tables
import Mathlib.Data.Finmap
import Mathlib.Algebra.BigOperators.Fin

/-!
# The table of names is a finite map

Any sequence of operations on a table that starts empty gives the answers that a finite map gives.
Behind the answers the table keeps its entries in order: no bucket has a name twice, a name stands
in the bucket of its hash only, and the capacity of a bucket is the least multiple of the growth
step that its entries fit into. Insertion itself does not look for the name; that the name is new
comes from the lookup before it.
-/

namespace Smil

namespace Bucket

variable {α : Type} {b : Bucket α} {i : Fin bucketCount} {name : String}

/-- The names of a bucket in the order of their insertion. -/
def names (b : Bucket α) : List String :=
  b.entries.map Prod.fst

/-- A bucket in order: it has no name twice, all names belong into the bucket with this index, and
the capacity is as small as growing in steps allows. -/
structure TidyAt (i : Fin bucketCount) (b : Bucket α) : Prop where
  distinct : b.names.Nodup
  placed : ∀ name ∈ b.names, bucketOf name = i
  capacity : b.capacity = 10 * ((b.entries.length + 9) / 10)

/-- A bucket without entries is in order. -/
theorem tidyAt_empty (i : Fin bucketCount) : (empty : Bucket α).TidyAt i := by
  refine ⟨List.nodup_nil, ?_, ?_⟩
  · simp [names, empty]
  · simp [empty]

/-- A name that is not found is none of the names. -/
theorem not_mem_names (h : b.lookup name = none) : name ∉ b.names := by
  intro hmem
  obtain ⟨entry, hentry, rfl⟩ := List.mem_map.mp hmem
  have hne := List.lookup_eq_none_iff.mp h entry hentry
  simp at hne

/-- What is found under a name is what its only entry holds. -/
theorem TidyAt.mem_entries_iff (hb : b.TidyAt i) {value : α} :
    (name, value) ∈ b.entries ↔ b.lookup name = some value := by
  obtain ⟨entries, capacity⟩ := b
  have hdistinct : (entries.map Prod.fst).Nodup := hb.distinct
  clear hb
  change (name, value) ∈ entries ↔ entries.lookup name = some value
  induction entries with
  | nil => simp
  | cons entry entries ih =>
    obtain ⟨key, stored⟩ := entry
    obtain ⟨hnew, hrest⟩ := List.nodup_cons.mp hdistinct
    by_cases hname : name = key
    · subst hname
      have hother : (name, value) ∉ entries := fun hmem =>
        hnew (List.mem_map.mpr ⟨(name, value), hmem, rfl⟩)
      simp [hother, eq_comm]
    · rw [List.lookup_cons, beq_eq_false_iff_ne.mpr hname, ← ih hrest]
      simp [hname]

/-- A new name goes to the end, and a full bucket grows first. -/
theorem TidyAt.insert (hb : b.TidyAt i) (hname : bucketOf name = i) (h : b.lookup name = none)
    (value : α) : (b.insert name value).TidyAt i := by
  have hnames : (b.insert name value).names = b.names ++ [name] := by simp [names, Bucket.insert]
  refine ⟨?_, ?_, ?_⟩
  · rw [hnames]
    exact List.nodup_append.mpr ⟨hb.distinct, List.nodup_singleton name, by
      intro other hother new hnew
      rw [List.mem_singleton.mp hnew]
      rintro rfl
      exact not_mem_names h hother⟩
  · rw [hnames]
    intro other hother
    rcases List.mem_append.mp hother with hold | hnew
    · exact hb.placed other hold
    · rw [List.mem_singleton.mp hnew]
      exact hname
  · have hcapacity := hb.capacity
    simp only [Bucket.insert, bucketGrowth, List.length_append, List.length_singleton]
    split <;> omega

/-- Changing a value changes no name. -/
theorem names_modify (b : Bucket α) (name : String) (f : α → α) :
    (b.modify name f).names = b.names := by
  apply List.ext_getElem?
  intro i
  simp only [names, Bucket.modify, List.getElem?_map, List.getElem?_modify]
  cases b.entries[i]? with
  | none => rfl
  | some entry =>
    simp only [Option.map_eq_map, Option.map_some]
    split <;> rfl

/-- Changing a value moves nothing. -/
theorem TidyAt.modify (hb : b.TidyAt i) (name : String) (f : α → α) :
    (b.modify name f).TidyAt i := by
  have hnames := names_modify b name f
  refine ⟨by rw [hnames]; exact hb.distinct, by rw [hnames]; exact hb.placed, ?_⟩
  simpa [Bucket.modify] using hb.capacity

end Bucket

namespace Table

variable {α σ : Type} {t : Table α} {name : String}

/-! ### Tables in order -/

/-- All buckets are in order. -/
def Tidy (t : Table α) : Prop :=
  ∀ i : Fin bucketCount, (t.buckets.get i).TidyAt i

/-- A table without entries is in order. -/
theorem tidy_empty : (empty : Table α).Tidy := by
  intro i
  change Bucket.TidyAt i (Vector.replicate bucketCount Bucket.empty)[i.val]
  rw [Vector.getElem_replicate]
  exact Bucket.tidyAt_empty i

/-- In a table in order the bucket of a name is in order. -/
theorem Tidy.bucketFor (ht : t.Tidy) (name : String) :
    (t.bucketFor name).TidyAt (bucketOf name) :=
  ht (bucketOf name)

/-- A bucket may be replaced by another one in order. -/
theorem Tidy.setBucket (ht : t.Tidy) {b : Bucket α} (hb : b.TidyAt (bucketOf name)) :
    (t.setBucket name b).Tidy := by
  intro i
  change Bucket.TidyAt i (t.buckets.set (bucketOf name) b)[i.val]
  rw [Vector.getElem_set]
  by_cases hi : (bucketOf name).val = i.val
  · rw [if_pos hi, ← Fin.ext hi]
    exact hb
  · rw [if_neg hi]
    exact ht i

/-- Asking for a name keeps the table in order, also if the name is inserted. -/
theorem Tidy.getOrInsert (ht : t.Tidy) (name : String) (make : σ → α × σ) (s : σ) :
    (t.getOrInsert name make s).2.2.Tidy := by
  cases hlookup : t.lookup name with
  | some value =>
    rw [getOrInsert_of_some hlookup]
    exact ht
  | none =>
    rw [getOrInsert_of_none hlookup]
    exact ht.setBucket ((ht.bucketFor name).insert rfl hlookup _)

/-- Changing a value keeps the table in order. -/
theorem Tidy.modify (ht : t.Tidy) (name : String) (f : α → α) : (t.modify name f).Tidy :=
  ht.setBucket ((ht.bucketFor name).modify name f)

/-! ### Operations on tables and on finite maps -/

/-- What can be asked of a table. `make` is what is done to get a value for a missing name, and acts
on a state outside of the table; `write` changes a value in place. -/
inductive Operation (α σ : Type) where
  | getOrInsert (name : String) (make : σ → α × σ)
  | lookup (name : String)
  | write (name : String) (f : α → α)
  | update (name : String) (value : α)

namespace Operation

/-- The answer of a table, the state outside and the table after it. -/
def onTable : Operation α σ → Table α → σ → Option α × σ × Table α
  | getOrInsert name make, t, s =>
    let (value, s, t) := t.getOrInsert name make s
    (some value, s, t)
  | lookup name, t, s => (t.lookup name, s, t)
  | write name f, t, s => (t.lookup name, s, t.modify name f)
  | update name value, t, s =>
    let (old, t) := t.update name value
    (old, s, t)

/-- The answer of a finite map: a value is made only for a name that is missing, and only a name
that is there gets a new value. -/
def onMap : Operation α σ → Finmap (fun _ : String => α) → σ →
    Option α × σ × Finmap (fun _ : String => α)
  | getOrInsert name make, m, s =>
    match m.lookup name with
    | some value => (some value, s, m)
    | none => (some (make s).1, (make s).2, m.insert name (make s).1)
  | lookup name, m, s => (m.lookup name, s, m)
  | write name f, m, s =>
    match m.lookup name with
    | some value => (some value, s, m.insert name (f value))
    | none => (none, s, m)
  | update name value, m, s =>
    match m.lookup name with
    | some old => (some old, s, m.insert name value)
    | none => (none, s, m)

/-- Carries out operations one after the other and lists their answers. -/
def all {τ : Type} (perform : Operation α σ → τ → σ → Option α × σ × τ) :
    List (Operation α σ) → τ → σ → List (Option α) × σ × τ
  | [], t, s => ([], s, t)
  | op :: ops, t, s =>
    let (answer, s, t) := perform op t s
    let (answers, s, t) := all perform ops t s
    (answer :: answers, s, t)

end Operation

/-! ### The table as a map -/

/-- A table that stands for a finite map. The same is found under every name; a name is stored at
most once, in the bucket of its hash and nowhere else; the table counts the names; and a bucket has
the least capacity in steps of ten for the names that belong into it. -/
structure Represents (t : Table α) (m : Finmap fun _ : String => α) : Prop where
  lookup : ∀ name, t.lookup name = m.lookup name
  distinct : ∀ i : Fin bucketCount, (t.buckets.get i).names.Nodup
  mem_names : ∀ (i : Fin bucketCount) (name : String),
    name ∈ (t.buckets.get i).names ↔ name ∈ m ∧ (hashName name).toNat % 11 = i
  size : t.size = m.keys.card
  capacity : ∀ i : Fin bucketCount, t.capacity? i =
    some (10 * (((m.keys.filter fun name => (hashName name).toNat % 11 = i).card + 9) / 10))

/-- The number of names, bucket by bucket. -/
theorem size_eq_sum (t : Table α) :
    t.size = ∑ i : Fin bucketCount, (t.buckets.get i).entries.length := by
  have hfold : ∀ (bs : List (Bucket α)) (n : Nat),
      bs.foldl (fun n b => n + b.entries.length) n = n + (bs.map (·.entries.length)).sum := by
    intro bs
    induction bs with
    | nil => simp
    | cons b bs ih =>
      intro n
      rw [List.foldl_cons, ih, List.map_cons, List.sum_cons, Nat.add_assoc]
  have hlist : t.buckets.toList = List.ofFn fun i : Fin bucketCount => t.buckets.get i := by
    refine List.ext_getElem (by simp) fun i hi hi' => ?_
    rw [Vector.getElem_toList, List.getElem_ofFn]
    rfl
  rw [Table.size, hfold, hlist, List.map_ofFn, List.sum_ofFn, Nat.zero_add]
  rfl

section

variable {m : Finmap fun _ : String => α}

/-- A bucket in order has the names of the map that belong into it. -/
theorem mem_names_iff (ht : t.Tidy) (hlookup : ∀ name, t.lookup name = m.lookup name)
    (i : Fin bucketCount) (name : String) :
    name ∈ (t.buckets.get i).names ↔ name ∈ m ∧ bucketOf name = i := by
  constructor
  · intro hmem
    obtain rfl := (ht i).placed name hmem
    refine ⟨?_, rfl⟩
    rw [← Finmap.lookup_isSome, ← hlookup]
    by_contra hnone
    exact Bucket.not_mem_names (Option.not_isSome_iff_eq_none.mp hnone) hmem
  · rintro ⟨hmem, rfl⟩
    obtain ⟨value, hvalue⟩ := Finmap.mem_iff.mp hmem
    have hentry := (ht.bucketFor name).mem_entries_iff.mpr ((hlookup name).trans hvalue)
    exact List.mem_map.mpr ⟨(name, value), hentry, rfl⟩

/-- A bucket in order has as many entries as the map has names that belong into it. -/
theorem length_entries (ht : t.Tidy) (hlookup : ∀ name, t.lookup name = m.lookup name)
    (i : Fin bucketCount) :
    (t.buckets.get i).entries.length = (m.keys.filter fun name => bucketOf name = i).card := by
  have hnames : (t.buckets.get i).names.toFinset = m.keys.filter fun name => bucketOf name = i := by
    ext name
    rw [List.mem_toFinset, mem_names_iff ht hlookup, Finset.mem_filter, Finmap.mem_keys]
  rw [← hnames, List.toFinset_card_of_nodup (ht i).distinct, Bucket.names, List.length_map]

/-- A table in order stands for the map in which the same is found. -/
theorem Tidy.represents (ht : t.Tidy) (hlookup : ∀ name, t.lookup name = m.lookup name) :
    t.Represents m := by
  have hbucket : ∀ (name : String) (i : Fin bucketCount),
      (hashName name).toNat % 11 = i ↔ bucketOf name = i :=
    fun name i => (Fin.ext_iff (a := bucketOf name)).symm
  refine ⟨hlookup, fun i => (ht i).distinct, fun i name => ?_, ?_, fun i => ?_⟩
  · rw [hbucket, mem_names_iff ht hlookup]
  · have hmaps : ∀ name ∈ m.keys, bucketOf name ∈ Finset.univ := fun name _ => Finset.mem_univ _
    rw [size_eq_sum, Finset.card_eq_sum_card_fiberwise hmaps]
    exact Finset.sum_congr rfl fun i _ => length_entries ht hlookup i
  · simp only [hbucket, ← length_entries ht hlookup, ← (ht i).capacity]
    rw [capacity?, Vector.getElem?_eq_getElem i.isLt]
    rfl

/-- A table that has one value more, or another value under one name, keeps in step with the map. -/
theorem lookup_eq_insert (hlookup : ∀ name, t.lookup name = m.lookup name) {t' : Table α}
    {value : α}
    (h : ∀ other, t'.lookup other = if other = name then some value else t.lookup other)
    (other : String) : t'.lookup other = (m.insert name value).lookup other := by
  rw [h]
  by_cases hname : other = name
  · rw [if_pos hname, hname, Finmap.lookup_insert]
  · rw [if_neg hname, Finmap.lookup_insert_of_ne m hname, hlookup]

/-- A value that is changed in the table is one that is inserted anew in the map. -/
theorem lookup_modify_of_some (hlookup : ∀ name, t.lookup name = m.lookup name) {value : α}
    (h : m.lookup name = some value) (f : α → α) (other : String) :
    (t.modify name f).lookup other = (m.insert name (f value)).lookup other := by
  refine lookup_eq_insert hlookup (fun other => ?_) other
  rw [lookup_modify, hlookup name, h, Option.map_some]

/-- There is nothing to change under a name that is missing. -/
theorem lookup_modify_of_none (hlookup : ∀ name, t.lookup name = m.lookup name)
    (h : m.lookup name = none) (f : α → α) (other : String) :
    (t.modify name f).lookup other = m.lookup other := by
  rw [lookup_modify, hlookup name, h]
  by_cases hname : other = name
  · rw [if_pos hname, hname, h, Option.map_none]
  · rw [if_neg hname, hlookup]

/-- An answer of the table is that of the map, the state outside becomes the same, and the table
stays in order and in step with the map. -/
structure Agrees (x : Option α × σ × Table α) (y : Option α × σ × Finmap fun _ : String => α) :
    Prop where
  answer : x.1 = y.1
  outside : x.2.1 = y.2.1
  tidy : x.2.2.Tidy
  lookup : ∀ name, x.2.2.lookup name = y.2.2.lookup name

/-- Asking for a name that may have to be inserted. -/
theorem getOrInsert_agrees (ht : t.Tidy) (hlookup : ∀ name, t.lookup name = m.lookup name)
    (name : String) (make : σ → α × σ) (s : σ) :
    Agrees ((Operation.getOrInsert name make).onTable t s)
      ((Operation.getOrInsert name make).onMap m s) := by
  have htidy := ht.getOrInsert name make s
  have hfound := t.lookup_getOrInsert name make s
  cases h : m.lookup name with
  | some value =>
    simp only [Operation.onTable, Operation.onMap, h, getOrInsert_of_some ((hlookup name).trans h)]
    exact ⟨rfl, rfl, ht, hlookup⟩
  | none =>
    rw [getOrInsert_of_none ((hlookup name).trans h)] at htidy hfound
    simp only [Operation.onTable, Operation.onMap, h, getOrInsert_of_none ((hlookup name).trans h)]
    exact ⟨rfl, rfl, htidy, lookup_eq_insert hlookup hfound⟩

/-- Changing a value in place. -/
theorem write_agrees (ht : t.Tidy) (hlookup : ∀ name, t.lookup name = m.lookup name)
    (name : String) (f : α → α) (s : σ) :
    Agrees ((Operation.write name f).onTable t s) ((Operation.write name f).onMap m s) := by
  cases h : m.lookup name with
  | some value =>
    simp only [Operation.onTable, Operation.onMap, h, hlookup]
    exact ⟨rfl, rfl, ht.modify name f, lookup_modify_of_some hlookup h f⟩
  | none =>
    simp only [Operation.onTable, Operation.onMap, h, hlookup]
    exact ⟨rfl, rfl, ht.modify name f, lookup_modify_of_none hlookup h f⟩

/-- One operation on a table in order and on the map in which the same is found. -/
theorem onTable_agrees (ht : t.Tidy) (hlookup : ∀ name, t.lookup name = m.lookup name)
    (op : Operation α σ) (s : σ) : Agrees (op.onTable t s) (op.onMap m s) := by
  cases op with
  | getOrInsert name make => exact getOrInsert_agrees ht hlookup name make s
  | lookup name => exact ⟨hlookup name, rfl, ht, hlookup⟩
  | write name f => exact write_agrees ht hlookup name f s
  | update name value => exact write_agrees ht hlookup name (fun _ => value) s

/-- Any number of operations. -/
theorem all_agrees (ht : t.Tidy) (hlookup : ∀ name, t.lookup name = m.lookup name)
    (ops : List (Operation α σ)) (s : σ) :
    (Operation.all Operation.onTable ops t s).1 = (Operation.all Operation.onMap ops m s).1 ∧
      (Operation.all Operation.onTable ops t s).2.1 =
        (Operation.all Operation.onMap ops m s).2.1 ∧
      (Operation.all Operation.onTable ops t s).2.2.Represents
        (Operation.all Operation.onMap ops m s).2.2 := by
  induction ops generalizing t m s with
  | nil => exact ⟨rfl, rfl, ht.represents hlookup⟩
  | cons op ops ih =>
    have hfirst := onTable_agrees ht hlookup op s
    obtain ⟨hanswers, houtside, hrepresents⟩ := ih hfirst.tidy hfirst.lookup (op.onMap m s).2.1
    simp only [Operation.all, hfirst.answer, hfirst.outside, hanswers]
    exact ⟨trivial, houtside, hrepresents⟩

end

/-- The table of names is a finite map. Whatever is asked of a table that starts empty, its answers
and what is done to get new values are those of a finite map, and in the end the table represents
that map. -/
theorem answers_of_operations (ops : List (Operation α σ)) (s : σ) :
    (Operation.all Operation.onTable ops empty s).1 = (Operation.all Operation.onMap ops ∅ s).1 ∧
      (Operation.all Operation.onTable ops empty s).2.1 =
        (Operation.all Operation.onMap ops ∅ s).2.1 ∧
      (Operation.all Operation.onTable ops empty s).2.2.Represents
        (Operation.all Operation.onMap ops ∅ s).2.2 :=
  all_agrees tidy_empty (fun name => (lookup_empty name).trans (Finmap.lookup_empty name).symm)
    ops s

-- Two names in one bucket. A counter outside of the table shows for which names a value is made.
example : bucketOf "c" = bucketOf "n" ∧
    (Operation.all Operation.onTable
      [.getOrInsert "c" fun k => (k, k + 1), .update "n" 7, .getOrInsert "n" fun k => (k, k + 1),
        .write "c" (· + 5), .getOrInsert "c" fun k => (k, k + 1), .lookup "n"] empty 10).1 =
      [some 10, none, some 11, some 10, some 15, some 11] := by
  decide +kernel

end Table

end Smil
