/-!
# The table of names

A table maps names to values. It has a fixed number of buckets; the bucket of a name is its hash
modulo that number. A bucket lists its entries in the order of their insertion, and its capacity
grows by a fixed step whenever it is full.
-/

namespace Smil

/-- The number of buckets. -/
def bucketCount : Nat := 11

/-- By how much the capacity of a full bucket grows. -/
def bucketGrowth : Nat := 10

/-- Takes one more byte into a hash. -/
def hashStep (h : UInt32) (b : UInt8) : UInt32 :=
  b.toUInt32 + (h <<< 6) + (h <<< 16) - h

/-- The hash of a name, over its UTF-8 bytes. -/
def hashName (name : String) : UInt32 :=
  name.toUTF8.foldl hashStep 0

/-- The bucket of a name. -/
def bucketOf (name : String) : Fin bucketCount :=
  ⟨(hashName name).toNat % bucketCount, Nat.mod_lt _ (by decide)⟩

/-- Entries with the same bucket. -/
structure Bucket (α : Type) where
  entries : List (String × α)
  capacity : Nat
deriving Repr, Inhabited

namespace Bucket

variable {α : Type}

/-- The bucket without entries. -/
def empty : Bucket α := ⟨[], 0⟩

/-- The value of a name. -/
def lookup (b : Bucket α) (name : String) : Option α :=
  b.entries.lookup name

/-- Adds an entry at the end. -/
def insert (b : Bucket α) (name : String) (value : α) : Bucket α :=
  ⟨b.entries ++ [(name, value)],
    if b.entries.length = b.capacity then b.capacity + bucketGrowth else b.capacity⟩

/-- Changes the value in the first entry of a name. -/
def modify (b : Bucket α) (name : String) (f : α → α) : Bucket α :=
  { b with entries := b.entries.modify (b.entries.findIdx (·.1 == name)) (Prod.map id f) }

end Bucket

/-- A map from names to values. -/
structure Table (α : Type) where
  buckets : Vector (Bucket α) bucketCount
deriving Repr

namespace Table

variable {α σ : Type}

/-- The table without entries. -/
def empty : Table α := ⟨Vector.replicate bucketCount Bucket.empty⟩

instance : Inhabited (Table α) := ⟨empty⟩

/-- The bucket in which a name belongs. -/
def bucketFor (t : Table α) (name : String) : Bucket α :=
  t.buckets[bucketOf name]

/-- Replaces the bucket in which a name belongs. -/
def setBucket (t : Table α) (name : String) (b : Bucket α) : Table α :=
  ⟨t.buckets.set (bucketOf name) b⟩

/-- The value of a name. -/
def lookup (t : Table α) (name : String) : Option α :=
  (t.bucketFor name).lookup name

/-- The value of a name. A name that is missing is inserted with the value that `make` yields;
`make` acts on a state of the caller and is not used otherwise. -/
def getOrInsert (t : Table α) (name : String) (make : σ → α × σ) (state : σ) : α × σ × Table α :=
  let bucket := t.bucketFor name
  match bucket.lookup name with
  | some value => (value, state, t)
  | none =>
    let (value, state) := make state
    (value, state, t.setBucket name (bucket.insert name value))

/-- Changes the value of a name; a missing name stays missing. -/
def modify (t : Table α) (name : String) (f : α → α) : Table α :=
  t.setBucket name ((t.bucketFor name).modify name f)

/-- Replaces the value of a name and returns the old one; a missing name stays missing. -/
def update (t : Table α) (name : String) (value : α) : Option α × Table α :=
  (t.lookup name, t.modify name fun _ => value)

/-- The number of names. -/
def size (t : Table α) : Nat :=
  t.buckets.toList.foldl (fun n b => n + b.entries.length) 0

/-- The capacity of a bucket, if there is one with this index. -/
def capacity? (t : Table α) (index : Nat) : Option Nat :=
  t.buckets[index]?.map Bucket.capacity

end Table

end Smil
