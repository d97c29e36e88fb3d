import Smil.Proofs.Generation
import Smil.Proofs.Numerals
import Smil.Proofs.Words
import Mathlib.Data.List.Induction
import Mathlib.Data.List.Nodup

/-!
# Operations that a chunk refuses

Two operations on a chunk can be refused: a jump whose distance does not fit into two bytes is not
pointed anywhere, and a name whose index does not fit has none. The distance is looked at before
anything is written, so a refused jump leaves the chunk as it was. The index of a name is looked at
only after the name has been added. So a new name that is refused stays in the table, which then
holds more names than two bytes can address.

Whatever is done to a chunk that starts empty, the table holds the names that were asked for, each
of them once and in the order in which they came first. An index that has been given keeps its
meaning, and the table goes beyond its limit exactly if a name has been refused.
-/

namespace Smil

namespace Bytecode.Chunk

open Assembly

/-! ### Operations -/

/-- What can be done to a chunk. -/
inductive Operation where
  | write (op : Opcode) (span : Span)
  | writeByte (b : UInt8) (span : Span)
  | writeWord (w : UInt16) (span : Span)
  | addName (name : String)
  | patchJump (offset : Nat)
deriving DecidableEq, Repr

/-- The name that an operation asks for. -/
def Operation.name? : Operation → Option String
  | addName name => some name
  | _ => none

/-- A jump can be pointed only if its distance has two bytes in the chunk. -/
def Operation.inRange (c : Chunk) : Operation → Bool
  | patchJump offset => offset + 2 ≤ c.size
  | _ => true

/-- Whether an operation is carried out, and the chunk that it leaves. -/
def perform (c : Chunk) : Operation → Bool × Chunk
  | .write op span => (true, c.write op span)
  | .writeByte b span => (true, c.writeByte b span)
  | .writeWord w span => (true, c.writeWord w span)
  | .addName name => ((c.addName name).1.isSome, (c.addName name).2)
  | .patchJump offset => c.patchJump offset

/-- The operation is not carried out. -/
def Refuses (c : Chunk) (op : Operation) : Prop :=
  (c.perform op).1 = false

/-- The chunk after operations on an empty one. -/
def after (ops : List Operation) : Chunk :=
  ops.foldl (fun c op => (c.perform op).2) empty

/-- Every jump is pointed where it can be. -/
def inRange : Chunk → List Operation → Bool
  | _, [] => true
  | c, op :: ops => op.inRange c && inRange (c.perform op).2 ops

/-- One more operation acts on what the others have left. -/
theorem after_concat (ops : List Operation) (op : Operation) :
    after (ops ++ [op]) = ((after ops).perform op).2 := by
  rw [after, List.foldl_append]
  rfl

/-! ### Operations in steps of a machine -/

/-- The index of a name, which is added to the table unless it is there. -/
def addNameInPlace (c : Chunk) (name : String) : Option (Option UInt16 × Chunk) :=
  match c.names.idxOf? name with
  | some i => some (word? i, c)
  | none => do
    let names := c.names.push name
    let last ← Word.sizeDifference names.size 1
    some (word? last, { c with names })

/-- Points a jump to the end of the chunk. -/
def patchInPlace (c : Chunk) (offset : Nat) : Option (Bool × Chunk) := do
  let rest ← Word.sizeDifference c.size offset
  let distance ← Word.sizeDifference rest 2
  match word? distance with
  | none => some (false, c)
  | some w =>
    let code ← Word.replaced c.code offset (w >>> 8).toUInt8
    let code ← Word.replaced code (offset + 1) w.toUInt8
    some (true, { c with code })

/-- Carries out an operation, if every step of it is defined. -/
def performInPlace (c : Chunk) : Operation → Option (Bool × Chunk)
  | .addName name => (c.addNameInPlace name).map fun answer => (answer.1.isSome, answer.2)
  | .patchJump offset => c.patchInPlace offset
  | op => some (c.perform op)

/-- The chunk after operations, if every step of them is defined. -/
def builtInPlace (c : Chunk) (ops : List Operation) : Option Chunk :=
  ops.foldlM (fun c op => (c.performInPlace op).map Prod.snd) c

/-- In place every step of asking for a name is defined, since the table is not empty behind a
push. -/
theorem addNameInPlace_eq (c : Chunk) (name : String) :
    c.addNameInPlace name = some (c.addName name) := by
  unfold addNameInPlace addName
  cases c.names.idxOf? name with
  | some i => rfl
  | none => simp [Word.sizeDifference]

/-- In place every step of pointing a jump is defined if the chunk has its two bytes. -/
theorem patchInPlace_eq {c : Chunk} {offset : Nat} (h : offset + 2 ≤ c.size) :
    c.patchInPlace offset = some (c.patchJump offset) := by
  have hrest : Word.sizeDifference c.size offset = some (c.size - offset) := if_pos (by omega)
  have hdistance : Word.sizeDifference (c.size - offset) 2 = some (c.size - offset - 2) :=
    if_pos (by omega)
  rw [patchInPlace, hrest, Option.bind_eq_bind, Option.bind_some, hdistance, Option.bind_eq_bind,
    Option.bind_some, patchJump, word?]
  by_cases hfits : c.size - offset - 2 < 65536
  · have hsecond : offset + 1 < c.code.size := h
    have hfirst : offset < c.code.size := Nat.lt_of_succ_lt hsecond
    rw [if_pos hfits, if_pos ⟨h, hfits⟩]
    simp [Word.replaced, hfirst, hsecond, setWord]
  · rw [if_neg hfits, if_neg (fun hboth => hfits hboth.2)]

/-- In place an operation does the same, where it is in range. -/
theorem performInPlace_eq {c : Chunk} {op : Operation} (h : op.inRange c = true) :
    c.performInPlace op = some (c.perform op) := by
  cases op with
  | addName name =>
    rw [performInPlace, addNameInPlace_eq]
    rfl
  | patchJump offset => exact patchInPlace_eq (of_decide_eq_true h)
  | _ => rfl

/-- In place a history builds the same chunk, where all of it is in range. -/
theorem builtInPlace_eq {c : Chunk} {ops : List Operation} (h : inRange c ops = true) :
    builtInPlace c ops = some (ops.foldl (fun c op => (c.perform op).2) c) := by
  induction ops generalizing c with
  | nil => rfl
  | cons op ops ih =>
    obtain ⟨hop, hops⟩ := Bool.and_eq_true_iff.mp h
    rw [builtInPlace, List.foldlM_cons, performInPlace_eq hop]
    exact ih hops

/-! ### What an operation does to the table -/

variable {c : Chunk} {name : String}

/-- A number has no word exactly if it needs more than two bytes. -/
theorem word?_eq_none_iff {n : Nat} : word? n = none ↔ 65536 ≤ n := by
  unfold word?
  split <;> simp <;> omega

/-- The word of a number is the number. -/
theorem toNat_of_word?_eq_some {n : Nat} {i : UInt16} (h : word? n = some i) : i.toNat = n := by
  unfold word? at h
  split at h
  · cases h
    exact UInt16.toNat_ofNat_of_lt' ‹_›
  · cases h

/-- Remembering a name gives it the index at which it was looked for: the one it has, or the
next. -/
theorem idxOf_remember (names : List String) (name : String) :
    (remember names name).idxOf name = names.idxOf name := by
  unfold remember
  split
  · rfl
  · rename_i hnew
    rw [List.idxOf_append_of_notMem hnew, List.idxOf_eq_length hnew, List.idxOf_cons_self]
    rfl

/-- A name that has been asked for is in the table. -/
theorem mem_remember (names : List String) (name : String) : name ∈ remember names name := by
  unfold remember
  split
  · rename_i hold
    exact hold
  · simp

/-- The answer is the index of the name among the names so far, if it has two bytes. -/
theorem addName_fst (c : Chunk) (name : String) :
    (c.addName name).1 = word? (c.names.toList.idxOf name) := by
  rw [Codegen.addName_eq, idxOf_remember]

/-- A name is refused exactly if its index needs more than two bytes. -/
theorem refuses_addName_iff : c.Refuses (.addName name) ↔ 65536 ≤ c.names.toList.idxOf name := by
  rw [Refuses, perform, addName_fst, Option.isSome_eq_false_iff, Option.isNone_iff_eq_none,
    word?_eq_none_iff]

/-- A jump is refused exactly if its distance needs more than two bytes. -/
theorem refuses_patchJump_iff {offset : Nat} (h : offset + 2 ≤ c.size) :
    c.Refuses (.patchJump offset) ↔ 65536 ≤ c.size - offset - 2 := by
  rw [Refuses, perform, patchJump]
  split <;> simp <;> omega

/-- Only a name changes the table, and only if it is new. -/
theorem names_perform (c : Chunk) (op : Operation) :
    (c.perform op).2.names.toList = op.name?.elim c.names.toList (remember c.names.toList) := by
  cases op with
  | addName name =>
    change (c.addName name).2.names.toList = _
    rw [Codegen.addName_eq]
    rfl
  | patchJump offset =>
    change (c.patchJump offset).2.names.toList = _
    unfold patchJump
    split <;> rfl
  | _ => rfl

/-! ### The table after operations -/

/-- The table holds the names that were asked for, each once and in the order in which they came
first. -/
theorem names_after (ops : List Operation) :
    (after ops).names.toList = (ops.filterMap Operation.name?).foldl remember [] := by
  induction ops using List.reverseRecOn with
  | nil => rfl
  | append_singleton ops op ih =>
    rw [after_concat, names_perform, ih, List.filterMap_append, List.foldl_append]
    cases hname : op.name? with
    | none =>
      rw [List.filterMap_cons_none hname]
      rfl
    | some name =>
      rw [List.filterMap_cons_some hname]
      rfl

/-- Names are only ever added, behind those that are there. -/
theorem names_after_mono {before ops : List Operation} (h : before <+: ops) :
    (after before).names.toList <+: (after ops).names.toList := by
  obtain ⟨later, rfl⟩ := h
  rw [names_after, names_after, List.filterMap_append, List.foldl_append]
  exact prefix_rememberAll _ _

/-- An index that was given once means its name from then on. -/
theorem getElem?_of_given {before ops : List Operation} {i : UInt16}
    (h : before ++ [.addName name] <+: ops) (hindex : ((after before).addName name).1 = some i) :
    (after ops).names[i.toNat]? = some name := by
  rw [addName_fst] at hindex
  have hnames : (after (before ++ [.addName name])).names.toList =
      remember (after before).names.toList name := by
    rw [after_concat, names_perform]
    rfl
  obtain ⟨later, hlater⟩ := hnames ▸ names_after_mono h
  have hmem := mem_remember (after before).names.toList name
  rw [toNat_of_word?_eq_some hindex, ← Array.getElem?_toList, ← hlater, ← idxOf_remember,
    List.getElem?_append_left (List.idxOf_lt_length_of_mem hmem)]
  exact List.getElem?_idxOf hmem

/-- One more name keeps the table within its limit exactly if its index is below the limit. -/
theorem length_remember_le_iff (names : List String) (name : String) :
    (remember names name).length ≤ 65536 ↔
      names.length ≤ 65536 ∧ names.idxOf name < 65536 := by
  unfold remember
  split
  · rename_i hold
    have hlt := List.idxOf_lt_length_of_mem hold
    omega
  · rename_i hnew
    rw [List.length_append, List.length_singleton, List.idxOf_eq_length hnew]
    omega

/-- An operation keeps the table within its limit unless it is a name that is refused. -/
theorem names_perform_le_iff (c : Chunk) (op : Operation) :
    (c.perform op).2.names.size ≤ 65536 ↔ c.names.size ≤ 65536 ∧
      ∀ name, op = .addName name → ¬ c.Refuses (.addName name) := by
  rw [← Array.length_toList, ← Array.length_toList, names_perform]
  cases op with
  | addName name =>
    refine (length_remember_le_iff _ name).trans (and_congr_right fun _ => ?_)
    simp [refuses_addName_iff]
  | _ => exact ⟨fun h => ⟨h, nofun⟩, And.left⟩

/-- The table is within its limit exactly if no name has been refused. -/
theorem names_after_le_iff (ops : List Operation) :
    (after ops).names.size ≤ 65536 ↔ ∀ before name, before ++ [.addName name] <+: ops →
      ¬ (after before).Refuses (.addName name) := by
  induction ops using List.reverseRecOn with
  | nil => simp [after, empty]
  | append_singleton ops op ih =>
    rw [after_concat, names_perform_le_iff, ih]
    constructor
    · rintro ⟨hbefore, hlast⟩ before name hprefix
      rcases List.prefix_concat_iff.mp hprefix with heq | hprefix
      · obtain ⟨rfl, hop⟩ := List.append_inj' heq rfl
        exact hlast name (List.singleton_inj.mp hop).symm
      · exact hbefore before name hprefix
    · intro h
      refine ⟨fun before name hprefix => h before name ?_, ?_⟩
      · exact hprefix.trans (List.prefix_append _ _)
      · rintro name rfl
        exact h ops name List.prefix_rfl

/-! ### What a refused operation leaves -/

/-- A refused operation changes nothing, unless it is a new name. -/
theorem perform_of_refuses {op : Operation} (h : c.Refuses op) :
    (c.perform op).2 = c ∨ ∃ name, op = .addName name ∧ name ∉ c.names ∧
      (c.perform op).2 = { c with names := c.names.push name } := by
  cases op with
  | addName name =>
    cases hindex : c.names.idxOf? name with
    | some i =>
      left
      simp [perform, addName, hindex]
    | none =>
      right
      refine ⟨name, rfl, Array.idxOf?_eq_none_iff.mp hindex, ?_⟩
      simp [perform, addName, hindex]
  | patchJump offset =>
    left
    by_cases hfits : offset + 2 ≤ c.size ∧ c.size - offset - 2 < 65536
    · rw [Refuses, perform, patchJump, if_pos hfits] at h
      cases h
    · rw [perform, patchJump, if_neg hfits]
  | _ => cases h

/-- Whatever is done to a chunk that starts empty, with each jump pointed where its distance stands:
every step is defined, no name is in the table twice, names are only added behind the others, and an
index that is given means its name from then on. The table stays within its limit exactly as long as
no name is refused. A name is refused if two bytes do not address its place, which is behind all
others if it is new, and a jump if its distance does not fit into two bytes. An operation that is
refused changes nothing, unless it is a new name: this is in the table afterwards. -/
theorem refusals_of_operations (ops : List Operation) (h : inRange empty ops = true) :
    builtInPlace empty ops = some (after ops) ∧
      (after ops).names.toList.Nodup ∧
      (∀ before, before <+: ops → (after before).names.toList <+: (after ops).names.toList) ∧
      (∀ before name i, before ++ [.addName name] <+: ops →
        ((after before).addName name).1 = some i → (after ops).names[i.toNat]? = some name) ∧
      ((after ops).names.size ≤ 65536 ↔ ∀ before name, before ++ [.addName name] <+: ops →
        ¬ (after before).Refuses (.addName name)) ∧
      (∀ name, (after ops).Refuses (.addName name) ↔
        65536 ≤ (after ops).names.toList.idxOf name) ∧
      (∀ offset, offset + 2 ≤ (after ops).size → ((after ops).Refuses (.patchJump offset) ↔
        65536 ≤ (after ops).size - offset - 2)) ∧
      ∀ op, (after ops).Refuses op → ((after ops).perform op).2 = after ops ∨
        ∃ name, op = .addName name ∧ name ∉ (after ops).names ∧
          ((after ops).perform op).2 = { after ops with names := (after ops).names.push name } := by
  refine ⟨builtInPlace_eq h, ?_, fun _ => names_after_mono, fun _ _ _ => getElem?_of_given,
    names_after_le_iff ops, fun _ => refuses_addName_iff, fun _ => refuses_patchJump_iff,
    fun _ => perform_of_refuses⟩
  rw [names_after]
  exact nodup_rememberAll List.nodup_nil _

/-- A jump over the load of a variable, whose name is asked for twice. -/
def loadBehindJump : List Operation :=
  [.write .jumpIfNotPositive .nowhere, .writeWord 0xFFFF .nowhere, .addName "x",
    .write .load .nowhere, .writeWord 0 .nowhere, .addName "x", .patchJump 1]

/-- The jump is pointed behind the load, and the name that is asked for twice is there once. -/
theorem refusals_of_loadBehindJump :
    inRange empty loadBehindJump = true ∧
      builtInPlace empty loadBehindJump =
        some ⟨#[19, 0, 3, 0, 0, 0], .replicate 6 .nowhere, #["x"]⟩ ∧
      (after loadBehindJump).names.toList.Nodup ∧
      ((after loadBehindJump).Refuses (.patchJump 1) ↔
        65536 ≤ (after loadBehindJump).size - 1 - 2) := by
  have hrange : inRange empty loadBehindJump = true := by decide +kernel
  have hafter : after loadBehindJump = ⟨#[19, 0, 3, 0, 0, 0], .replicate 6 .nowhere, #["x"]⟩ := by
    decide +kernel
  obtain ⟨hbuilt, hnodup, -, -, -, -, hjump, -⟩ := refusals_of_operations loadBehindJump hrange
  exact ⟨hrange, hafter ▸ hbuilt, hnodup, hjump 1 (by rw [hafter]; decide)⟩

/-! ### One name too many -/

/-- The name with a number. -/
def numberedName (i : Nat) : String :=
  "n" ++ Text.decimal i

/-- Asks for as many numbered names. -/
def numbered (count : Nat) : List Operation :=
  ((List.range count).map numberedName).map .addName

/-- Different numbers have different names. -/
theorem numberedName_injective : Function.Injective numberedName := by
  have htoList : ∀ i, (numberedName i).toList = 'n' :: Nat.toDigits 10 i := by
    intro i
    rw [numberedName, String.toList_append, Text.toList_decimal]
    simp
  intro i j h
  have hdigits : Nat.toDigits 10 i = Nat.toDigits 10 j := by
    have hlists := congrArg String.toList h
    rw [htoList, htoList] at hlists
    exact List.tail_eq_of_cons_eq hlists
  rw [← Nat.ofDigitChars_ten_toDigits (n := i), hdigits, Nat.ofDigitChars_ten_toDigits]

/-- Names that are all different are all added. -/
theorem foldl_remember_of_nodup {old added : List String} (h : (old ++ added).Nodup) :
    added.foldl remember old = old ++ added := by
  induction added generalizing old with
  | nil => simp
  | cons name added ih =>
    have hnew : name ∉ old := fun hold =>
      (List.nodup_append.mp h).2.2 name hold name List.mem_cons_self rfl
    rw [List.foldl_cons, remember, if_neg hnew, ih (by simpa using h), List.append_assoc]
    rfl

/-- The table holds the numbered names in order. -/
theorem names_after_numbered (count : Nat) :
    (after (numbered count)).names.toList = (List.range count).map numberedName := by
  have hasked : (numbered count).filterMap Operation.name? =
      (List.range count).map numberedName := by
    rw [numbered, List.filterMap_map]
    exact List.filterMap_some
  rw [names_after, hasked]
  exact foldl_remember_of_nodup (List.Nodup.map numberedName_injective List.nodup_range)

/-- The table holds as many numbered names as have been asked for. -/
theorem size_after_numbered (count : Nat) : (after (numbered count)).names.size = count := by
  rw [← Array.length_toList, names_after_numbered, List.length_map, List.length_range]

/-- Asking for names points no jump. -/
theorem inRange_numbered (c : Chunk) (count : Nat) : inRange c (numbered count) = true := by
  unfold numbered
  generalize (List.range count).map numberedName = names
  induction names generalizing c with
  | nil => rfl
  | cons name names ih => exact ih _

/-- Beyond the limit the next name has no index, but it is added. -/
theorem addName_numbered {count : Nat} (h : 65536 ≤ count) :
    ((after (numbered count)).addName (numberedName count)).1 = none ∧
      ((after (numbered count)).addName (numberedName count)).2 = after (numbered (count + 1)) := by
  have hnew : numberedName count ∉ (after (numbered count)).names.toList := by
    rw [names_after_numbered, List.mem_map]
    rintro ⟨i, hi, hname⟩
    rw [numberedName_injective hname, List.mem_range] at hi
    exact Nat.lt_irrefl _ hi
  have hsucc : numbered (count + 1) = numbered count ++ [.addName (numberedName count)] := by
    simp [numbered, List.range_succ]
  refine ⟨?_, ?_⟩
  · rw [addName_fst, word?_eq_none_iff, List.idxOf_eq_length hnew, Array.length_toList,
      size_after_numbered]
    exact h
  · rw [hsucc, after_concat]
    rfl

/-- Each further name changes the chunk, whether it is refused or not. -/
theorem after_numbered_succ_ne (count : Nat) :
    after (numbered (count + 1)) ≠ after (numbered count) := by
  intro hsame
  have hsize := size_after_numbered (count + 1)
  rw [hsame, size_after_numbered] at hsize
  omega

/-- After `65536` names one more has no index, and yet it is in the table. -/
theorem refused_name_remains :
    inRange empty (numbered 65537) = true ∧
      (after (numbered 65536)).names.size = 65536 ∧
      ((after (numbered 65536)).addName (numberedName 65536)).1 = none ∧
      ((after (numbered 65536)).addName (numberedName 65536)).2 ≠ after (numbered 65536) ∧
      (after (numbered 65537)).names.size = 65537 := by
  obtain ⟨hindex, hchunk⟩ := addName_numbered (Nat.le_refl 65536)
  refine ⟨inRange_numbered _ _, size_after_numbered _, hindex, ?_, size_after_numbered _⟩
  rw [hchunk]
  exact after_numbered_succ_ne 65536

end Bytecode.Chunk

end Smil
