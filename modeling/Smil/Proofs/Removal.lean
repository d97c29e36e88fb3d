import Smil.Proofs.Editing

/-!
# Removing one text from another

Occurrences of a pattern are removed from left to right, and an occurrence that overlaps one already
removed does not count. So a text falls into pieces: each piece but the last ends where the pattern
first occurs in what is left, and the last one does not have the pattern in it. These pieces are
determined by the text and the pattern, and the result is the pieces put together. Removing can
bring the pattern about again, as in `aabb` without `ab`; such an occurrence stays.
-/

namespace Smil.Text

/-! ### Occurrences -/

/-- The pattern stands in the text right behind `before`. -/
def OccursAfter (pattern before text : String) : Prop :=
  ∃ after, text = before ++ pattern ++ after

/-- The pattern stands somewhere in the text. -/
def Occurs (pattern text : String) : Prop :=
  ∃ before, OccursAfter pattern before text

/-- The first occurrence of the pattern in the text starts right behind `before`. -/
def FirstAfter (pattern before text : String) : Prop :=
  OccursAfter pattern before text ∧
    ∀ other, OccursAfter pattern other text → before.length ≤ other.length

/-- The pieces between the occurrences of the pattern, which are looked for from left to right, each
in what the one before has left. -/
structure Cuts (pattern text : String) (pieces : List String) : Prop where
  ne_nil : pieces ≠ []
  joined : pattern.intercalate pieces = text
  first : ∀ i piece, i + 1 < pieces.length → pieces[i]? = some piece →
    FirstAfter pattern piece (pattern.intercalate (pieces.drop i))
  last : ∀ piece, pieces.getLast? = some piece → ¬ Occurs pattern piece

variable {pattern before text piece rest : String} {pieces : List String}

/-- A pattern occurs behind a text if both in a row are a prefix. -/
theorem occursAfter_iff :
    OccursAfter pattern before text ↔ before.toList ++ pattern.toList <+: text.toList := by
  constructor
  · rintro ⟨after, rfl⟩
    rw [String.toList_append, String.toList_append]
    exact List.prefix_append _ _
  · rintro ⟨after, hafter⟩
    refine ⟨String.ofList after, ?_⟩
    rw [← String.toList_inj, String.toList_append, String.toList_append, String.toList_ofList]
    exact hafter.symm

/-- A pattern occurs if it is an infix. -/
theorem occurs_iff : Occurs pattern text ↔ pattern.toList <:+: text.toList := by
  constructor
  · rintro ⟨before, hbefore⟩
    exact (List.suffix_append _ _).isInfix.trans (occursAfter_iff.mp hbefore).isInfix
  · rintro ⟨before, after, heq⟩
    refine ⟨String.ofList before, occursAfter_iff.mpr ⟨after, ?_⟩⟩
    rw [String.toList_ofList]
    exact heq

/-- Where there is an occurrence there is a first one. -/
theorem exists_firstAfter {pattern before text : String} (h : OccursAfter pattern before text) :
    ∃ first, FirstAfter pattern first text := by
  by_cases hsmaller : ∃ other, OccursAfter pattern other text ∧ other.length < before.length
  · obtain ⟨other, hother, _⟩ := hsmaller
    exact exists_firstAfter hother
  · refine ⟨before, h, fun other hother => ?_⟩
    exact Nat.le_of_not_lt fun hlt => hsmaller ⟨other, hother, hlt⟩
termination_by before.length

/-- The first occurrence is at one place. -/
theorem FirstAfter.unique {other : String} (h : FirstAfter pattern before text)
    (h' : FirstAfter pattern other text) : before = other := by
  have hlength : before.toList.length = other.toList.length := by
    rw [String.length_toList, String.length_toList]
    exact Nat.le_antisymm (h.2 other h'.1) (h'.2 before h.1)
  obtain ⟨after, hafter⟩ := occursAfter_iff.mp h.1
  obtain ⟨after', hafter'⟩ := occursAfter_iff.mp h'.1
  rw [← hafter', List.append_assoc, List.append_assoc] at hafter
  exact String.toList_inj.mp (List.append_inj hafter hlength).1

/-! ### Pieces -/

/-- A text without the pattern is one piece. -/
theorem cuts_singleton (h : ¬ Occurs pattern text) : Cuts pattern text [text] where
  ne_nil := List.cons_ne_nil _ _
  joined := String.intercalate_singleton
  first := by
    intro i piece hi
    exact absurd hi (by simp)
  last := by
    intro piece hpiece
    cases hpiece
    exact h

/-- A text up to the first occurrence, and the pieces of what follows the pattern. -/
theorem Cuts.cons (hfirst : FirstAfter pattern piece (piece ++ pattern ++ rest))
    (hrest : Cuts pattern rest pieces) :
    Cuts pattern (piece ++ pattern ++ rest) (piece :: pieces) where
  ne_nil := List.cons_ne_nil _ _
  joined := by rw [String.intercalate_cons_of_ne_nil hrest.ne_nil, hrest.joined]
  first := by
    intro i other hi hother
    cases i with
    | zero =>
      cases hother
      rw [List.drop_zero, String.intercalate_cons_of_ne_nil hrest.ne_nil, hrest.joined]
      exact hfirst
    | succ i => exact hrest.first i other (Nat.lt_of_succ_lt_succ hi) hother
  last := by
    intro other hother
    rw [List.getLast?_cons_of_ne_nil hrest.ne_nil] at hother
    exact hrest.last other hother

/-- The first piece is the whole text, or it ends at the first occurrence and the other pieces are
those of what follows. -/
theorem Cuts.inversion (h : Cuts pattern text (piece :: pieces)) :
    (pieces = [] ∧ piece = text ∧ ¬ Occurs pattern text) ∨
      ∃ rest, text = piece ++ pattern ++ rest ∧ FirstAfter pattern piece text ∧
        Cuts pattern rest pieces := by
  cases pieces with
  | nil =>
    have hpiece : piece = text := String.intercalate_singleton.symm.trans h.joined
    refine Or.inl ⟨rfl, hpiece, ?_⟩
    rw [← hpiece]
    exact h.last piece rfl
  | cons next pieces =>
    have htext : piece ++ pattern ++ pattern.intercalate (next :: pieces) = text :=
      String.intercalate_cons_cons.symm.trans h.joined
    refine Or.inr ⟨pattern.intercalate (next :: pieces), htext.symm, ?_, ?_⟩
    · have hfirst := h.first 0 piece (by simp) rfl
      rwa [List.drop_zero, h.joined] at hfirst
    · refine ⟨List.cons_ne_nil _ _, rfl, ?_, ?_⟩
      · intro i other hi hother
        exact h.first (i + 1) other (Nat.succ_lt_succ hi) hother
      · intro other hother
        exact h.last other ((List.getLast?_cons_of_ne_nil (List.cons_ne_nil _ _)).trans hother)

/-- Every text has pieces; what follows an occurrence is shorter, since the pattern is not empty. -/
theorem exists_cuts (hpattern : pattern ≠ "") (text : String) :
    ∃ pieces, Cuts pattern text pieces := by
  by_cases hoccurs : Occurs pattern text
  · obtain ⟨before, hbefore⟩ := hoccurs
    obtain ⟨first, hfirst⟩ := exists_firstAfter hbefore
    obtain ⟨rest, hrest⟩ := hfirst.1
    have hshorter : rest.length < text.length := by
      have hpositive : pattern.length ≠ 0 := mt String.length_eq_zero_iff.mp hpattern
      rw [hrest, String.length_append, String.length_append]
      omega
    obtain ⟨pieces, hpieces⟩ := exists_cuts hpattern rest
    rw [hrest] at hfirst ⊢
    exact ⟨first :: pieces, hpieces.cons hfirst⟩
  · exact ⟨[text], cuts_singleton hoccurs⟩
termination_by text.length

/-- The pieces are determined by the text and the pattern. -/
theorem Cuts.unique {others : List String} (h : Cuts pattern text pieces)
    (h' : Cuts pattern text others) : pieces = others := by
  induction pieces generalizing text others with
  | nil => exact absurd rfl h.ne_nil
  | cons piece pieces ih =>
    cases others with
    | nil => exact absurd rfl h'.ne_nil
    | cons other others =>
      rcases h.inversion with ⟨rfl, rfl, hnot⟩ | ⟨rest, htext, hfirst, hrest⟩
      · rcases h'.inversion with ⟨rfl, rfl, -⟩ | ⟨rest', -, hfirst', -⟩
        · rfl
        · exact absurd ⟨other, hfirst'.1⟩ hnot
      · rcases h'.inversion with ⟨-, -, hnot⟩ | ⟨rest', htext', hfirst', hrest'⟩
        · exact absurd ⟨piece, hfirst.1⟩ hnot
        · obtain rfl := hfirst.unique hfirst'
          obtain rfl := (String.append_right_inj _).mp (htext.symm.trans htext')
          rw [ih hrest hrest']

/-! ### The scan -/

section Scan

variable {p front cs : List Char}

/-- Characters of an occurrence are passed over. -/
theorem removeFrom_length (p front cs kept : List Char) :
    removeFrom p front.length (front ++ cs) kept = removeFrom p 0 cs kept := by
  induction front with
  | nil => rfl
  | cons c front ih => exact ih

/-- Without the pattern all characters are kept. -/
theorem removeFrom_of_absent (h : ¬ p <:+: cs) (kept : List Char) :
    removeFrom p 0 cs kept = kept.reverse ++ cs := by
  induction cs generalizing kept with
  | nil => exact (List.append_nil _).symm
  | cons c cs ih =>
    have hstart : ¬ p.isPrefixOf (c :: cs) = true := by
      intro hprefix
      exact h (List.isPrefixOf_iff_prefix.mp hprefix).isInfix
    have hrest : ¬ p <:+: cs := fun hpart => h (hpart.trans (List.suffix_cons c cs).isInfix)
    rw [removeFrom, if_neg hstart, ih hrest, List.reverse_cons, List.append_assoc]
    rfl

/-- The characters before the first occurrence are kept, and the occurrence is passed over. -/
theorem removeFrom_of_first (hp : p ≠ [])
    (hfirst : ∀ other, other ++ p <+: front ++ p ++ cs → front.length ≤ other.length)
    (kept : List Char) :
    removeFrom p 0 (front ++ p ++ cs) kept = removeFrom p 0 cs (front.reverse ++ kept) := by
  induction front generalizing kept with
  | nil =>
    obtain ⟨c, tail, rfl⟩ := List.exists_cons_of_ne_nil hp
    have hstart : (c :: tail).isPrefixOf (c :: (tail ++ cs)) = true :=
      List.isPrefixOf_iff_prefix.mpr (List.prefix_append (c :: tail) cs)
    change removeFrom (c :: tail) 0 (c :: (tail ++ cs)) kept = _
    rw [removeFrom, if_pos hstart]
    exact removeFrom_length (c :: tail) tail cs kept
  | cons c front ih =>
    have hstart : ¬ p.isPrefixOf (c :: (front ++ p ++ cs)) = true := by
      intro hprefix
      have hzero := hfirst [] (List.isPrefixOf_iff_prefix.mp hprefix)
      exact absurd hzero (Nat.not_succ_le_zero _)
    have hrest : ∀ other, other ++ p <+: front ++ p ++ cs → front.length ≤ other.length := by
      intro other hother
      have hlonger := hfirst (c :: other) ((List.prefix_cons_inj c).mpr hother)
      exact Nat.le_of_succ_le_succ hlonger
    change removeFrom p 0 (c :: (front ++ p ++ cs)) kept = _
    rw [removeFrom, if_neg hstart, ih hrest, List.reverse_cons, List.append_assoc]
    rfl

end Scan

/-- The scan keeps the pieces. -/
theorem removeFrom_of_cuts (hpattern : pattern ≠ "") (h : Cuts pattern text pieces)
    (kept : List Char) :
    removeFrom pattern.toList 0 text.toList kept = kept.reverse ++ (String.join pieces).toList := by
  induction pieces generalizing text kept with
  | nil => exact absurd rfl h.ne_nil
  | cons piece pieces ih =>
    rw [String.join_cons]
    rcases h.inversion with ⟨rfl, rfl, hnot⟩ | ⟨rest, rfl, hfirst, hrest⟩
    · rw [removeFrom_of_absent (mt occurs_iff.mpr hnot), String.join_nil, String.append_empty]
    · have hchars : pattern.toList ≠ [] := by
        rwa [ne_eq, String.toList_eq_nil_iff]
      have hscan : ∀ other : List Char,
          other ++ pattern.toList <+: piece.toList ++ pattern.toList ++ rest.toList →
            piece.toList.length ≤ other.length := by
        intro other hother
        have hle := hfirst.2 (String.ofList other) (occursAfter_iff.mpr (by
          rw [String.toList_append, String.toList_append, String.toList_ofList]
          exact hother))
        rwa [String.length_ofList, ← String.length_toList] at hle
      rw [String.toList_append, String.toList_append, removeFrom_of_first hchars hscan, ih hrest,
        List.reverse_append, List.reverse_reverse, List.append_assoc, String.toList_append]

/-! ### The result -/

/-- An empty pattern removes nothing. -/
theorem removeAll_empty (s : String) : removeAll s "" = s :=
  if_pos rfl

/-- The result is the pieces put together. -/
theorem removeAll_eq_join (hpattern : pattern ≠ "") (h : Cuts pattern text pieces) :
    removeAll text pattern = String.join pieces := by
  have hfull : ¬ pattern.isEmpty = true := mt String.isEmpty_iff.mp hpattern
  rw [removeAll, if_neg hfull, removeFrom_of_cuts hpattern h, List.reverse_nil, List.nil_append,
    String.ofList_toList]

/-- A size that adds up over joined texts, such as the number of characters or of bytes, falls by
that of the pattern with each piece after the first. -/
theorem size_join_add {size : String → Nat} (happend : ∀ s t, size (s ++ t) = size s + size t)
    (pattern first : String) (rest : List String) :
    size (String.join (first :: rest)) + rest.length * size pattern =
      size (pattern.intercalate (first :: rest)) := by
  induction rest generalizing first with
  | nil =>
    rw [String.join_cons, String.join_nil, String.intercalate_singleton, String.append_empty,
      List.length_nil, Nat.zero_mul, Nat.add_zero]
  | cons next rest ih =>
    have hnext := ih next
    rw [String.join_cons, happend, String.intercalate_cons_cons, happend, happend,
      List.length_cons, Nat.succ_mul]
    omega

/-- Removing never makes a text larger. -/
theorem utf8ByteSize_removeAll_le (text pattern : String) :
    (removeAll text pattern).utf8ByteSize ≤ text.utf8ByteSize := by
  by_cases hpattern : pattern = ""
  · have hsame : removeAll text pattern = text := by rw [hpattern, removeAll_empty]
    exact Nat.le_of_eq (congrArg String.utf8ByteSize hsame)
  · obtain ⟨pieces, hpieces⟩ := exists_cuts hpattern text
    obtain ⟨first, rest, rfl⟩ := List.exists_cons_of_ne_nil hpieces.ne_nil
    have hsize := size_join_add (fun _ _ => String.utf8ByteSize_append) pattern first rest
    rw [← removeAll_eq_join hpattern hpieces, hpieces.joined] at hsize
    omega

/-- Nothing is removed where the pattern does not occur, and only there. -/
theorem removeAll_eq_self_iff (hpattern : pattern ≠ "") :
    removeAll text pattern = text ↔ ¬ Occurs pattern text := by
  constructor
  · intro hsame
    obtain ⟨pieces, hpieces⟩ := exists_cuts hpattern text
    obtain ⟨first, rest, rfl⟩ := List.exists_cons_of_ne_nil hpieces.ne_nil
    have hsize := size_join_add String.length_append pattern first rest
    rw [← removeAll_eq_join hpattern hpieces, hpieces.joined, hsame] at hsize
    have hpositive : pattern.length ≠ 0 := mt String.length_eq_zero_iff.mp hpattern
    have hone : rest.length = 0 := by
      have hzero : rest.length * pattern.length = 0 := by omega
      exact (Nat.mul_eq_zero.mp hzero).resolve_right hpositive
    obtain rfl := List.length_eq_zero_iff.mp hone
    rcases hpieces.inversion with ⟨-, -, hnot⟩ | ⟨_, -, -, hnone⟩
    · exact hnot
    · exact absurd rfl hnone.ne_nil
  · intro hnot
    rw [removeAll_eq_join hpattern (cuts_singleton hnot), String.join_cons, String.join_nil,
      String.append_empty]

/-- Copies of the pattern have nothing between them. -/
theorem cuts_replicate (hpattern : pattern ≠ "") (n : Nat) :
    Cuts pattern (replicate pattern n) (List.replicate (n + 1) "") := by
  induction n with
  | zero =>
    have hnot : ¬ Occurs pattern "" := by
      rw [occurs_iff]
      intro hpart
      exact hpattern (String.toList_eq_nil_iff.mp (List.infix_nil.mp hpart))
    rw [replicate_zero]
    exact cuts_singleton hnot
  | succ n ih =>
    have hfirst : FirstAfter pattern "" ("" ++ pattern ++ replicate pattern n) :=
      ⟨⟨_, rfl⟩, fun _ _ => Nat.zero_le _⟩
    have hcuts := ih.cons hfirst
    rw [String.empty_append] at hcuts
    rw [replicate_succ]
    exact hcuts

/-- Of copies of the pattern nothing is left. -/
theorem removeAll_replicate (hpattern : pattern ≠ "") (n : Nat) :
    removeAll (replicate pattern n) pattern = "" := by
  rw [removeAll_eq_join hpattern (cuts_replicate hpattern n), ← replicate_eq_join]
  induction n with
  | zero => rw [replicate_succ, replicate_zero, String.append_empty]
  | succ n ih => rw [replicate_succ, ih, String.append_empty]

/-- Removing a pattern. There is one way to cut the text at the first occurrence of the pattern,
what follows at its first occurrence, and so on until the pattern does not occur. The result is the
pieces put together: it is shorter by the pattern for every cut, it is the text itself exactly if
the pattern does not occur, and it is empty if the text is copies of the pattern. An empty pattern
removes nothing. -/
theorem removeAll_spec (text pattern : String) :
    (pattern = "" → removeAll text pattern = text) ∧
    (pattern ≠ "" →
      (∃ first rest, Cuts pattern text (first :: rest) ∧
        (∀ pieces, Cuts pattern text pieces → pieces = first :: rest) ∧
        removeAll text pattern = String.join (first :: rest) ∧
        (removeAll text pattern).length + rest.length * pattern.length = text.length ∧
        (removeAll text pattern).utf8ByteSize + rest.length * pattern.utf8ByteSize =
          text.utf8ByteSize) ∧
      (removeAll text pattern = text ↔ ¬ Occurs pattern text) ∧
      ∀ n copies, Value.repeated pattern n = .ok copies → removeAll copies pattern = "") := by
  refine ⟨?_, fun hpattern => ⟨?_, removeAll_eq_self_iff hpattern, ?_⟩⟩
  · rintro rfl
    exact removeAll_empty text
  · obtain ⟨pieces, hpieces⟩ := exists_cuts hpattern text
    obtain ⟨first, rest, rfl⟩ := List.exists_cons_of_ne_nil hpieces.ne_nil
    have hjoin := removeAll_eq_join hpattern hpieces
    refine ⟨first, rest, hpieces, fun _ h => h.unique hpieces, hjoin, ?_, ?_⟩
    · rw [hjoin, size_join_add String.length_append, hpieces.joined]
    · rw [hjoin, size_join_add (fun _ _ => String.utf8ByteSize_append),
        hpieces.joined]
  · intro n copies hcopies
    rw [(Value.repeated_eq_ok hcopies).1]
    exact removeAll_replicate hpattern _

/-- The one occurrence in the text is removed, and the one that this brings about stays. Three
copies leave nothing, and an empty pattern leaves everything. -/
theorem removeAll_spec_broughtAbout :
    removeAll "aabb" "ab" = "ab" ∧
      (∃ first rest, Cuts "ab" "aabb" (first :: rest) ∧
        removeAll "aabb" "ab" = String.join (first :: rest) ∧ rest.length = 1) ∧
      (∃ copies, Value.repeated "ab" 3 = .ok copies ∧ copies.utf8ByteSize = 6 ∧
        removeAll copies "ab" = "") ∧
      removeAll "aabb" "" = "aabb" := by
  have hresult : removeAll "aabb" "ab" = "ab" := by decide +kernel
  have hcopies : Value.repeated "ab" 3 = .ok (replicate "ab" 3) := by
    rw [Value.repeated, if_neg (by decide), if_neg (by decide +kernel)]
    rfl
  obtain ⟨⟨first, rest, hcuts, -, hjoin, hlength, -⟩, -, hempty⟩ :=
    (removeAll_spec "aabb" "ab").2 (by decide)
  refine ⟨hresult, ⟨first, rest, hcuts, hjoin, ?_⟩, ⟨_, hcopies, ?_, hempty 3 _ hcopies⟩,
    (removeAll_spec "aabb" "").1 rfl⟩
  · rw [hresult] at hlength
    change 2 + rest.length * 2 = 4 at hlength
    omega
  · rw [utf8ByteSize_replicate]
    rfl

end Smil.Text
