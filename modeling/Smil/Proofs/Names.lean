import Mathlib.Data.List.TakeWhile
import Smil.Expr.Parser
import Smil.Proofs.Places
import Smil.Proofs.Sequencing

/-!
# Names of variables

The name of a variable is read one character at a time, with a look at the next token before each: a
closing sigil ends the name, and an opening sigil behind white space alone starts a nested one.
Tokens skip the white space between words, two characters can be a token across the place where the
name ends, and the white space of names is larger than that of tokens. Nevertheless the scan finds
what a look at the whole text finds: whether the text goes on, after any white space, with an
opening sigil, and if not, where the first closing sigil stands.
-/

namespace Smil

/-! ### White space -/

namespace Text

/-- The white space between tokens is white space. -/
theorem isBlank_of_isGap {c : Char} (h : Cursor.isGap c = true) : isBlank c = true := by
  simp only [Cursor.isGap, Bool.or_eq_true, beq_iff_eq] at h
  rcases h with ((rfl | rfl) | rfl) | rfl <;> rfl

/-- A text is trimmed to nothing exactly if it is white space alone. -/
theorem trimChars_eq_nil {cs : List Char} : trimChars cs = [] ↔ ∀ c ∈ cs, isBlank c = true := by
  unfold trimChars trimEnd trimStart
  rw [List.reverse_eq_nil_iff, List.dropWhile_eq_nil_iff]
  constructor
  · intro h c hc
    rw [← List.takeWhile_append_dropWhile (p := isBlank) (l := cs), List.mem_append] at hc
    rcases hc with hfront | hrest
    · exact List.mem_takeWhile_imp hfront
    · exact h c (List.mem_reverse.mpr hrest)
  · intro h c hc
    exact h c ((List.dropWhile_sublist isBlank).subset (List.mem_reverse.mp hc))

/-- White space at the end of a text is trimmed away. -/
theorem trimChars_append_blank (cs : List Char) {blanks : List Char}
    (h : ∀ c ∈ blanks, isBlank c = true) : trimChars (cs ++ blanks) = trimChars cs := by
  by_cases hcs : ∀ c ∈ cs, isBlank c = true
  · have hall : ∀ c ∈ cs ++ blanks, isBlank c = true := by
      intro c hc
      exact (List.mem_append.mp hc).elim (hcs c) (h c)
    rw [trimChars_eq_nil.mpr hcs, trimChars_eq_nil.mpr hall]
  · have hstart : trimStart (cs ++ blanks) = trimStart cs ++ blanks := by
      unfold trimStart
      rw [List.dropWhile_append, if_neg]
      rwa [List.isEmpty_iff, List.dropWhile_eq_nil_iff]
    unfold trimChars trimEnd
    rw [hstart, List.reverse_append, List.dropWhile_append_of_pos (by simpa using h)]

/-- Skipping the white space between tokens first makes no difference to skipping all of it. -/
theorem trimStart_dropWhile_isGap (cs : List Char) :
    trimStart (cs.dropWhile Cursor.isGap) = trimStart cs := by
  induction cs with
  | nil => rfl
  | cons c cs ih =>
    by_cases hgap : Cursor.isGap c = true
    · rw [List.dropWhile_cons_of_pos hgap, ih]
      unfold trimStart
      rw [List.dropWhile_cons_of_pos (isBlank_of_isGap hgap)]
    · rw [List.dropWhile_cons_of_neg hgap]

end Text

/-! ### Looking at the next token -/

namespace Sigil

/-- Every sigil but the end marker has two characters. -/
theorem length_text {s : Sigil} (hs : s ≠ .programEnd) : s.text.toList.length = 2 := by
  cases s with
  | programEnd => exact absurd rfl hs
  | operator op => cases op <;> rfl
  | _ => rfl

/-- A text starts with the spelling of a sigil exactly if its first two characters spell it. -/
theorem text_isPrefix {s : Sigil} (hs : s ≠ .programEnd) (a b : Char) (rest : List Char) :
    s.text.toList <+: a :: b :: rest ↔ ofPair? a b = some s := by
  rw [List.prefix_iff_eq_take, length_text hs]
  refine ⟨fun htext => ?_, text_of_ofPair?⟩
  have hfound := ofText?_text s hs
  rwa [ofText?, htext] at hfound

end Sigil

namespace Cursor

/-- A pair of characters is a sigil if it is in the table of sigils. -/
theorem pairKind_eq_sigil {a b : Char} {s : Sigil} :
    pairKind a b = .sigil s ↔ Sigil.ofPair? a b = some s := by
  unfold pairKind
  split <;> simp_all

/-- What does not start with two characters has less than two. -/
theorem length_lt_two {cs : List Char} (h : ∀ a b rest, cs = a :: b :: rest → False) :
    cs.length < 2 := by
  rcases cs with _ | ⟨a, _ | ⟨b, rest⟩⟩
  · simp
  · simp
  · exact (h a b rest rfl).elim

/-- The token right at the cursor is a sigil of two characters exactly if its spelling stands
there. -/
theorem scan_kind_eq_sigil (c : Cursor) {s : Sigil} (hs : s ≠ .programEnd) :
    c.scan.1.kind = .sigil s ↔ s.text.toList <+: c.rest := by
  unfold scan
  split
  · rename_i rest hrest
    have hnone : Sigil.ofPair? '<' '/' ≠ some s := by
      intro h
      cases h
    rw [hrest, Sigil.text_isPrefix hs]
    exact iff_of_false (fun h => hs (Token.Kind.sigil.inj h).symm) hnone
  · rename_i a b rest _ hrest
    rw [hrest, Sigil.text_isPrefix hs]
    exact pairKind_eq_sigil
  · rename_i _ hshort
    refine iff_of_false (fun h => by cases h) fun hstarts => ?_
    have hlength := hstarts.length_le
    rw [Sigil.length_text hs] at hlength
    exact Nat.not_lt_of_le hlength (length_lt_two hshort)

/-- A sigil of two characters is seen exactly if its spelling comes next after white space. -/
theorem peek_kind_eq_sigil (c : Cursor) {s : Sigil} (hs : s ≠ .programEnd) :
    c.peek.kind = .sigil s ↔ s.text.toList <+: c.rest.dropWhile isGap :=
  scan_kind_eq_sigil (c.skipWhile isGap) hs

/-- The end of the input is seen exactly if at most one character comes after white space. -/
theorem peek_kind_eq_endOfInput (c : Cursor) :
    c.peek.kind = .endOfInput ↔ (c.rest.dropWhile isGap).length < 2 := by
  change (c.skipWhile isGap).scan.1.kind = _ ↔ (c.skipWhile isGap).rest.length < 2
  generalize c.skipWhile isGap = c
  unfold scan
  split
  · rename_i rest hrest
    rw [hrest]
    exact iff_of_false (fun h => by cases h) (by simp)
  · rename_i a b rest _ hrest
    rw [hrest]
    refine iff_of_false (fun h => ?_) (by simp)
    change pairKind a b = _ at h
    unfold pairKind at h
    split at h <;> cases h
  · rename_i _ hshort
    exact iff_of_true rfl (length_lt_two hshort)

end Cursor

/-! ### Steps of the scan -/

namespace Expr.Parser

open Cursor Text

variable {rest name : List Char} {position : Position}

/-- A closing sigil ends the name. -/
theorem scanName_of_end (h : Sigil.varEnd.text.toList <+: rest.dropWhile isGap) :
    scanName rest name position = .closed name.reverse (Cursor.mk rest position).token.2 := by
  have hkind := (peek_kind_eq_sigil ⟨rest, position⟩ (s := .varEnd) (by decide)).mpr h
  unfold scanName
  rw [if_pos hkind]

/-- An opening sigil behind white space starts a nested name. -/
theorem scanName_of_start (h : Sigil.varStart.text.toList <+: rest.dropWhile isGap)
    (hname : ∀ c ∈ name, isBlank c = true) :
    scanName rest name position = .nested (skipWhile isGap ⟨rest, position⟩) := by
  have hkind := (peek_kind_eq_sigil ⟨rest, position⟩ (s := .varStart) (by decide)).mpr h
  have hblank : trimChars name.reverse = [] := by
    rw [trimChars_eq_nil]
    simpa using hname
  unfold scanName
  dsimp only
  rw [hkind, hblank]
  rfl

/-- The input ends where at most one character is left. -/
theorem scanName_of_short (h : (rest.dropWhile isGap).length < 2) :
    scanName rest name position = .unterminated := by
  have hkind := (peek_kind_eq_endOfInput ⟨rest, position⟩).mpr h
  unfold scanName
  dsimp only
  rw [hkind]
  rfl

/-- Otherwise the next character belongs to the name. -/
theorem scanName_cons {c : Char} (hend : ¬ Sigil.varEnd.text.toList <+: (c :: rest).dropWhile isGap)
    (hstart : ¬ (Sigil.varStart.text.toList <+: (c :: rest).dropWhile isGap ∧
      ∀ c ∈ name, isBlank c = true))
    (hmore : ¬ ((c :: rest).dropWhile isGap).length < 2) :
    scanName (c :: rest) name position = scanName rest (c :: name) (position.after c) := by
  rw [← peek_kind_eq_sigil ⟨c :: rest, position⟩ (by decide)] at hend
  rw [← peek_kind_eq_endOfInput ⟨c :: rest, position⟩] at hmore
  have hnested : ¬ (decide ((Cursor.mk (c :: rest) position).peek.kind = .sigil .varStart) &&
      (trimChars name.reverse).isEmpty) = true := by
    rw [Bool.and_eq_true, decide_eq_true_eq, peek_kind_eq_sigil _ (by decide), List.isEmpty_iff,
      trimChars_eq_nil]
    simpa using hstart
  rw [scanName, if_neg hend, if_neg hnested, if_neg hmore]

/-! ### The scan and the whole text -/

/-- Where a token is seen that starts with a colon, only white space between tokens precedes it. -/
theorem trimStart_of_colon (h : [':'] <+: rest.dropWhile isGap) :
    trimStart rest = rest.dropWhile isGap := by
  obtain ⟨tail, htail⟩ := h
  rw [← trimStart_dropWhile_isGap, ← htail]
  rfl

/-- There, skipping the white space between tokens is skipping all white space. -/
theorem skipWhile_of_colon (h : [':'] <+: rest.dropWhile isGap) :
    skipWhile isGap ⟨rest, position⟩ = skipWhile isBlank ⟨rest, position⟩ := by
  have hdrop : rest.dropWhile isBlank = rest.dropWhile isGap := trimStart_of_colon h
  have htake : rest.takeWhile isGap = rest.takeWhile isBlank := by
    have hsplit : rest.takeWhile isGap ++ rest.dropWhile isGap =
        rest.takeWhile isBlank ++ rest.dropWhile isGap := by
      rw [List.takeWhile_append_dropWhile, ← hdrop, List.takeWhile_append_dropWhile]
    exact List.append_cancel_right hsplit
  simp only [skipWhile, hdrop, htake]

/-- A nested name comes: only white space has been read, and an opening sigil follows after more of
it. -/
def Nests (name rest : List Char) : Prop :=
  (∀ c ∈ name, isBlank c = true) ∧ Sigil.varStart.text.toList <+: trimStart rest

/-- A nested name is found behind the white space. -/
theorem scanName_nested (h : Nests name rest) :
    scanName rest name position = .nested (skipWhile isBlank ⟨rest, position⟩) := by
  obtain ⟨hname, hopens⟩ := h
  induction rest generalizing name position with
  | nil => cases List.prefix_nil.mp hopens
  | cons c rest ih =>
    by_cases hseen : Sigil.varStart.text.toList <+: (c :: rest).dropWhile isGap
    · have hcolon := (List.prefix_append [':'] ['(']).trans hseen
      rw [scanName_of_start hseen hname, skipWhile_of_colon hcolon]
    · -- The sigil stands behind white space that no token skips, so the scan goes on.
      have hblank : isBlank c = true := by
        by_contra hc
        have hgap : ¬ isGap c = true := fun hgap => hc (isBlank_of_isGap hgap)
        rw [trimStart, List.dropWhile_cons_of_neg hc] at hopens
        rw [List.dropWhile_cons_of_neg hgap] at hseen
        exact hseen hopens
      have hend : ¬ Sigil.varEnd.text.toList <+: (c :: rest).dropWhile isGap := by
        intro hend
        rw [trimStart_of_colon ((List.prefix_append [':'] [')']).trans hend)] at hopens
        exact hseen hopens
      have hmore : ¬ ((c :: rest).dropWhile isGap).length < 2 := by
        rw [← trimStart_dropWhile_isGap] at hopens
        exact Nat.not_lt_of_le (hopens.length_le.trans (List.dropWhile_suffix isBlank).length_le)
      have hrest : trimStart (c :: rest) = trimStart rest := List.dropWhile_cons_of_pos hblank
      rw [hrest] at hopens
      rw [scanName_cons hend (fun hstart => hseen hstart.1) hmore,
        ih (List.forall_mem_cons.mpr ⟨hblank, hname⟩) hopens]
      simp only [skipWhile, List.takeWhile_cons_of_pos hblank, List.dropWhile_cons_of_pos hblank]
      rfl

/-- Where no nested name comes, none is seen, and none comes after a character more. -/
theorem not_nests_cons {c : Char} (h : ¬ Nests name (c :: rest)) :
    ¬ (Sigil.varStart.text.toList <+: (c :: rest).dropWhile isGap ∧
      ∀ c ∈ name, isBlank c = true) ∧ ¬ Nests (c :: name) rest := by
  refine ⟨?_, ?_⟩
  · rintro ⟨hseen, hname⟩
    have hcolon := (List.prefix_append [':'] ['(']).trans hseen
    exact h ⟨hname, by rwa [trimStart_of_colon hcolon]⟩
  · rintro ⟨hname, hopens⟩
    obtain ⟨hc, hname⟩ := List.forall_mem_cons.mp hname
    refine h ⟨hname, ?_⟩
    rwa [trimStart, List.dropWhile_cons_of_pos hc]

/-- A name that only white space between tokens separates from its closing sigil is closed there. -/
theorem scanName_gap {gap : List Char} (hgap : ∀ c ∈ gap, isGap c = true) (after : List Char) :
    scanName (gap ++ ':' :: ')' :: after) name position =
      .closed name.reverse ⟨after, position.afterAll (gap ++ [':', ')'])⟩ := by
  have hskip : skipWhile isGap ⟨gap ++ ':' :: ')' :: after, position⟩ =
      ⟨':' :: ')' :: after, position.afterAll gap⟩ := by
    simp [skipWhile, List.takeWhile_append_of_pos hgap, List.dropWhile_append_of_pos hgap, isGap]
  have hend : Sigil.varEnd.text.toList <+: (gap ++ ':' :: ')' :: after).dropWhile isGap := by
    rw [List.dropWhile_append_of_pos hgap]
    exact ⟨after, rfl⟩
  rw [scanName_of_end hend, Cursor.token, hskip]
  simp only [Position.afterAll, List.foldl_append]
  rfl

/-- The text before the first closing sigil does not start a closing sigil with its last character
either. -/
theorem not_varEnd_prefix {front : List Char} (hne : front ≠ [])
    (hfirst : ¬ Sigil.varEnd.text.toList <:+: front) (after : List Char) :
    ¬ Sigil.varEnd.text.toList <+: front ++ ':' :: ')' :: after := by
  change ¬ [':', ')'] <+: front ++ ':' :: ')' :: after
  rcases front with _ | ⟨a, _ | ⟨b, front⟩⟩
  · exact absurd rfl hne
  · simp
  · intro hstarts
    simp only [List.cons_append, List.cons_prefix_cons] at hstarts
    obtain ⟨rfl, rfl, -⟩ := hstarts
    exact hfirst ⟨[], front, rfl⟩

/-- A name reaches to the first closing sigil; of its last characters, the white space between
tokens is left out. -/
theorem scanName_closed (name : List Char) (position : Position) {front after : List Char}
    (hfirst : ¬ Sigil.varEnd.text.toList <:+: front)
    (hplain : ¬ Nests name (front ++ ':' :: ')' :: after)) :
    ∃ kept gap, front = kept ++ gap ∧ (∀ c ∈ gap, isGap c = true) ∧
      scanName (front ++ ':' :: ')' :: after) name position =
        .closed (name.reverse ++ kept) ⟨after, position.afterAll (front ++ [':', ')'])⟩ := by
  induction front generalizing name position with
  | nil =>
    refine ⟨[], [], rfl, List.forall_mem_nil _, ?_⟩
    rw [scanName_gap (List.forall_mem_nil _), List.append_nil]
  | cons c front ih =>
    by_cases hgap : ∀ d ∈ c :: front, isGap d = true
    · refine ⟨[], c :: front, rfl, hgap, ?_⟩
      rw [scanName_gap hgap, List.append_nil]
    · have hdrop : (c :: (front ++ ':' :: ')' :: after)).dropWhile isGap =
          (c :: front).dropWhile isGap ++ ':' :: ')' :: after := by
        rw [← List.cons_append, List.dropWhile_append, if_neg]
        rwa [List.isEmpty_iff, List.dropWhile_eq_nil_iff]
      have hend : ¬ Sigil.varEnd.text.toList <+:
          (c :: (front ++ ':' :: ')' :: after)).dropWhile isGap := by
        rw [hdrop]
        apply not_varEnd_prefix
        · rwa [Ne, List.dropWhile_eq_nil_iff]
        · exact fun hin => hfirst (hin.trans (List.dropWhile_suffix isGap).isInfix)
      have hmore : ¬ ((c :: (front ++ ':' :: ')' :: after)).dropWhile isGap).length < 2 := by
        rw [hdrop, List.length_append, List.length_cons, List.length_cons]
        omega
      have hfirst' : ¬ Sigil.varEnd.text.toList <:+: front := fun hin =>
        hfirst (hin.trans (List.suffix_cons c front).isInfix)
      obtain ⟨hstart, hplain'⟩ := not_nests_cons hplain
      obtain ⟨kept, gap, hfront, hgaps, hscan⟩ := ih (c :: name) (position.after c) hfirst' hplain'
      refine ⟨c :: kept, gap, by rw [hfront, List.cons_append], hgaps, ?_⟩
      rw [List.cons_append, scanName_cons hend hstart hmore, hscan, List.reverse_cons,
        List.append_assoc]
      rfl

/-- Without a closing sigil the input ends before the name. -/
theorem scanName_unterminated (hnone : ¬ Sigil.varEnd.text.toList <:+: rest)
    (hplain : ¬ Nests name rest) : scanName rest name position = .unterminated := by
  induction rest generalizing name position with
  | nil => exact scanName_of_short (by simp)
  | cons c rest ih =>
    by_cases hshort : ((c :: rest).dropWhile isGap).length < 2
    · exact scanName_of_short hshort
    · have hend : ¬ Sigil.varEnd.text.toList <+: (c :: rest).dropWhile isGap := fun hend =>
        hnone (hend.isInfix.trans (List.dropWhile_suffix isGap).isInfix)
      obtain ⟨hstart, hplain'⟩ := not_nests_cons hplain
      rw [scanName_cons hend hstart hshort]
      exact ih (fun hin => hnone (hin.trans (List.suffix_cons c rest).isInfix)) hplain'

/-! ### Reading a variable -/

/-- A text that holds a closing sigil holds a first one. -/
theorem exists_first_varEnd (h : Sigil.varEnd.text.toList <:+: rest) :
    ∃ front after, rest = front ++ ':' :: ')' :: after ∧
      ¬ Sigil.varEnd.text.toList <:+: front := by
  induction rest with
  | nil => cases List.infix_nil.mp h
  | cons c rest ih =>
    rcases List.infix_cons_iff.mp h with ⟨after, hfirst⟩ | hlater
    · exact ⟨[], after, hfirst.symm, fun hnil => by cases List.infix_nil.mp hnil⟩
    · obtain ⟨front, after, rfl, hfront⟩ := ih hlater
      by_cases hstart : Sigil.varEnd.text.toList <+: c :: (front ++ ':' :: ')' :: after)
      · obtain ⟨tail, htail⟩ := hstart
        exact ⟨[], tail, htail.symm, fun hnil => by cases List.infix_nil.mp hnil⟩
      · refine ⟨c :: front, after, rfl, fun hin => ?_⟩
        rcases List.infix_cons_iff.mp hin with hstarts | hbehind
        · exact hstart (hstarts.trans (List.prefix_append (c :: front) _))
        · exact hfront hbehind

/-- Reads a name with the sigil that ends it, or up to the nested expression that yields it. -/
def nameOrNested (span : Span) : Reader (Option String) := do
  let s ← get
  match scanName s.cursor.rest [] s.cursor.position with
  | .closed name after =>
    set { s with cursor := after }
    return some (String.ofList (Text.trimChars name))
  | .nested inside =>
    set { s with cursor := inside }
    return none
  | .unterminated | .missing => throw (.placed (.unterminated "variable") span)

/-- A variable is a name, or a value and the closing sigil behind it. -/
theorem variableRef_eq (sub : Reader Expr) (inverted : Bool) (span : Span) :
    variableRef sub inverted span = (do
      match ← nameOrNested span with
      | some name => return .var name inverted span
      | none =>
        let name ← value sub
        expectSigil .varEnd
        return .namedVar name span) := by
  funext s
  unfold variableRef nameOrNested
  rw [run_bind_of_ok (x := get) rfl, bind_assoc, run_bind_of_ok (x := get) rfl]
  cases scanName s.cursor.rest [] s.cursor.position <;> rfl

variable {sub : Reader Expr} {inverted : Bool} {span : Span} {s : Reading}

/-- A nested name starts behind the white space. -/
theorem nameOrNested_of_nested (h : Sigil.varStart.text.toList <+: trimStart s.cursor.rest) :
    nameOrNested span s = .ok (none, { s with cursor := s.cursor.skipWhile isBlank }) := by
  have hscan : scanName s.cursor.rest [] s.cursor.position =
      .nested (s.cursor.skipWhile isBlank) := scanName_nested ⟨List.forall_mem_nil _, h⟩
  unfold nameOrNested
  rw [run_bind_of_ok (x := get) rfl, hscan]
  rfl

/-- A plain name is the text up to the first closing sigil, trimmed. -/
theorem nameOrNested_of_closed {front after : List Char}
    (hplain : ¬ Sigil.varStart.text.toList <+: trimStart s.cursor.rest)
    (hrest : s.cursor.rest = front ++ ':' :: ')' :: after)
    (hfirst : ¬ Sigil.varEnd.text.toList <:+: front) :
    nameOrNested span s = .ok (some (String.ofList (trimChars front)), { s with
      cursor := ⟨after, s.cursor.position.afterAll (front ++ [':', ')'])⟩ }) := by
  rw [hrest] at hplain
  obtain ⟨kept, gap, hfront, hgap, hscan⟩ :=
    scanName_closed [] s.cursor.position hfirst fun hnests => hplain hnests.2
  have htrim : trimChars front = trimChars kept := by
    rw [hfront, trimChars_append_blank kept fun c hc => isBlank_of_isGap (hgap c hc)]
  unfold nameOrNested
  rw [run_bind_of_ok (x := get) rfl, hrest, hscan, htrim]
  rfl

/-- A name without a closing sigil is an error at the opening sigil. -/
theorem nameOrNested_of_unterminated
    (hplain : ¬ Sigil.varStart.text.toList <+: trimStart s.cursor.rest)
    (hnone : ¬ Sigil.varEnd.text.toList <:+: s.cursor.rest) :
    nameOrNested span s = .error (.placed (.unterminated "variable") span) := by
  have hscan : scanName s.cursor.rest [] s.cursor.position = .unterminated :=
    scanName_unterminated hnone fun hnests => hplain hnests.2
  unfold nameOrNested
  rw [run_bind_of_ok (x := get) rfl, hscan]
  rfl

/-- A variable with a nested name: an expression is read where the nested name starts, and the
closing sigil behind it. -/
theorem variableRef_of_nested (h : Sigil.varStart.text.toList <+: trimStart s.cursor.rest) :
    variableRef sub inverted span s = (do
      let name ← value sub
      expectSigil .varEnd
      return .namedVar name span : Reader Expr)
      { s with cursor := s.cursor.skipWhile isBlank } := by
  rw [variableRef_eq, run_bind_of_ok (nameOrNested_of_nested h)]

/-- A variable with a plain name: the name is the text up to the first closing sigil, trimmed. -/
theorem variableRef_of_closed {front after : List Char}
    (hplain : ¬ Sigil.varStart.text.toList <+: trimStart s.cursor.rest)
    (hrest : s.cursor.rest = front ++ ':' :: ')' :: after)
    (hfirst : ¬ Sigil.varEnd.text.toList <:+: front) :
    variableRef sub inverted span s =
      .ok (.var (String.ofList (trimChars front)) inverted span, { s with
        cursor := ⟨after, s.cursor.position.afterAll (front ++ [':', ')'])⟩ }) := by
  rw [variableRef_eq, run_bind_of_ok (nameOrNested_of_closed hplain hrest hfirst)]
  rfl

/-- A variable without a closing sigil is an error at its opening sigil. -/
theorem variableRef_of_unterminated
    (hplain : ¬ Sigil.varStart.text.toList <+: trimStart s.cursor.rest)
    (hnone : ¬ Sigil.varEnd.text.toList <:+: s.cursor.rest) :
    variableRef sub inverted span s = .error (.placed (.unterminated "variable") span) := by
  rw [variableRef_eq, run_bind_of_error (nameOrNested_of_unterminated hplain hnone)]

/-- The scan never lacks a character: the input ends no later than where at most one is left. -/
theorem scanName_ne_missing (rest name : List Char) (position : Position) :
    scanName rest name position ≠ .missing := by
  fun_induction scanName rest name position with
  | case4 name position _ _ _ _ hmore =>
    have hend : (Cursor.mk [] position).peek.kind = .endOfInput :=
      (peek_kind_eq_endOfInput _).mpr (by simp)
    exact absurd hend hmore
  | case5 name position c rest _ _ _ _ _ ih => exact ih
  | _ => simp

/-- What a variable reads behind its opening sigil. If the text goes on, after any white space, with
an opening sigil, a value is read there and a closing sigil behind it. Otherwise, if the text holds
a closing sigil, the name is what stands before the first one, trimmed, and reading goes on directly
behind it; if it holds none, the variable is not terminated. -/
theorem variableRef_reads (sub : Reader Expr) (inverted : Bool) (span : Span) (s : Reading) :
    (Sigil.varStart.text.toList <+: trimStart s.cursor.rest →
      variableRef sub inverted span s = (do
        let name ← value sub
        expectSigil .varEnd
        return .namedVar name span : Reader Expr)
        { s with cursor := s.cursor.skipWhile isBlank }) ∧
    (¬ Sigil.varStart.text.toList <+: trimStart s.cursor.rest →
      (Sigil.varEnd.text.toList <:+: s.cursor.rest → ∃ before after,
        s.cursor.rest = before ++ Sigil.varEnd.text.toList ++ after ∧
        ¬ Sigil.varEnd.text.toList <:+: before ∧
        variableRef sub inverted span s =
          .ok (.var (trim (String.ofList before)) inverted span, { s with
            cursor := ⟨after, s.cursor.position.afterAll
              (before ++ Sigil.varEnd.text.toList)⟩ })) ∧
      (¬ Sigil.varEnd.text.toList <:+: s.cursor.rest →
        variableRef sub inverted span s = .error (.placed (.unterminated "variable") span))) ∧
    scanName s.cursor.rest [] s.cursor.position ≠ .missing := by
  refine ⟨variableRef_of_nested, fun hplain => ⟨fun hends => ?_, ?_⟩, scanName_ne_missing _ _ _⟩
  · obtain ⟨before, after, hrest, hfirst⟩ := exists_first_varEnd hends
    refine ⟨before, after, ?_, hfirst, ?_⟩
    · rw [hrest, List.append_assoc]
      rfl
    · rw [variableRef_of_closed hplain hrest hfirst, trim, String.toList_ofList]
      rfl
  · exact variableRef_of_unterminated hplain

/-- A name behind a blank that is no gap, with an end marker, a newline and a colon in front of its
closing sigil. -/
theorem variableRef_reads_overlap :
    ¬ Sigil.varStart.text.toList <+: trimStart "\u00a0</3 a\n::) :)".toList ∧
    Sigil.varEnd.text.toList <:+: "\u00a0</3 a\n::) :)".toList ∧
    ∃ before after, "\u00a0</3 a\n::) :)".toList = before ++ Sigil.varEnd.text.toList ++ after ∧
      ¬ Sigil.varEnd.text.toList <:+: before ∧
      variableRef (expression 0) true .nowhere
          ⟨⟨"\u00a0</3 a\n::) :)".toList, .start⟩, none, 0⟩ =
        .ok (.var (trim (String.ofList before)) true .nowhere,
          ⟨⟨after, Position.start.afterAll (before ++ Sigil.varEnd.text.toList)⟩, none, 0⟩) := by
  have hplain : ¬ Sigil.varStart.text.toList <+: trimStart "\u00a0</3 a\n::) :)".toList := by
    decide +kernel
  have hends : Sigil.varEnd.text.toList <:+: "\u00a0</3 a\n::) :)".toList := by decide +kernel
  exact ⟨hplain, hends, ((variableRef_reads (expression 0) true .nowhere
    ⟨⟨"\u00a0</3 a\n::) :)".toList, .start⟩, none, 0⟩).2.1 hplain).1 hends⟩

end Expr.Parser

end Smil
