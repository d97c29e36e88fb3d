import Smil.Interpreter
import Smil.Proofs.Budgets
import Smil.Proofs.Lexemes

/-!
# Text behind the end marker

A program may end at its end marker, and then whatever stands behind the marker is ignored. Reading
with more text behind makes the same decisions all along: as long as the marker is still to come,
there is more text than a look at the next token takes into account, a name or a comment that ends
does so before the marker, and a longer budget changes nothing. So the program, the places in it and
the number of its inputs are the same, and so is every run.
-/

namespace Smil

/-! ### Cursors in front of an end marker -/

namespace Cursor

variable {c : Cursor} {rest : List Char}

/-- The cursor with more text behind. -/
def extend (c : Cursor) (text : List Char) : Cursor :=
  ⟨c.rest ++ text, c.position⟩

/-- An end marker is among what is left of a text. -/
def Marked (rest : List Char) : Prop :=
  Sigil.programEnd.text.toList <:+: rest

/-- A marker that is left later was left before. -/
theorem Marked.of_suffix {later : List Char} (h : Marked later) (hsuffix : later <:+ rest) :
    Marked rest :=
  h.trans hsuffix.isInfix

/-- An end marker has three characters. -/
theorem Marked.three_le (h : Marked rest) : 3 ≤ rest.length :=
  h.length_le

/-- What holds an end marker is not empty. -/
theorem Marked.ne_nil (h : Marked rest) : rest ≠ [] :=
  List.ne_nil_of_length_pos (Nat.lt_of_lt_of_le (by decide) h.three_le)

/-- Skipping characters other than its own does not pass a marker. -/
theorem Marked.dropWhile (h : Marked rest) {p : Char → Bool} (hp : p '<' = false) :
    Marked (rest.dropWhile p) := by
  obtain ⟨front, back, rfl⟩ := h
  rw [List.append_assoc, List.dropWhile_append]
  split
  · refine ⟨[], back, ?_⟩
    rw [List.nil_append, show Sigil.programEnd.text.toList = ['<', '/', '3'] from rfl,
      List.cons_append, List.dropWhile_cons_of_neg (by rw [hp]; decide)]
  · exact ⟨front.dropWhile p, back, List.append_assoc _ _ _⟩

/-- A word that comes next with more text behind comes next without it, if there is room for it. -/
theorem isPrefix_of_extended {word text : List Char} (h : word <+: rest ++ text)
    (hlength : word.length ≤ rest.length) : word <+: rest :=
  List.prefix_of_prefix_length_le h (List.prefix_append rest text) hlength

/-- Text behind the character at which dropping stops stays behind. -/
theorem dropWhile_extended {p : Char → Bool} (h : rest.dropWhile p ≠ []) (text : List Char) :
    (rest ++ text).dropWhile p = rest.dropWhile p ++ text := by
  rw [List.dropWhile_append, if_neg (by simpa using h)]

/-- Text behind the character at which taking stops is not taken. -/
theorem takeWhile_extended {p : Char → Bool} (h : rest.dropWhile p ≠ []) (text : List Char) :
    (rest ++ text).takeWhile p = rest.takeWhile p := by
  rw [List.takeWhile_append, if_neg]
  intro hlength
  have hjoined := congrArg List.length (List.takeWhile_append_dropWhile (p := p) (l := rest))
  rw [List.length_append, hlength] at hjoined
  exact h (List.length_eq_zero_iff.mp (by omega))

/-- Skipping a run of characters that ends in the text does not look behind the text. -/
theorem skipWhile_extend {p : Char → Bool} (h : c.rest.dropWhile p ≠ []) (text : List Char) :
    (c.extend text).skipWhile p = (c.skipWhile p).extend text := by
  simp only [skipWhile, extend, dropWhile_extended h, takeWhile_extended h]

/-- Skipping characters that are there does not look behind the text. -/
theorem skip_extend {n : Nat} (h : n ≤ c.rest.length) (text : List Char) :
    (c.extend text).skip n = (c.skip n).extend text := by
  simp only [skip, extend, List.take_append_of_le_length h, List.drop_append_of_le_length h]

/-- Cutting a token out of the text does not look behind the text. -/
theorem cut_extend {n : Nat} (h : n ≤ c.rest.length) (kind : Token.Kind) (text : List Char) :
    (c.extend text).cut n kind = ((c.cut n kind).1, (c.cut n kind).2.extend text) := by
  simp only [cut, skip_extend h]
  simp only [extend, List.take_append_of_le_length h]

/-- Three characters decide about a token. -/
theorem scan_extend (h : 3 ≤ c.rest.length) (text : List Char) :
    (c.extend text).scan = (c.scan.1, c.scan.2.extend text) := by
  obtain ⟨_ | ⟨x, _ | ⟨y, _ | ⟨z, tail⟩⟩⟩, position⟩ := c
  · exact absurd h (by simp)
  · exact absurd h (by simp)
  · exact absurd h (by simp)
  by_cases hmarker : x = '<' ∧ y = '/' ∧ z = '3'
  · obtain ⟨rfl, rfl, rfl⟩ := hmarker
    exact cut_extend h _ text
  · have hscan : ∀ tail, scan ⟨x :: y :: z :: tail, position⟩ =
        cut 2 (pairKind x y) ⟨x :: y :: z :: tail, position⟩ := by
      intro tail
      unfold scan
      split
      · rename_i hrest
        cases hrest
        exact absurd ⟨rfl, rfl, rfl⟩ hmarker
      · rename_i hrest
        cases hrest
        rfl
      · rename_i _ hshort
        exact (hshort x y (z :: tail) rfl).elim
    change scan ⟨x :: y :: z :: (tail ++ text), position⟩ = _
    rw [hscan, hscan]
    exact cut_extend (Nat.le_of_succ_le h) _ text

/-- In front of a marker the next token does not depend on what stands behind. -/
theorem token_extend (h : Marked c.rest) (text : List Char) :
    (c.extend text).token = (c.token.1, c.token.2.extend text) := by
  have hgap : Marked (c.rest.dropWhile isGap) := h.dropWhile rfl
  unfold token
  rw [skipWhile_extend hgap.ne_nil]
  exact scan_extend hgap.three_le text

/-- A line that ends in front of a marker ends at the same newline with more text behind. -/
theorem readLine_extend (h : Marked c.readLine.2.rest) (text : List Char) :
    (c.extend text).readLine = (c.readLine.1, c.readLine.2.extend text) := by
  have hlength : (c.rest.takeWhile (· != '\n')).length + 1 < c.rest.length := by
    apply Nat.lt_of_not_le
    intro hle
    exact h.ne_nil (List.drop_of_length_le hle)
  have hmore : c.rest.dropWhile (· != '\n') ≠ [] := by
    intro hnil
    have hjoined := List.takeWhile_append_dropWhile (p := (· != '\n')) (l := c.rest)
    rw [hnil, List.append_nil] at hjoined
    rw [hjoined] at hlength
    omega
  simp only [readLine, extend, takeWhile_extended hmore]
  exact congrArg _ (skip_extend (Nat.le_of_lt hlength) text)

end Cursor

namespace Expr.Parser

open Cursor

/-! ### Readers that stop in front of an end marker -/

/-- The state of reading with more text behind. -/
def Reading.extend (s : Reading) (text : List Char) : Reading :=
  { s with cursor := s.cursor.extend text }

/-- Whenever a reader that starts in a state stops in front of an end marker, it gives the same
result with more text behind. Its results have a property. -/
def Ignores {α : Type} (text : List Char) (s : Reading) (r : Reader α) (P : α → Reading → Prop) :
    Prop :=
  ∀ a s', r s = .ok (a, s') → P a s' ∧ (Marked s'.cursor.rest →
    Marked s.cursor.rest ∧ r (s.extend text) = .ok (a, s'.extend text))

variable {α β : Type} {text : List Char} {s : Reading} {P : α → Reading → Prop}
  {Q : β → Reading → Prop}

namespace Ignores

/-- What a reader does that cannot fail. -/
theorem of_ok {r : Reader α} {a : α} {s' : Reading} (hread : r s = .ok (a, s')) (ha : P a s')
    (h : Marked s'.cursor.rest →
      Marked s.cursor.rest ∧ r (s.extend text) = .ok (a, s'.extend text)) :
    Ignores text s r P := by
  intro b s'' hread'
  obtain ⟨rfl, rfl⟩ := Prod.mk.inj (Except.ok.inj (hread.symm.trans hread'))
  exact ⟨ha, h⟩

/-- The marker that the second step leaves was left by the first one. -/
theorem bind {x : Reader α} {f : α → Reader β} (hx : Ignores text s x P)
    (hf : ∀ a s', P a s' → Ignores text s' (f a) Q) : Ignores text s (x >>= f) Q := by
  intro b s' hread
  obtain ⟨a, s₁, hfirst, hsecond⟩ := ok_of_run_bind hread
  obtain ⟨ha, hfirst'⟩ := hx a s₁ hfirst
  obtain ⟨hb, hsecond'⟩ := hf a s₁ ha b s' hsecond
  refine ⟨hb, fun hmarked => ?_⟩
  obtain ⟨hmarked₁, hextended₁⟩ := hsecond' hmarked
  obtain ⟨hmarked₀, hextended₀⟩ := hfirst' hmarked₁
  exact ⟨hmarked₀, (run_bind_of_ok hextended₀).trans hextended₁⟩

end Ignores

/-- Reading a token in front of a marker. -/
theorem ignores_nextToken : Ignores text s nextToken fun _ _ => True := by
  refine Ignores.of_ok (nextToken_eq s) trivial fun hmarked => ?_
  have hrest := hmarked.of_suffix s.cursor.readsTo_token.isSuffix
  refine ⟨hrest, ?_⟩
  rw [nextToken_eq]
  simp only [Reading.pastToken, Reading.extend, token_extend hrest]

/-- Looking at a token in front of a marker. -/
theorem ignores_peekToken : Ignores text s peekToken fun _ _ => True := by
  refine Ignores.of_ok (peekToken_eq s) trivial fun hmarked => ⟨hmarked, ?_⟩
  rw [peekToken_eq]
  simp only [Reading.extend, token_extend hmarked]

/-- A name ends at its closing sigil, which is in front of the marker. -/
theorem ignores_nameOrNested (span : Span) :
    Ignores text s (nameOrNested span) fun _ _ => True := by
  intro found s' hread
  refine ⟨trivial, fun hmarked => ?_⟩
  by_cases hnested : Sigil.varStart.text.toList <+: Text.trimStart s.cursor.rest
  · rw [nameOrNested_of_nested hnested] at hread
    cases hread
    have hinside : Marked (s.cursor.rest.dropWhile Text.isBlank) := hmarked
    have hnested' : Sigil.varStart.text.toList <+: Text.trimStart (s.extend text).cursor.rest := by
      change _ <+: (s.cursor.rest ++ text).dropWhile Text.isBlank
      rw [dropWhile_extended hinside.ne_nil]
      exact hnested.trans (List.prefix_append _ text)
    refine ⟨hinside.of_suffix (List.dropWhile_suffix Text.isBlank), ?_⟩
    rw [nameOrNested_of_nested hnested']
    simp only [Reading.extend, skipWhile_extend hinside.ne_nil]
  · by_cases hends : Sigil.varEnd.text.toList <:+: s.cursor.rest
    · obtain ⟨front, after, hrest, hfirst⟩ := exists_first_varEnd hends
      rw [nameOrNested_of_closed hnested hrest hfirst] at hread
      cases hread
      have hbefore : Marked s.cursor.rest :=
        hmarked.of_suffix ⟨front ++ [':', ')'], by rw [hrest, List.append_assoc]; rfl⟩
      have htrimmed : Marked (Text.trimStart s.cursor.rest) := hbefore.dropWhile rfl
      have hplain : ¬ Sigil.varStart.text.toList <+:
          Text.trimStart (s.extend text).cursor.rest := by
        change ¬ _ <+: (s.cursor.rest ++ text).dropWhile Text.isBlank
        rw [dropWhile_extended htrimmed.ne_nil]
        intro hstarts
        exact hnested (isPrefix_of_extended hstarts (Nat.le_of_succ_le htrimmed.three_le))
      have hrest' : (s.extend text).cursor.rest = front ++ ':' :: ')' :: (after ++ text) := by
        change s.cursor.rest ++ text = _
        rw [hrest, List.append_assoc]
        rfl
      exact ⟨hbefore, nameOrNested_of_closed hplain hrest' hfirst⟩
    · rw [nameOrNested_of_unterminated hnested hends] at hread
      cases hread

/-- The sigils of an input that ends in front of a marker are the same with more text behind. -/
theorem inputRun_extended {rest : List Char} (h : Marked (rest.drop (2 * inputRun 0 rest)))
    (text : List Char) : inputRun 0 (rest ++ text) = inputRun 0 rest := by
  obtain ⟨index, tail, hrun, hrest, hstop⟩ := exists_inputRun 0 rest
  rw [Nat.zero_add] at hrun
  have htail : Marked tail := by
    rwa [hrun, hrest, ← length_flatten_input, List.drop_left] at h
  have hstop' : ¬ Sigil.input.text.toList <+: tail ++ text :=
    fun hstarts => hstop (isPrefix_of_extended hstarts (Nat.le_of_succ_le htail.three_le))
  rw [hrun, hrest, List.append_assoc, inputRun_append index 0 hstop', Nat.zero_add]

/-- An input that ends in front of a marker. -/
theorem ignores_inputIndex : Ignores text s inputIndex fun _ _ => True := by
  have hread : inputIndex s = .ok (inputRun 0 s.cursor.rest, s.pastInput) := rfl
  refine Ignores.of_ok hread trivial fun hmarked => ?_
  have hrun := inputRun_extended hmarked text
  have hlength : 2 * inputRun 0 s.cursor.rest ≤ s.cursor.rest.length := by
    apply Nat.le_of_not_le
    intro hle
    exact hmarked.ne_nil (List.drop_of_length_le hle)
  refine ⟨hmarked.of_suffix (List.drop_suffix _ _), ?_⟩
  change Except.ok (inputRun 0 (s.cursor.rest ++ text), Reading.mk
    ((s.cursor.extend text).skip (2 * inputRun 0 (s.cursor.rest ++ text))) s.pending
    (max s.inputCount (inputRun 0 (s.cursor.rest ++ text) + 1))) = _
  rw [hrun, skip_extend hlength]
  rfl

/-- A line that ends in front of a marker. -/
theorem ignores_lineText : Ignores text s lineText fun _ _ => True := by
  refine Ignores.of_ok rfl trivial fun hmarked => ⟨hmarked.of_suffix (List.drop_suffix _ _), ?_⟩
  change Except.ok ((s.cursor.extend text).readLine.1,
    Reading.mk (s.cursor.extend text).readLine.2 s.pending s.inputCount) = _
  rw [readLine_extend hmarked]
  rfl

/-- Readers that do not look behind an end marker. -/
def ignorance (text : List Char) : ReaderLogic where
  toKnowledge := .nothing
  Judged _ s x _ P := Ignores text s x P
  judged_pure h := Ignores.of_ok rfl h fun hmarked => ⟨hmarked, rfl⟩
  judged_throw _ _ := by
    intro a s' hread
    cases hread
  judged_bind hx hf := hx.bind fun a s' ha => hf a s' trivial ha
  judged_mono _ h := h
  judged_end h _ := h
  judged_nextToken := ignores_nextToken
  judged_token hend h := by
    apply ignores_nextToken.bind
    intro token s' _
    by_cases hkind : token.kind = .endOfInput
    · exact hend token s' trivial trivial hkind
    · exact h token s' trivial trivial hkind
  judged_peekToken := ignores_peekToken
  judged_setPending _ := Ignores.of_ok rfl trivial fun hmarked => ⟨hmarked, rfl⟩
  judged_pendingExpr := Ignores.of_ok rfl (fun _ _ => trivial) fun hmarked => ⟨hmarked, rfl⟩
  judged_countSoFar := Ignores.of_ok rfl rfl fun hmarked => ⟨hmarked, rfl⟩
  judged_nameOrNested _ := ignores_nameOrNested _
  judged_inputIndex _ _ := ignores_inputIndex
  judged_lineText := ignores_lineText

end Expr.Parser

/-! ### Whole programs -/

/-- A token at which a program ends. -/
def Token.EndsProgram (token : Token) : Prop :=
  token.kind = .endOfInput ∨ token.kind = .sigil .programEnd

namespace Expr.Parser

open Cursor

/-- Wherever a reader stops that starts from a state, a program can end there. -/
def Stops {α : Type} (s : Reading) (r : Reader α) : Prop :=
  ∀ a s', r s = .ok (a, s') → s'.cursor.peek.EndsProgram

/-- A reader that does nothing stops where it starts. -/
theorem Stops.pure {α : Type} {s : Reading} (h : s.cursor.peek.EndsProgram) (a : α) :
    Stops s (pure a : Reader α) := by
  intro b s' hread
  cases hread
  exact h

/-- Two readers in a row stop where the second does. -/
theorem Stops.bind {α β : Type} {s : Reading} {x : Reader α} {f : α → Reader β}
    (hf : ∀ a s₁, x s = .ok (a, s₁) → Stops s₁ (f a)) : Stops s (x >>= f) := by
  intro b s' hread
  obtain ⟨a, s₁, hfirst, hrest⟩ := ok_of_run_bind hread
  exact hf a s₁ hfirst b s' hrest

/-- The statements of a program are read up to a token at which a program can end. -/
theorem stops_statementsFrom {sub : Reader Expr} (htakes : Consumes 2 sub fun _ => True)
    {budget : Nat} {s : Reading} (hbudget : s.cursor.rest.length ≤ budget) (body : List Expr) :
    Stops s (statementsFrom sub budget body) := by
  induction budget generalizing s body with
  | zero =>
    obtain ⟨⟨rest, position⟩, pending, count⟩ := s
    obtain rfl := List.length_eq_zero_iff.mp (Nat.le_zero.mp hbudget)
    exact Stops.pure (Or.inl rfl) _
  | succ budget ih =>
    apply Stops.bind
    intro token s₀ hpeek
    rw [peekToken_eq] at hpeek
    obtain ⟨rfl, rfl⟩ := Prod.mk.inj (Except.ok.inj hpeek)
    split
    case h_1 hkind => exact Stops.pure (Or.inl hkind) _
    case h_2 hkind => exact Stops.pure (Or.inr hkind) _
    case h_3 =>
      apply Stops.bind
      intro e s₁ hfirst
      apply Stops.bind
      intro body' s₂ hcollect
      have hle₁ := (htakes s e s₁ hfirst).2
      have hle₂ := (consumes_collect e body s₁ body' s₂ hcollect).2
      exact ih (by omega) body'

/-- A program is read up to a token at which it can end. -/
theorem stops_program {budget : Nat} {s : Reading} (hbudget : s.cursor.rest.length ≤ budget) :
    Stops s (program budget) := by
  have hstatements : ∀ s₁ : Reading, s₁.cursor.rest.length ≤ budget → Stops s₁ (do
      let statements ← statementsFrom (expression budget) budget []
      return (⟨statements, (← get).inputCount⟩ : Program)) := by
    intro s₁ hle
    apply Stops.bind
    intro statements s₂ hread p s' hcount
    cases hcount
    exact stops_statementsFrom (consumes_expression budget) hle [] statements s₂ hread
  apply Stops.bind
  intro token s₀ hpeek
  rw [peekToken_eq] at hpeek
  obtain ⟨rfl, rfl⟩ := Prod.mk.inj (Except.ok.inj hpeek)
  split
  · apply Stops.bind
    intro _ s₁ hstart
    rw [run_discard_of_ok (nextToken_eq s)] at hstart
    obtain ⟨-, rfl⟩ := Prod.mk.inj (Except.ok.inj hstart)
    exact hstatements s.pastToken (Nat.le_trans s.cursor.readsTo_token.length_le hbudget)
  · exact hstatements s hbudget

end Expr.Parser

open Expr.Parser

variable {source : String} {p : Program} {stop : Token}

/-- Reads a source and looks at the token at which reading stops. -/
def parseUpTo (source : String) : Except Error (Program × Token) :=
  let cursor := Cursor.ofString source
  (do return (← program cursor.rest.length, ← peekToken)).run' ⟨cursor, none, 0⟩

/-- The token at which reading stops is the next one behind what was read. -/
theorem parseUpTo_eq_ok_iff : parseUpTo source = .ok (p, stop) ↔
    ∃ last, program (Cursor.ofString source).rest.length ⟨.ofString source, none, 0⟩ =
      .ok (p, last) ∧ last.cursor.peek = stop := by
  unfold parseUpTo
  rw [run'_eq_ok_iff]
  constructor
  · rintro ⟨last, hread⟩
    obtain ⟨p', s, hprogram, hpeek⟩ := ok_of_run_bind hread
    cases hpeek
    exact ⟨last, hprogram, rfl⟩
  · rintro ⟨last, hprogram, rfl⟩
    exact ⟨last, run_bind_of_ok hprogram⟩

/-- The program is the one that reading the source gives. -/
theorem parse_of_parseUpTo (h : parseUpTo source = .ok (p, stop)) : parse source = .ok p := by
  obtain ⟨last, hprogram, -⟩ := parseUpTo_eq_ok_iff.mp h
  exact run'_eq_ok_iff.mpr ⟨last, hprogram⟩

/-- A source with more text behind is the source extended by this text. -/
theorem Cursor.ofString_append (source text : String) :
    Cursor.ofString (source ++ text) = (Cursor.ofString source).extend text.toList := by
  simp only [Cursor.ofString, Cursor.extend, String.toList_append]

/-- What is read up to an end marker is read with any text behind the marker too. -/
theorem parseUpTo_append (h : parseUpTo source = .ok (p, stop))
    (hstop : stop.kind = .sigil .programEnd) (text : String) :
    parseUpTo (source ++ text) = .ok (p, stop) := by
  obtain ⟨last, hprogram, rfl⟩ := parseUpTo_eq_ok_iff.mp h
  obtain ⟨gap, hrest⟩ := Cursor.exists_rest_of_token hstop
  have hmarked : Cursor.Marked last.cursor.rest :=
    ⟨gap, last.cursor.token.2.rest, by rw [hrest, List.append_assoc]⟩
  have hlength : (Cursor.ofString source).rest.length ≤
      (Cursor.ofString (source ++ text)).rest.length := by
    rw [Cursor.ofString_append]
    exact (List.prefix_append _ text.toList).length_le
  -- The budget of the longer source would do for the shorter one.
  rw [agree_program (Nat.le_refl _) hlength _ (Nat.le_refl _)] at hprogram
  have hignores : Ignores text.toList ⟨.ofString source, none, 0⟩
      (program (Cursor.ofString (source ++ text)).rest.length) _ :=
    ReaderLogic.judged_program (L := ignorance text.toList) (Nat.le_refl _)
  obtain ⟨-, hextended⟩ := (hignores p last hprogram).2 hmarked
  refine parseUpTo_eq_ok_iff.mpr ⟨last.extend text.toList, ?_, ?_⟩
  · rw [← hextended, Cursor.ofString_append]
    rfl
  · change (last.cursor.extend text.toList).token.1 = last.cursor.token.1
    rw [Cursor.token_extend hmarked]

/-- Reading stops at the end of the input or at an end marker. Whatever stands behind the marker is
ignored: the program with its places and the number of its inputs, its code and its runs are the
same. -/
theorem parse_stops (h : parse source = .ok p) :
    ∃ stop, parseUpTo source = .ok (p, stop) ∧
      (stop.kind = .endOfInput ∨ stop.kind = .sigil .programEnd) ∧
      (stop.kind = .sigil .programEnd → ∀ text,
        parseUpTo (source ++ text) = .ok (p, stop) ∧ parse (source ++ text) = .ok p ∧
        compile (source ++ text) = compile source ∧
        ∀ budget inputs, run budget (source ++ text) inputs = run budget source inputs) := by
  obtain ⟨last, hprogram⟩ := run'_eq_ok_iff.mp h
  have hparsed : parseUpTo source = .ok (p, last.cursor.peek) :=
    parseUpTo_eq_ok_iff.mpr ⟨last, hprogram, rfl⟩
  have hstops : Stops ⟨.ofString source, none, 0⟩ (program (Cursor.ofString source).rest.length) :=
    stops_program (Nat.le_refl _)
  refine ⟨last.cursor.peek, hparsed, hstops p last hprogram, ?_⟩
  intro hstop text
  have hextended := parseUpTo_append hparsed hstop text
  have hparse : parse (source ++ text) = .ok p := parse_of_parseUpTo hextended
  have hcompile : compile (source ++ text) = compile source := by
    unfold compile
    rw [hparse, h]
  refine ⟨hextended, hparse, hcompile, ?_⟩
  intro budget inputs
  unfold run
  rw [hcompile]

/-- A program that ends at its second marker, since the first is in a comment. -/
def printsBeforeMarker : String := "<3 :# </3\n:P :$ :D </3"

/-- More inputs and an open print right behind the marker change nothing. -/
theorem parse_stops_printsBeforeMarker : ∃ p stop, parse printsBeforeMarker = .ok p ∧
    parseUpTo printsBeforeMarker = .ok (p, stop) ∧ stop.kind = .sigil .programEnd ∧
    p.inputCount = 1 ∧ parse (printsBeforeMarker ++ ":$:$ :P") = .ok p ∧
    run 10 (printsBeforeMarker ++ ":$:$ :P") ["hi"] = some (.ok ⟨"hi\n", .finished⟩) := by
  have hread : (parseUpTo printsBeforeMarker).toOption.map (fun r => (r.1.inputCount, r.2.kind)) =
      some (1, .sigil .programEnd) := by
    decide +kernel
  have hrun : run 10 printsBeforeMarker ["hi"] = some (.ok ⟨"hi\n", .finished⟩) := by
    decide +kernel
  cases hparsed : parseUpTo printsBeforeMarker with
  | error e =>
    rw [hparsed] at hread
    cases hread
  | ok r =>
    obtain ⟨p, token⟩ := r
    have hparse := parse_of_parseUpTo hparsed
    obtain ⟨stop, hstop, -, hignored⟩ := parse_stops hparse
    rw [hstop] at hread
    obtain ⟨hcount, hkind⟩ := Prod.mk.inj (Option.some.inj hread)
    obtain ⟨-, hextended, -, hruns⟩ := hignored hkind ":$:$ :P"
    exact ⟨p, stop, hparse, hparsed.symm.trans hstop, hkind, hcount, hextended,
      (hruns 10 ["hi"]).trans hrun⟩

end Smil
