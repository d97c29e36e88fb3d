import Smil.Cursor

/-!
# Places are counted right

The position of a cursor is kept character by character. Here it is compared with the text that has
been read: the offset is the number of its bytes, the line counts its newlines, and the column
counts the characters after the last of them. So the span of a token says where the token stands,
and the text at the span of a sigil is that sigil.
-/

namespace Smil

/-! ### Positions and the text before them -/

namespace Position

/-- The characters of a text after its last newline. -/
def lastLine (text : String) : List Char :=
  (text.toList.reverse.takeWhile (· != '\n')).reverse

/-- The position behind a text, counted on the whole text. -/
def behind (text : String) : Position :=
  ⟨text.utf8ByteSize, 1 + text.toList.count '\n', 1 + (lastLine text).length⟩

/-- One more character is some more bytes, and a new line or a new column. -/
theorem after_behind (text : String) (c : Char) :
    (behind text).after c = behind (text.push c) := by
  by_cases hc : c = '\n'
  · subst hc
    simp [after, behind, lastLine, Nat.add_assoc]
  · simp [after, behind, lastLine, hc, Nat.add_assoc]

/-- Reading on from behind a text leads behind the longer text. -/
theorem afterAll_behind (text : String) (cs : List Char) :
    (behind text).afterAll cs = behind (text ++ String.ofList cs) := by
  induction cs generalizing text with
  | nil => simp [afterAll]
  | cons c cs ih =>
    have htext : text.push c ++ String.ofList cs = text ++ String.ofList (c :: cs) := by
      apply String.toList_inj.mp
      simp
    change ((behind text).after c).afterAll cs = _
    rw [after_behind, ih, htext]

end Position

/-- What is left of a text is nothing, or it starts with a character that is no white space. -/
def Cursor.Visible (rest : List Char) : Prop :=
  ∀ c ∈ rest.head?, isGap c = false

/-- Every sigil starts with a character that is no white space. -/
theorem Sigil.visible_text (s : Sigil) (rest : List Char) :
    Cursor.Visible (s.text.toList ++ rest) := by
  have hfirst : ∃ c cs, s.text.toList = c :: cs ∧ Cursor.isGap c = false := by
    cases s with
    | operator op => cases op <;> exact ⟨_, _, rfl, rfl⟩
    | _ => exact ⟨_, _, rfl, rfl⟩
  obtain ⟨c, cs, htext, hc⟩ := hfirst
  intro c' hc'
  rw [htext] at hc'
  cases hc'
  exact hc

/-! ### Spans in a source -/

namespace Span

/-- A span starts at a place of the source: the text before it has the number of bytes, of lines and
of characters on the last line that the span says. The text behind it does not start with white
space. -/
def Points (span : Span) (source : String) : Prop :=
  ∃ before after : String, source = before ++ after ∧ span.start = before.utf8ByteSize ∧
    span.line = 1 + before.toList.count '\n' ∧
    span.column = 1 + (Position.lastLine before).length ∧ Cursor.Visible after.toList

/-- A word stands in the source exactly at a span. -/
def Marks (span : Span) (source word : String) : Prop :=
  ∃ before after : String, source = before ++ word ++ after ∧
    span.start = before.utf8ByteSize ∧
    span.stop = before.utf8ByteSize + word.utf8ByteSize ∧
    span.line = 1 + before.toList.count '\n' ∧
    span.column = 1 + (Position.lastLine before).length

/-- Where a sigil stands is a place of the source. -/
theorem Marks.points {span : Span} {source : String} {s : Sigil} (h : span.Marks source s.text) :
    span.Points source := by
  obtain ⟨before, after, hsource, hstart, -, hline, hcolumn⟩ := h
  refine ⟨before, s.text ++ after, ?_, hstart, hline, hcolumn, ?_⟩
  · rw [hsource, String.append_assoc]
  · rw [String.toList_append]
    exact s.visible_text after.toList

end Span

/-! ### Cursors in a source -/

namespace Cursor

variable {source : String} {c : Cursor}

/-- A cursor that stands in a source behind the text that has been read, at the position there. -/
def Behind (c : Cursor) (source read : String) : Prop :=
  source = read ++ String.ofList c.rest ∧ c.position = .behind read

/-- At the start of a source nothing has been read. -/
theorem behind_ofString (source : String) : (ofString source).Behind source "" := by
  refine ⟨?_, rfl⟩
  simp [ofString]

/-- Reading some of the rest moves the cursor behind it. -/
theorem Behind.read {before : String} {front rest : List Char} (h : c.Behind source before)
    (hrest : c.rest = front ++ rest) :
    Behind ⟨rest, c.position.afterAll front⟩ source (before ++ String.ofList front) := by
  obtain ⟨hsource, hposition⟩ := h
  refine ⟨?_, ?_⟩
  · rw [hsource, hrest, String.ofList_append, String.append_assoc]
  · rw [hposition, Position.afterAll_behind]

/-- A cursor that stands somewhere in a source, at the position behind what has been read. -/
def Within (c : Cursor) (source : String) : Prop :=
  ∃ before : String, c.Behind source before

/-- The cursor at the start of a source stands in the source. -/
theorem within_ofString (source : String) : (ofString source).Within source :=
  ⟨"", behind_ofString source⟩

/-! ### Reading on -/

/-- Reading on from a cursor leads to another one: what stands between them has been read. -/
def ReadsTo (c c' : Cursor) : Prop :=
  ∃ front, c.rest = front ++ c'.rest ∧ c'.position = c.position.afterAll front

namespace ReadsTo

variable {c' c'' : Cursor}

/-- A cursor that has not moved. -/
theorem refl (c : Cursor) : c.ReadsTo c :=
  ⟨[], rfl, rfl⟩

/-- Reading on twice is reading on. -/
theorem trans (h : c.ReadsTo c') (h' : c'.ReadsTo c'') : c.ReadsTo c'' := by
  obtain ⟨front, hrest, hposition⟩ := h
  obtain ⟨front', hrest', hposition'⟩ := h'
  refine ⟨front ++ front', ?_, ?_⟩
  · rw [hrest, hrest', List.append_assoc]
  · rw [hposition', hposition, Position.afterAll, Position.afterAll, Position.afterAll,
      List.foldl_append]

/-- What is left later was left before. -/
theorem isSuffix (h : c.ReadsTo c') : c'.rest <:+ c.rest := by
  obtain ⟨front, hrest, -⟩ := h
  exact ⟨front, hrest.symm⟩

/-- What is left does not get longer. -/
theorem length_le (h : c.ReadsTo c') : c'.rest.length ≤ c.rest.length :=
  h.isSuffix.length_le

end ReadsTo

/-- Skipping characters of a kind is reading on. -/
theorem readsTo_skipWhile (p : Char → Bool) (c : Cursor) : c.ReadsTo (c.skipWhile p) :=
  ⟨c.rest.takeWhile p, List.takeWhile_append_dropWhile.symm, rfl⟩

/-- Skipping a number of characters is reading on. -/
theorem readsTo_skip (n : Nat) (c : Cursor) : c.ReadsTo (c.skip n) :=
  ⟨c.rest.take n, (List.take_append_drop n c.rest).symm, rfl⟩

/-- Reading the rest of a line is reading on. -/
theorem readsTo_readLine (c : Cursor) : c.ReadsTo c.readLine.2 :=
  readsTo_skip _ c

/-- A token right at the cursor leads behind it, or nowhere at the end of the input. -/
theorem readsTo_scan (c : Cursor) : c.ReadsTo c.scan.2 := by
  unfold scan
  split
  · exact readsTo_skip 3 c
  · exact readsTo_skip 2 c
  · exact ReadsTo.refl c

/-- Reading the next token is reading on. -/
theorem readsTo_token (c : Cursor) : c.ReadsTo c.token.2 :=
  (readsTo_skipWhile isGap c).trans (readsTo_scan _)

/-- Reading on stays in the source. -/
theorem Within.readsTo {c' : Cursor} (h : c.Within source) (hread : c.ReadsTo c') :
    c'.Within source := by
  obtain ⟨before, hbehind⟩ := h
  obtain ⟨front, hrest, hposition⟩ := hread
  refine ⟨before ++ String.ofList front, ?_⟩
  have hlater := hbehind.read hrest
  rwa [← hposition] at hlater

/-- The place of a cursor behind white space is a place of the source. -/
theorem Within.points {q : Position} (h : c.Within source) (hvisible : Visible c.rest) :
    (c.position.spanTo q).Points source := by
  obtain ⟨before, hsource, hposition⟩ := h
  refine ⟨before, String.ofList c.rest, hsource, ?_, ?_, ?_, ?_⟩
  · rw [hposition]
    rfl
  · rw [hposition]
    rfl
  · rw [hposition]
    rfl
  · rwa [String.toList_ofList]

/-- The characters that are cut off stand at the span of the token. -/
theorem Within.marks_cut (h : c.Within source) (word : String) {rest : List Char}
    (hrest : c.rest = word.toList ++ rest) (kind : Token.Kind) :
    (c.cut word.toList.length kind).1.span.Marks source word := by
  obtain ⟨before, hsource, hposition⟩ := h
  refine ⟨before, String.ofList rest, ?_, ?_, ?_, ?_, ?_⟩
  · rw [hsource, hrest, String.ofList_append, String.ofList_toList, String.append_assoc]
  · simp [cut, Position.spanTo, hposition, Position.behind]
  · have htake : c.rest.take word.toList.length = word.toList := by
      rw [hrest, List.take_left]
    simp only [cut, Cursor.skip, Position.spanTo, hposition, Position.afterAll_behind, htake,
      String.ofList_toList]
    simp [Position.behind]
  · simp [cut, Position.spanTo, hposition, Position.behind]
  · simp [cut, Position.spanTo, hposition, Position.behind]

end Cursor

namespace Sigil

/-- Two characters are the spelling of the sigil that they are read as. -/
theorem text_of_ofPair? {a b : Char} {s : Sigil} (h : ofPair? a b = some s) :
    s.text.toList = [a, b] := by
  unfold ofPair? at h
  split at h <;> cases h <;> rfl

end Sigil

/-! ### Tokens in a source -/

/-- A token starts at its place in the source, and if it is a sigil, the sigil stands there. -/
structure Token.Placed (token : Token) (source : String) : Prop where
  points : token.span.Points source
  marks : ∀ s, token.kind = .sigil s → token.span.Marks source s.text

namespace Cursor

variable {source : String} {c : Cursor}

/-- What is left behind white space does not start with white space. -/
theorem visible_skipWhile (c : Cursor) : Visible (c.skipWhile isGap).rest := by
  intro ch hch
  have hhead := List.head?_dropWhile_not isGap c.rest
  rwa [show (c.rest.dropWhile isGap).head? = some ch from hch] at hhead

/-- A token right at the cursor, where no white space stands, is placed in the source. -/
theorem Within.placed_scan (h : c.Within source) (hvisible : Visible c.rest) :
    c.scan.1.Placed source := by
  unfold Cursor.scan
  split
  · rename_i rest hrest
    have hmarks := h.marks_cut Sigil.programEnd.text hrest (.sigil .programEnd)
    refine ⟨hmarks.points, ?_⟩
    rintro s ⟨⟩
    exact hmarks
  · rename_i a b rest _ hrest
    refine ⟨h.points hvisible, ?_⟩
    intro s hs
    change pairKind a b = .sigil s at hs
    have hpair : Sigil.ofPair? a b = some s := by
      unfold pairKind at hs
      split at hs
      · rename_i s' hs'
        cases hs
        exact hs'
      · cases hs
    have htext := Sigil.text_of_ofPair? hpair
    have hmarks := h.marks_cut s.text (by rw [htext]; exact hrest) (pairKind a b)
    rwa [htext] at hmarks
  · refine ⟨h.points hvisible, ?_⟩
    rintro s ⟨⟩

/-- The next token is placed in the source. -/
theorem Within.placed_token (h : c.Within source) : c.token.1.Placed source :=
  (h.readsTo (readsTo_skipWhile isGap c)).placed_scan c.visible_skipWhile

end Cursor

end Smil
