import Smil.Proofs.Scanning

/-!
# The cursor knows its place

Readers mix what they ask of a cursor freely: they read tokens, look at tokens, and read names and
comments as plain characters and lines. Whatever the order, the cursor stands behind the text that
was taken: its offset counts the bytes of this text, its line the newlines, and its column the
characters after the last newline. So an offset is never inside a character, and the source can be
cut there. A token stands where its span says, also if its lexeme runs over the end of a line.
-/

namespace Smil

/-! ### Slices of a text -/

/-- Two offsets of a text are between characters, and the bytes from one to the other spell a
word. -/
structure Text.Slices (text : String) (start stop : Nat) (word : String) : Prop where
  valid_start : String.Pos.Raw.IsValid text ⟨start⟩
  valid_stop : String.Pos.Raw.IsValid text ⟨stop⟩
  bytes : text.toUTF8.extract start stop = word.toUTF8

/-- Where one part of a text ends and the next begins is a position in the text. -/
theorem Text.valid_append (before after : String) :
    String.Pos.Raw.IsValid (before ++ after) ⟨before.utf8ByteSize⟩ :=
  String.Pos.Raw.isValid_iff_exists_append.mpr ⟨before, after, rfl, rfl⟩

/-- The middle of three parts is the slice between its two ends. -/
theorem Text.slices_append (before word after : String) :
    Text.Slices (before ++ word ++ after) before.utf8ByteSize
      (before.utf8ByteSize + word.utf8ByteSize) word where
  valid_start := by
    rw [String.append_assoc]
    exact Text.valid_append before (word ++ after)
  valid_stop := by
    rw [← String.utf8ByteSize_append]
    exact Text.valid_append (before ++ word) after
  bytes := by
    have hfront : (before ++ word).toUTF8 = before.toUTF8 ++ word.toUTF8 :=
      String.toByteArray_append
    have hsize : before.utf8ByteSize + word.utf8ByteSize = (before ++ word).toUTF8.size :=
      String.utf8ByteSize_append.symm
    have hbytes : (before ++ word ++ after).toUTF8 = (before ++ word).toUTF8 ++ after.toUTF8 :=
      String.toByteArray_append
    rw [hbytes, hsize, ByteArray.extract_append_size_left, hfront]
    exact ByteArray.extract_append_eq_right rfl ByteArray.size_append

/-- What a span marks is the slice between its ends. -/
theorem Span.Marks.slices {span : Span} {source word : String} (h : span.Marks source word) :
    Text.Slices source span.start span.stop word := by
  obtain ⟨before, after, hsource, hstart, hstop, -⟩ := h
  rw [hsource, hstart, hstop]
  exact Text.slices_append before word after

/-- A token stands in the source right behind a text, and its span runs from there to behind its
lexeme. -/
structure Token.StandsBehind (token : Token) (source before : String) : Prop where
  source : ∃ after, source = before ++ token.lexeme ++ after
  span : token.span = (Position.behind before).spanTo (.behind (before ++ token.lexeme))

/-- The span of a token that stands in a source marks its text there. -/
theorem Token.StandsBehind.marks {token : Token} {source before : String}
    (h : token.StandsBehind source before) : token.span.Marks source token.lexeme := by
  obtain ⟨after, hsource⟩ := h.source
  refine ⟨before, after, hsource, ?_⟩
  rw [h.span, ← String.utf8ByteSize_append]
  exact ⟨rfl, rfl, rfl, rfl⟩

namespace Cursor

variable {source read : String} {c : Cursor}

/-! ### What is asked of a cursor -/

/-- What a cursor can be asked for. -/
inductive Request where
  /-- Read the next token. -/
  | token
  /-- Look at the next token, behind white space or right at the cursor. -/
  | peek (skipsGap : Bool)
  /-- Read a character. -/
  | char
  /-- Read the rest of the line and its newline. -/
  | line
  /-- Tell the place of the cursor. -/
  | place
deriving DecidableEq, Repr

/-- What a cursor hands out. -/
inductive Reply where
  | token (token : Token)
  | char (found : Option Char)
  | line (text : String)
  | place (span : Span)
deriving DecidableEq, Repr

/-- Answers a request. -/
def answer (c : Cursor) : Request → Reply × Cursor
  | .token => (.token c.token.1, c.token.2)
  | .peek true => (.token c.peek, c)
  | .peek false => (.token c.scan.1, c)
  | .char =>
    match c.next? with
    | some (found, after) => (.char (some found), after)
    | none => (.char none, c)
  | .line => (.line c.readLine.1, c.readLine.2)
  | .place => (.place c.here, c)

/-- Answers requests one after another. -/
def answers (c : Cursor) : List Request → List Reply × Cursor
  | [] => ([], c)
  | request :: requests =>
    let (reply, after) := c.answer request
    let (replies, last) := after.answers requests
    (reply :: replies, last)

/-- How a request and its reply move the end of what has been read of a source. A token is taken
with the white space in front of it, a character is taken alone, and a line is taken with its
newline, unless it is the last. All else takes nothing. Tokens and places are told as they are
counted in the source. -/
inductive Advances (source : String) : String → Request → Reply → String → Prop
  | token {read gap : String} {t : Token} (hgap : Gap gap.toList)
      (ht : t.StandsBehind source (read ++ gap)) :
      Advances source read .token (.token t) (read ++ gap ++ t.lexeme)
  | peek {read gap : String} {t : Token} (hgap : Gap gap.toList)
      (ht : t.StandsBehind source (read ++ gap)) :
      Advances source read (.peek true) (.token t) read
  | peekHere {read : String} {t : Token} (ht : t.StandsBehind source read) :
      Advances source read (.peek false) (.token t) read
  | char (read : String) (found : Char) :
      Advances source read .char (.char (some found)) (read.push found)
  | noChar : Advances source source .char (.char none) source
  | line {read text : String} (htext : '\n' ∉ text.toList) :
      Advances source read .line (.line text) (read ++ text ++ "\n")
  | lastLine {read text : String} (htext : '\n' ∉ text.toList) (hend : source = read ++ text) :
      Advances source read .line (.line text) (read ++ text)
  | place (read : String) :
      Advances source read .place (.place ((Position.behind read).spanTo (.behind read))) read

/-- How requests move the end of what has been read, one after another. -/
inductive AdvancesAll (source : String) : String → List Request → List Reply → String → Prop
  | nil (read : String) : AdvancesAll source read [] [] read
  | cons {read read' last : String} {request : Request} {reply : Reply} {requests : List Request}
      {replies : List Reply} (hfirst : Advances source read request reply read')
      (hrest : AdvancesAll source read' requests replies last) :
      AdvancesAll source read (request :: requests) (reply :: replies) last

/-! ### One request -/

/-- Skipping characters leaves them behind. -/
theorem Behind.skip (h : c.Behind source read) (n : Nat) :
    (c.skip n).Behind source (read ++ String.ofList (c.rest.take n)) :=
  h.read (List.take_append_drop n c.rest).symm

/-- A token that is cut off stands behind what was read, and is read then. -/
theorem Behind.cut (h : c.Behind source read) (n : Nat) (kind : Token.Kind) :
    (c.cut n kind).1.StandsBehind source read ∧
      (c.cut n kind).2.Behind source (read ++ (c.cut n kind).1.lexeme) := by
  have hafter := h.skip n
  refine ⟨⟨⟨String.ofList (c.skip n).rest, hafter.1⟩, ?_⟩, hafter⟩
  change c.position.spanTo (c.skip n).position = _
  rw [h.2, hafter.2]
  rfl

/-- The token at the cursor stands behind what has been read, also the empty one where the source
ends. -/
theorem Behind.scan (h : c.Behind source read) :
    c.scan.1.StandsBehind source read ∧ c.scan.2.Behind source (read ++ c.scan.1.lexeme) := by
  unfold Cursor.scan
  split
  · exact h.cut 3 _
  · exact h.cut 2 _
  · rw [String.append_empty]
    refine ⟨⟨⟨String.ofList c.rest, ?_⟩, ?_⟩, h⟩
    · rw [String.append_empty]
      exact h.1
    · rw [String.append_empty, ← h.2]
      rfl

/-- The next token stands behind what was read and the gap in front of it. -/
theorem Behind.token (h : c.Behind source read) : ∃ gap : String, Gap gap.toList ∧
    c.token.1.StandsBehind source (read ++ gap) ∧
      c.token.2.Behind source (read ++ gap ++ c.token.1.lexeme) := by
  have hskip : (c.skipWhile isGap).Behind source
      (read ++ String.ofList (c.rest.takeWhile isGap)) :=
    h.read List.takeWhile_append_dropWhile.symm
  refine ⟨String.ofList (c.rest.takeWhile isGap), ?_, hskip.scan⟩
  intro ch hch
  rw [String.toList_ofList] at hch
  exact List.mem_takeWhile_imp hch

/-- A line ends at a newline or where the source ends. -/
theorem Behind.readLine (h : c.Behind source read) : ∃ read',
    Advances source read .line (.line c.readLine.1) read' ∧ c.readLine.2.Behind source read' := by
  have hafter := h.skip ((c.rest.takeWhile (· != '\n')).length + 1)
  refine ⟨_, ?_, hafter⟩
  have hline : '\n' ∉ (String.ofList (c.rest.takeWhile (· != '\n'))).toList := by
    rw [String.toList_ofList]
    intro hmem
    have hne := List.mem_takeWhile_imp hmem
    exact absurd hne (by decide)
  have hrest : c.rest = c.rest.takeWhile (· != '\n') ++ c.rest.dropWhile (· != '\n') :=
    List.takeWhile_append_dropWhile.symm
  change Advances source read .line (.line (String.ofList (c.rest.takeWhile (· != '\n')))) _
  generalize c.rest.takeWhile (· != '\n') = line at hline hrest ⊢
  cases hdrop : c.rest.dropWhile (· != '\n') with
  | nil =>
    rw [hdrop, List.append_nil] at hrest
    rw [hrest, List.take_of_length_le (Nat.le_succ _)]
    exact .lastLine hline (hrest ▸ h.1)
  | cons ch tail =>
    have hch : ch = '\n' := by
      have hhead := List.head?_dropWhile_not (· != '\n') c.rest
      rw [hdrop] at hhead
      simpa using hhead
    have htake : c.rest.take (line.length + 1) = line ++ ['\n'] := by
      rw [hrest, hdrop, hch, List.take_length_add_append]
      rfl
    rw [htake, String.ofList_append, ← String.append_assoc]
    exact .line hline

/-- Every request leaves the cursor behind the text that is read then. -/
theorem Behind.answer (h : c.Behind source read) (request : Request) : ∃ read',
    Advances source read request (c.answer request).1 read' ∧
      (c.answer request).2.Behind source read' := by
  cases request with
  | token =>
    obtain ⟨gap, hgap, ht, hafter⟩ := h.token
    exact ⟨_, .token hgap ht, hafter⟩
  | peek skipsGap =>
    cases skipsGap with
    | true =>
      obtain ⟨gap, hgap, ht, -⟩ := h.token
      exact ⟨read, .peek hgap ht, h⟩
    | false => exact ⟨read, .peekHere h.scan.1, h⟩
  | char =>
    obtain ⟨rest, position⟩ := c
    cases rest with
    | nil =>
      have hend : source = read := by
        rw [h.1]
        exact String.append_empty
      subst hend
      exact ⟨source, .noChar, h⟩
    | cons ch rest =>
      have hafter := h.read (show ch :: rest = [ch] ++ rest from rfl)
      have hpush : read ++ String.ofList [ch] = read.push ch := by
        apply String.toList_inj.mp
        simp
      rw [hpush] at hafter
      exact ⟨read.push ch, .char read ch, hafter⟩
  | line => exact h.readLine
  | place =>
    refine ⟨read, ?_, h⟩
    have hplace : Advances source read .place _ read := .place read
    rw [← h.2] at hplace
    exact hplace

/-! ### Any requests -/

/-- Requests leave the cursor behind the text that they have read together. -/
theorem Behind.answers (h : c.Behind source read) (requests : List Request) : ∃ read',
    AdvancesAll source read requests (c.answers requests).1 read' ∧
      (c.answers requests).2.Behind source read' := by
  induction requests generalizing c read with
  | nil => exact ⟨read, .nil read, h⟩
  | cons request requests ih =>
    obtain ⟨between, hfirst, hbetween⟩ := h.answer request
    obtain ⟨last, hrest, hlast⟩ := ih hbetween
    exact ⟨last, .cons hfirst hrest, hlast⟩

/-- A look at the next token can be left out: the other replies stay, and so does the last
cursor. -/
theorem answers_eraseIdx_peek (c : Cursor) (before after : List Request) (skipsGap : Bool) :
    c.answers (before ++ after) =
      ((c.answers (before ++ .peek skipsGap :: after)).1.eraseIdx before.length,
        (c.answers (before ++ .peek skipsGap :: after)).2) := by
  induction before generalizing c with
  | nil => cases skipsGap <;> rfl
  | cons request before ih =>
    change ((c.answer request).1 :: ((c.answer request).2.answers (before ++ after)).1,
      ((c.answer request).2.answers (before ++ after)).2) = _
    rw [ih]
    rfl

/-- Tokens are told as they stand in the source. -/
theorem Advances.marks {request : Request} {read' : String} {t : Token}
    (h : Advances source read request (.token t) read') : t.span.Marks source t.lexeme := by
  cases h with
  | token _ ht => exact ht.marks
  | peek _ ht => exact ht.marks
  | peekHere ht => exact ht.marks

/-- Whatever is requested of a cursor, every token that is given marks its text. -/
theorem AdvancesAll.marks {requests : List Request} {replies : List Reply} {last : String}
    {t : Token} (h : AdvancesAll source read requests replies last) (ht : .token t ∈ replies) :
    t.span.Marks source t.lexeme := by
  induction h with
  | nil => exact absurd ht List.not_mem_nil
  | cons hfirst _ ih =>
    rcases List.mem_cons.mp ht with rfl | ht
    · exact hfirst.marks
    · exact ih ht

/-- The place of a cursor, counted on the text that has been read: the offset is in the source and
between characters, and all that stands behind it is unread. -/
structure Exact (c : Cursor) (source read : String) : Prop where
  joined : source = read ++ String.ofList c.rest
  offset : c.position.offset = read.utf8ByteSize
  line : c.position.line = 1 + read.toList.count '\n'
  column : c.position.column = 1 + (Position.lastLine read).length
  inside : c.position.offset ≤ source.utf8ByteSize
  unread : Text.Slices source c.position.offset source.utf8ByteSize (String.ofList c.rest)

/-- A cursor behind some text has its exact position. -/
theorem Behind.exact (h : c.Behind source read) : c.Exact source read := by
  obtain ⟨hsource, hposition⟩ := h
  have hoffset : c.position.offset = read.utf8ByteSize := congrArg Position.offset hposition
  have hsize : source.utf8ByteSize = read.utf8ByteSize + (String.ofList c.rest).utf8ByteSize := by
    rw [hsource, String.utf8ByteSize_append]
  refine ⟨hsource, hoffset, congrArg Position.line hposition, congrArg Position.column hposition,
    ?_, ?_⟩
  · rw [hoffset, hsize]
    exact Nat.le_add_right _ _
  · have hslices := Text.slices_append read (String.ofList c.rest) ""
    rwa [String.append_empty, ← hsource, ← hsize, ← hoffset] at hslices

/-- Whatever is asked of a cursor at the start of a source, and in whatever order, its place is that
behind the text which was read; every token that it hands out stands at its span; and looking at a
token changes nothing. -/
theorem place_of_answers (source : String) (requests : List Request) :
    (∃ read, AdvancesAll source "" requests ((ofString source).answers requests).1 read ∧
      ((ofString source).answers requests).2.Exact source read) ∧
    (∀ t, .token t ∈ ((ofString source).answers requests).1 →
      t.span.Marks source t.lexeme ∧ Text.Slices source t.span.start t.span.stop t.lexeme) ∧
    ∀ before skipsGap after, requests = before ++ .peek skipsGap :: after →
      (ofString source).answers (before ++ after) =
        (((ofString source).answers requests).1.eraseIdx before.length,
          ((ofString source).answers requests).2) := by
  obtain ⟨read, hadvances, hlast⟩ := (behind_ofString source).answers requests
  refine ⟨⟨read, hadvances, hlast.exact⟩, ?_, ?_⟩
  · intro t ht
    have hmarks := hadvances.marks ht
    exact ⟨hmarks, hmarks.slices⟩
  · rintro before skipsGap after rfl
    exact answers_eraseIdx_peek _ before after skipsGap

/-- A token that begins with a character of two bytes and runs over the end of the line. -/
theorem place_of_answers_overLine :
    ((ofString "é\n:) x\ny").answers [.peek true, .token, .char, .line, .place]).1 =
      [.token ⟨.unknown, "é\n", ⟨0, 3, 1, 1⟩⟩, .token ⟨.unknown, "é\n", ⟨0, 3, 1, 1⟩⟩,
        .char (some ':'), .line ") x", .place ⟨8, 8, 3, 1⟩] ∧
    Text.Slices "é\n:) x\ny" 0 3 "é\n" ∧
    ((ofString "é\n:) x\ny").answers [.token, .char, .line, .place]).1 =
      [.token ⟨.unknown, "é\n", ⟨0, 3, 1, 1⟩⟩, .char (some ':'), .line ") x",
        .place ⟨8, 8, 3, 1⟩] := by
  have hreplies : ((ofString "é\n:) x\ny").answers [.peek true, .token, .char, .line, .place]).1 =
      [.token ⟨.unknown, "é\n", ⟨0, 3, 1, 1⟩⟩, .token ⟨.unknown, "é\n", ⟨0, 3, 1, 1⟩⟩,
        .char (some ':'), .line ") x", .place ⟨8, 8, 3, 1⟩] := by
    decide +kernel
  obtain ⟨-, htokens, hpeeks⟩ :=
    place_of_answers "é\n:) x\ny" [.peek true, .token, .char, .line, .place]
  rw [hreplies] at htokens hpeeks
  have hslices := (htokens ⟨.unknown, "é\n", ⟨0, 3, 1, 1⟩⟩ List.mem_cons_self).2
  exact ⟨hreplies, hslices, congrArg Prod.fst (hpeeks [] true _ rfl)⟩

end Cursor

end Smil
