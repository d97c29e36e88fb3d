import Smil.Proofs.Consumption
import Smil.Proofs.Scanning

/-!
# Cutting a source into tokens loses nothing

Names and comments are no tokens, so a reader of programs asks for tokens only in between. Asked for
nothing but tokens, the cursor cuts the whole source into lexemes with white space in front of them;
what is left at the end is white space and at most one character. Each token says in bytes where its
lexeme stands. White space can be in a lexeme too, as the second of two characters that spell no
sigil.
-/

namespace Smil

/-- Reading characters moves the offset by the number of their bytes. -/
theorem Position.offset_afterAll (p : Position) (cs : List Char) :
    (p.afterAll cs).offset = p.offset + (String.ofList cs).utf8ByteSize := by
  induction cs generalizing p with
  | nil => simp [afterAll]
  | cons c cs ih =>
    have hafter : (p.after c).offset = p.offset + c.utf8Size := by
      unfold after
      split <;> rfl
    change ((p.after c).afterAll cs).offset = _
    rw [ih, hafter, String.ofList_cons]
    simp [Nat.add_assoc]

/-! ### One token -/

namespace Token

/-- What is cut from the front of a text as a token: the end marker if it stands there, and two
characters otherwise, the first of which is no white space. The kind is that of the sigil which they
spell, or unknown if they spell none. -/
structure CutFrom (token : Token) (text : List Char) : Prop where
  starts : ∃ c cs, token.lexeme.toList = c :: cs ∧ Cursor.isGap c = false
  marker : "</3".toList <+: text → token.lexeme = "</3"
  pair : ¬ "</3".toList <+: text → token.lexeme.length = 2
  kind : (∃ s : Sigil, s.text = token.lexeme ∧ token.kind = .sigil s) ∨
    (∀ s : Sigil, s.text ≠ token.lexeme) ∧ token.kind = .unknown

end Token

namespace Cursor

/-- The kind of two characters is the sigil that they spell, or unknown. -/
theorem pairKind_cases (a b : Char) :
    (∃ s : Sigil, s.text = String.ofList [a, b] ∧ pairKind a b = .sigil s) ∨
      (∀ s : Sigil, s.text ≠ String.ofList [a, b]) ∧ pairKind a b = .unknown := by
  unfold pairKind
  split
  · rename_i s hpair
    refine Or.inl ⟨s, ?_, rfl⟩
    rw [← Sigil.text_of_ofPair? hpair, String.ofList_toList]
  · rename_i hnone
    refine Or.inr ⟨fun s htext => ?_, rfl⟩
    have hs : s ≠ .programEnd := by
      rintro rfl
      have hlength := congrArg (fun text => text.toList.length) htext
      simp [Sigil.text] at hlength
    have hfound := Sigil.ofText?_text s hs
    rw [htext, Sigil.ofText?, String.toList_ofList] at hfound
    cases hnone.symm.trans hfound

/-- A token is what was read between two cursors, with the bytes of its lexeme as its span. -/
structure Takes (c : Cursor) (token : Token) (after : Cursor) : Prop where
  rest : c.rest = token.lexeme.toList ++ after.rest
  start : token.span.start = c.position.offset
  stop : token.span.stop = c.position.offset + token.lexeme.utf8ByteSize
  offset : after.position.offset = token.span.stop

/-- Cutting off a lexeme takes it. -/
theorem takes_cut (lexeme tail : List Char) (position : Position) (kind : Token.Kind) :
    Takes ⟨lexeme ++ tail, position⟩ (cut lexeme.length kind ⟨lexeme ++ tail, position⟩).1
      (cut lexeme.length kind ⟨lexeme ++ tail, position⟩).2 := by
  unfold cut
  rw [skip_append, List.take_left]
  have hoffset := Position.offset_afterAll position lexeme
  exact ⟨by rw [String.toList_ofList], rfl, hoffset, rfl⟩

/-- At a character that is no white space a token is cut from the front of the text, unless at most
one character is left. -/
theorem scan_cases (c : Cursor) (hvisible : Visible c.rest) :
    (c.scan.1.kind = .endOfInput ∧ c.scan.2 = c ∧ c.rest.length ≤ 1) ∨
      c.scan.1.kind ≠ .endOfInput ∧ c.Takes c.scan.1 c.scan.2 ∧
        c.scan.1.CutFrom c.rest := by
  obtain ⟨rest, position⟩ := c
  unfold scan
  split
  · rename_i tail hrest
    change rest = ['<', '/', '3'] ++ tail at hrest
    subst hrest
    have htext : "</3".toList <+: ['<', '/', '3'] ++ tail := List.prefix_append _ tail
    refine Or.inr ⟨nofun, takes_cut _ tail position _, ?_⟩
    exact ⟨⟨'<', ['/', '3'], String.toList_ofList, rfl⟩, fun _ => rfl,
      fun hnot => absurd htext hnot, Or.inl ⟨.programEnd, rfl, rfl⟩⟩
  · rename_i a b tail hmarker hrest
    change rest = [a, b] ++ tail at hrest
    subst hrest
    have htext : ¬ "</3".toList <+: [a, b] ++ tail := by
      rintro ⟨tail', htail'⟩
      obtain ⟨ha, htail⟩ := List.cons.inj htail'.symm
      obtain ⟨hb, htail⟩ := List.cons.inj htail
      exact hmarker tail' ha hb htail
    have hkind : pairKind a b ≠ .endOfInput := by
      rcases pairKind_cases a b with ⟨s, -, hs⟩ | ⟨-, hunknown⟩
      · rw [hs]
        nofun
      · rw [hunknown]
        nofun
    refine Or.inr ⟨hkind, takes_cut _ tail position _, ?_⟩
    exact ⟨⟨a, [b], String.toList_ofList, hvisible a rfl⟩, fun hstarts => absurd hstarts htext,
      fun _ => by simp [cut], pairKind_cases a b⟩
  · rename_i _ hshort
    exact Or.inl ⟨rfl, rfl, Nat.le_of_lt_succ (length_lt_two hshort)⟩

/-- The next token is cut off behind white space, unless at most one character is left there. -/
theorem token_cases (c : Cursor) : ∃ gap rest : String, Gap gap.toList ∧
    String.ofList c.rest = gap ++ rest ∧ Visible rest.toList ∧
    ((c.token.1.kind = .endOfInput ∧ c.token.2.rest = rest.toList ∧ rest.length ≤ 1) ∨
      c.token.1.kind ≠ .endOfInput ∧ c.token.1.CutFrom rest.toList ∧
        rest = c.token.1.lexeme ++ String.ofList c.token.2.rest ∧
        c.token.1.span.start = c.position.offset + gap.utf8ByteSize ∧
        c.token.1.span.stop = c.token.1.span.start + c.token.1.lexeme.utf8ByteSize ∧
        c.token.2.position.offset = c.token.1.span.stop) := by
  refine ⟨String.ofList (c.rest.takeWhile isGap), String.ofList (c.rest.dropWhile isGap),
    ?_, ?_, ?_, ?_⟩
  · intro ch hch
    rw [String.toList_ofList] at hch
    exact List.mem_takeWhile_imp hch
  · rw [← String.ofList_append, List.takeWhile_append_dropWhile]
  · rw [String.toList_ofList]
    exact c.visible_skipWhile
  · have hoffset := Position.offset_afterAll c.position (c.rest.takeWhile isGap)
    rcases scan_cases (c.skipWhile isGap) c.visible_skipWhile with ⟨hkind, hsame, hshort⟩ |
      ⟨hkind, htakes, hcut⟩
    · refine Or.inl ⟨hkind, ?_, ?_⟩
      · rw [String.toList_ofList]
        exact congrArg Cursor.rest hsame
      · rw [String.length_ofList]
        exact hshort
    · refine Or.inr ⟨hkind, ?_, ?_, ?_, ?_, htakes.offset⟩
      · rw [String.toList_ofList]
        exact hcut
      · apply String.toList_inj.mp
        rw [String.toList_append, String.toList_ofList, String.toList_ofList]
        exact htakes.rest
      · exact htakes.start.trans hoffset
      · rw [token, htakes.stop, htakes.start]

/-- A sigil that is read was what is missing from the rest, behind white space. -/
theorem exists_rest_of_token {c : Cursor} {s : Sigil} (h : c.token.1.kind = .sigil s) :
    ∃ gap, c.rest = gap ++ (s.text.toList ++ c.token.2.rest) := by
  obtain ⟨gap, rest, -, htext, -, ⟨hend, -⟩ | ⟨-, hcut, hrest, -⟩⟩ := c.token_cases
  · cases h.symm.trans hend
  · have hlexeme : s.text = c.token.1.lexeme := by
      rcases hcut.kind with ⟨s', hs', hkind⟩ | ⟨-, hunknown⟩
      · cases h.symm.trans hkind
        exact hs'
      · cases h.symm.trans hunknown
    refine ⟨gap.toList, ?_⟩
    rw [hlexeme, ← String.toList_ofList (l := c.rest), htext, hrest]
    simp only [String.toList_append, String.toList_ofList]

end Cursor

/-! ### Texts in pieces -/

/-- A token with the white space in front of it. -/
structure Piece where
  gap : String
  token : Token

namespace Piece

/-- The text of pieces in order. -/
def textOf : List Piece → String
  | [] => ""
  | p :: pieces => p.gap ++ p.token.lexeme ++ textOf pieces

/-- Pieces in a row have their texts in a row. -/
theorem textOf_append (front back : List Piece) :
    textOf (front ++ back) = textOf front ++ textOf back := by
  induction front with
  | nil => simp [textOf]
  | cons p front ih => simp [textOf, ih, String.append_assoc]

end Piece

open Piece

/-- A text that stands at an offset, in pieces: each has white space and then a token that is cut
from what is left there, and the span of the token is where its lexeme stands. White space and at
most one more character are behind the last piece. -/
structure Pieced (offset : Nat) (text : String) (pieces : List Piece) (gap rest : String) :
    Prop where
  joined : text = textOf pieces ++ gap ++ rest
  gaps : ∀ p ∈ pieces, Cursor.Gap p.gap.toList
  lastGap : Cursor.Gap gap.toList
  short : rest.length ≤ 1
  visible : Cursor.Visible rest.toList
  cut : ∀ front p back, pieces = front ++ p :: back →
    p.token.CutFrom (p.token.lexeme ++ textOf back ++ gap ++ rest).toList
  span : ∀ front p back, pieces = front ++ p :: back →
    p.token.span.start = offset + (textOf front ++ p.gap).utf8ByteSize ∧
      p.token.span.stop = p.token.span.start + p.token.lexeme.utf8ByteSize

namespace Pieced

variable {offset : Nat} {text gap rest : String} {pieces : List Piece}

/-- Without pieces there is the gap and at most one character behind it. -/
theorem nil (hgap : Cursor.Gap gap.toList) (hshort : rest.length ≤ 1)
    (hvisible : Cursor.Visible rest.toList) :
    Pieced offset (gap ++ rest) [] gap rest where
  joined := by simp [textOf]
  gaps := nofun
  lastGap := hgap
  short := hshort
  visible := hvisible
  cut front p back h := by simp at h
  span front p back h := by simp at h

/-- One more token is put in front, where the text in pieces stands behind it. -/
theorem cons {token : Token} {space : String} (h : Pieced token.span.stop text pieces gap rest)
    (hspace : Cursor.Gap space.toList) (hcut : token.CutFrom (token.lexeme ++ text).toList)
    (hstart : token.span.start = offset + space.utf8ByteSize)
    (hstop : token.span.stop = token.span.start + token.lexeme.utf8ByteSize) :
    Pieced offset (space ++ (token.lexeme ++ text)) (⟨space, token⟩ :: pieces) gap rest where
  joined := by
    rw [h.joined]
    simp [textOf, String.append_assoc]
  gaps := List.forall_mem_cons.mpr ⟨hspace, h.gaps⟩
  lastGap := h.lastGap
  short := h.short
  visible := h.visible
  cut front p back hpieces := by
    cases front with
    | nil =>
      obtain ⟨rfl, rfl⟩ := List.cons.inj hpieces
      rw [h.joined] at hcut
      simpa [String.append_assoc] using hcut
    | cons first front =>
      obtain ⟨-, hrest⟩ := List.cons.inj hpieces
      exact h.cut front p back hrest
  span front p back hpieces := by
    cases front with
    | nil =>
      obtain ⟨rfl, rfl⟩ := List.cons.inj hpieces
      simpa [textOf] using ⟨hstart, hstop⟩
    | cons first front =>
      obtain ⟨rfl, hrest⟩ := List.cons.inj hpieces
      obtain ⟨hs, ht⟩ := h.span front p back hrest
      refine ⟨?_, ht⟩
      rw [hs, hstop, hstart]
      simp [textOf, Nat.add_assoc]

/-- Lexemes are not empty, so neither are the spans. -/
theorem start_lt_stop (h : Pieced offset text pieces gap rest) {p : Piece} (hp : p ∈ pieces) :
    p.token.span.start < p.token.span.stop := by
  obtain ⟨front, back, hpieces⟩ := List.append_of_mem hp
  obtain ⟨-, hstop⟩ := h.span front p back hpieces
  obtain ⟨c, cs, hlexeme, -⟩ := (h.cut front p back hpieces).starts
  have hsize : 0 < p.token.lexeme.utf8ByteSize := by
    rw [← String.ofList_toList (s := p.token.lexeme), hlexeme, String.ofList_cons]
    have hchar := c.utf8Size_pos
    simp only [String.utf8ByteSize_append, String.utf8ByteSize_singleton]
    omega
  omega

/-- No span starts before the ones in front of it have ended. -/
theorem increasing (h : Pieced offset text pieces gap rest) :
    pieces.Pairwise fun p q => p.token.span.stop ≤ q.token.span.start := by
  refine List.pairwise_iff_forall_sublist.mpr ?_
  intro p q hsub
  obtain ⟨before, after, rfl, hp, hq⟩ := List.cons_sublist_iff.mp hsub
  obtain ⟨front, middle, rfl⟩ := List.append_of_mem hp
  obtain ⟨between, back, rfl⟩ := List.append_of_mem (List.singleton_sublist.mp hq)
  obtain ⟨hpstart, hpstop⟩ := h.span front p (middle ++ (between ++ q :: back)) (by simp)
  obtain ⟨hqstart, -⟩ := h.span (front ++ p :: middle ++ between) q back (by simp)
  rw [hpstop, hpstart, hqstart]
  simp only [textOf_append, textOf, String.utf8ByteSize_append]
  omega

end Pieced

/-! ### All tokens -/

namespace Cursor

/-- `Tokenizes c tokens last` says that asking for tokens from `c` on yields these tokens before the
end of the input, at which the cursor is `last`. -/
inductive Tokenizes : Cursor → List Token → Cursor → Prop
  | done {c : Cursor} (h : c.token.1.kind = .endOfInput) : Tokenizes c [] c.token.2
  | next {c last : Cursor} {tokens : List Token} (h : c.token.1.kind ≠ .endOfInput)
      (hrest : Tokenizes c.token.2 tokens last) : Tokenizes c (c.token.1 :: tokens) last

/-- A cursor has one sequence of tokens only. -/
theorem Tokenizes.unique {c last last' : Cursor} {tokens tokens' : List Token}
    (h : c.Tokenizes tokens last) (h' : c.Tokenizes tokens' last') :
    tokens = tokens' ∧ last = last' := by
  induction h generalizing tokens' with
  | done hend =>
    cases h' with
    | done => exact ⟨rfl, rfl⟩
    | next hmore _ => exact absurd hend hmore
  | next hmore _ ih =>
    cases h' with
    | done hend => exact absurd hend hmore
    | next _ hrest =>
      obtain ⟨rfl, rfl⟩ := ih hrest
      exact ⟨rfl, rfl⟩

/-- The tokens come to an end, and what was left of the source is in pieces then. -/
theorem exists_tokenizes (c : Cursor) : ∃ pieces gap rest last,
    c.Tokenizes (pieces.map Piece.token) last ∧
    Pieced c.position.offset (String.ofList c.rest) pieces gap rest ∧ last.rest = rest.toList := by
  induction hlength : c.rest.length using Nat.strong_induction_on generalizing c with
  | _ n ih =>
    subst hlength
    obtain ⟨gap, rest, hgap, htext, hvisible, ⟨hend, hlast, hshort⟩ |
      ⟨hmore, hcut, hrest, hstart, hstop, hoffset⟩⟩ := token_cases c
    · refine ⟨[], gap, rest, c.token.2, .done hend, ?_, hlast⟩
      rw [htext]
      exact .nil hgap hshort hvisible
    · -- a lexeme is not empty, so less is left behind the token
      have hless : c.token.2.rest.length < c.rest.length := by
        obtain ⟨ch, chs, hlexeme, -⟩ := hcut.starts
        have hall := congrArg (fun text => text.toList.length) (htext.trans (congrArg _ hrest))
        simp only [String.toList_ofList, String.toList_append, hlexeme, List.length_append,
          List.length_cons] at hall
        omega
      obtain ⟨pieces, gap', rest', last, htokens, hpieced, hlast⟩ := ih _ hless c.token.2 rfl
      refine ⟨⟨gap, c.token.1⟩ :: pieces, gap', rest', last, .next hmore htokens, ?_, hlast⟩
      rw [htext, hrest]
      rw [hoffset] at hpieced
      exact hpieced.cons hgap (hrest ▸ hcut) hstart hstop

end Cursor

/-- Tokenizing loses nothing. For every source the tokens come to an end, and there is one list of
them. The source is the text of these tokens in order, with white space in front of each, and then
white space and at most one character, which is what the cursor has left. Every lexeme is cut from
the text that is left there, its span is the range of its bytes, and so the spans are not empty and
follow each other. -/
theorem tokens_lossless (source : String) : ∃ pieces gap rest last,
    (∀ tokens c, (Cursor.ofString source).Tokenizes tokens c ↔
      tokens = pieces.map Piece.token ∧ c = last) ∧
    Pieced 0 source pieces gap rest ∧ last.rest = rest.toList ∧
    (pieces.Pairwise fun p q => p.token.span.stop ≤ q.token.span.start) ∧
    ∀ p ∈ pieces, p.token.span.start < p.token.span.stop := by
  obtain ⟨pieces, gap, rest, last, htokens, hpieced, hlast⟩ :=
    (Cursor.ofString source).exists_tokenizes
  have hsource : Pieced 0 source pieces gap rest := by
    rwa [Cursor.ofString, String.ofList_toList] at hpieced
  refine ⟨pieces, gap, rest, last, ?_, hsource, hlast, hsource.increasing,
    fun p hp => hsource.start_lt_stop hp⟩
  intro tokens c
  refine ⟨fun h => h.unique htokens, ?_⟩
  rintro ⟨rfl, rfl⟩
  exact htokens

/-- White space behind a character that starts no sigil belongs to its lexeme. -/
example : (Cursor.ofString " \tx\n").token.1 = ⟨.unknown, "x\n", ⟨2, 4, 1, 3⟩⟩ := by decide +kernel

end Smil
