import Mathlib.Data.List.Induction
import Mathlib.Data.List.TakeWhile
import Smil.Proofs.Places
import Smil.Text.Lines

/-!
# The line that a place is on

A cursor counts newlines, while a text is shown line by line, without the newlines and without a
carriage return in front of one. Splitting into lines goes through the text once. The lemmas here
say what it has finished and what it holds when it comes to a place, and which line it makes of
that: the two ways of counting agree on every place that is not at white space.
-/

namespace Smil.Text

/-! ### Lines of a text -/

/-- A line of a text, with the text before and behind it. The text before it is nothing or ends in a
newline. The text behind it is nothing or starts with a newline, and a carriage return in front of
this newline is behind the line as well. -/
structure IsLine (text before line after : String) : Prop where
  joined : text = before ++ line ++ after
  starts : before = "" ∨ ∃ earlier, before = earlier ++ "\n"
  single : '\n' ∉ line.toList
  ends : after = "" ∨ (∃ later, after = "\r\n" ++ later) ∨
    (∃ later, after = "\n" ++ later) ∧ ∀ shorter, line ≠ shorter ++ "\r"

/-- A text is a text that is empty or ends in a newline, and then what it has on its last line. -/
theorem exists_lastLine (text : String) : ∃ before,
    text = before ++ String.ofList (Position.lastLine text) ∧
    (before = "" ∨ ∃ earlier, before = earlier ++ "\n") ∧ '\n' ∉ Position.lastLine text := by
  have hsplit := List.takeWhile_append_dropWhile (p := (· != '\n')) (l := text.toList.reverse)
  have hhead := List.head?_dropWhile_not (· != '\n') text.toList.reverse
  refine ⟨String.ofList (text.toList.reverse.dropWhile (· != '\n')).reverse, ?_, ?_, ?_⟩
  · apply String.toList_inj.mp
    rw [String.toList_append, String.toList_ofList, String.toList_ofList, Position.lastLine,
      ← List.reverse_append, hsplit, List.reverse_reverse]
  · cases hrest : text.toList.reverse.dropWhile (· != '\n') with
    | nil => exact Or.inl rfl
    | cons c rest =>
      rw [hrest] at hhead
      obtain rfl : c = '\n' := by simpa using hhead
      refine Or.inr ⟨String.ofList rest.reverse, ?_⟩
      apply String.toList_inj.mp
      simp
  · intro hmem
    rw [Position.lastLine, List.mem_reverse] at hmem
    simpa using List.mem_takeWhile_imp hmem

/-! ### Splitting -/

/-- One return in front is dropped if there is one. -/
theorem dropReturn_cases (line : List Char) :
    line = '\r' :: dropReturn line ∨ dropReturn line = line ∧ line.head? ≠ some '\r' := by
  unfold dropReturn
  split
  · exact Or.inl rfl
  · rename_i hline
    refine Or.inr ⟨rfl, ?_⟩
    intro hhead
    obtain ⟨rest, rfl⟩ := List.head?_eq_some_iff.mp hhead
    exact hline rest rfl

/-- Dropping a carriage return leaves the front of the line. -/
theorem isPrefix_dropReturn (line : List Char) : (dropReturn line).reverse <+: line.reverse := by
  rcases dropReturn_cases line with hreturn | ⟨hsame, -⟩
  · refine ⟨['\r'], ?_⟩
    rw [← List.reverse_cons, ← hreturn]
  · refine ⟨[], ?_⟩
    rw [List.append_nil, hsame]

/-- What a line had before its last character is not dropped. -/
theorem isPrefix_dropReturn_cons (c : Char) (line : List Char) :
    line.reverse <+: (dropReturn (c :: line)).reverse := by
  rcases dropReturn_cases (c :: line) with hreturn | ⟨hsame, -⟩
  · refine ⟨[], ?_⟩
    rw [List.append_nil, ← (List.cons.inj hreturn).2]
  · rw [hsame, List.reverse_cons]
    exact List.prefix_append _ _

/-- A character that is no carriage return is not dropped. -/
theorem dropReturn_cons {c : Char} (hc : c ≠ '\r') (line : List Char) :
    dropReturn (c :: line) = c :: line := by
  rcases dropReturn_cases (c :: line) with hreturn | ⟨hsame, -⟩
  · exact absurd (List.cons.inj hreturn).1 hc
  · exact hsame

/-- Finished lines stay in front. -/
theorem linesFrom_eq_append (rest line : List Char) (done : List (List Char)) :
    linesFrom rest line done = done.reverse ++ linesFrom rest line [] := by
  induction rest generalizing line done with
  | nil => cases line <;> simp [linesFrom]
  | cons c rest ih =>
    simp only [linesFrom]
    split
    · rw [ih, ih [] [(dropReturn line).reverse]]
      simp
    · exact ih (c :: line) done

/-- At a place as many lines are finished as there are newlines before it, and what is held is what
the text has after the last of them. -/
theorem exists_finished (front : List Char) : ∃ finished : List (List Char),
    finished.length = front.count '\n' ∧ ∀ rest, linesFrom (front ++ rest) [] [] =
      linesFrom rest (front.reverse.takeWhile (· != '\n')) finished := by
  induction front using List.reverseRecOn with
  | nil => exact ⟨[], rfl, fun rest => rfl⟩
  | append_singleton front c ih =>
    obtain ⟨finished, hlength, hlines⟩ := ih
    by_cases hc : c = '\n'
    · refine ⟨(dropReturn (front.reverse.takeWhile (· != '\n'))).reverse :: finished, ?_, ?_⟩
      · simp [hc, hlength]
      · intro rest
        rw [List.append_assoc, hlines]
        simp [linesFrom, hc]
    · refine ⟨finished, ?_, ?_⟩
      · simp [hc, hlength]
      · intro rest
        rw [List.append_assoc, hlines]
        simp [linesFrom, hc]

/-- The line at a place is the first that is made of what is held and of what is left. -/
theorem getElem?_lines (before after : String) :
    (lines (before ++ after))[before.toList.count '\n']? =
      (linesFrom after.toList (Position.lastLine before).reverse []).head?.map String.ofList := by
  obtain ⟨finished, hlength, hlines⟩ := exists_finished before.toList
  rw [lines, String.toList_append, hlines, linesFrom_eq_append, List.getElem?_map,
    List.getElem?_append_right (by simp [hlength]), List.length_reverse, hlength, Nat.sub_self,
    ← List.head?_eq_getElem?, Position.lastLine, List.reverse_reverse]

/-- What is left behind a line: nothing, or the newline that ends it with or without a carriage
return. -/
def EndsLine (line after : List Char) : Prop :=
  after = [] ∨ (∃ later, after = '\r' :: '\n' :: later) ∨
    (∃ later, after = '\n' :: later) ∧ line.getLast? ≠ some '\r'

/-- A newline ends the line that is held, without the carriage return in front of it. -/
theorem exists_endsLine (line rest : List Char) : ∃ after,
    line.reverse ++ '\n' :: rest = (dropReturn line).reverse ++ after ∧
      EndsLine (dropReturn line).reverse after := by
  rcases dropReturn_cases line with hreturn | ⟨hsame, hlast⟩
  · refine ⟨'\r' :: '\n' :: rest, ?_, Or.inr (Or.inl ⟨rest, rfl⟩)⟩
    nth_rewrite 1 [hreturn]
    simp
  · rw [hsame]
    refine ⟨'\n' :: rest, rfl, Or.inr (Or.inr ⟨⟨rest, rfl⟩, ?_⟩)⟩
    rwa [List.getLast?_reverse]

/-- The first line that is made of what is held and of what is left. It has all that is held, except
for a carriage return at its end. -/
theorem exists_head?_linesFrom (rest : List Char) {line : List Char} (hne : line ≠ [])
    (hline : '\n' ∉ line) : ∃ shown after, (linesFrom rest line []).head? = some shown ∧
      line.reverse ++ rest = shown ++ after ∧ '\n' ∉ shown ∧ EndsLine shown after ∧
      (dropReturn line).reverse <+: shown := by
  induction rest generalizing line with
  | nil =>
    refine ⟨line.reverse, [], ?_, rfl, by simpa using hline, Or.inl rfl, isPrefix_dropReturn line⟩
    obtain ⟨c, cs, rfl⟩ := List.exists_cons_of_ne_nil hne
    rfl
  | cons c rest ih =>
    by_cases hc : c = '\n'
    · subst hc
      obtain ⟨after, hjoined, hends⟩ := exists_endsLine line rest
      refine ⟨(dropReturn line).reverse, after, ?_, hjoined, ?_, hends, List.prefix_refl _⟩
      · rw [linesFrom, if_pos rfl, linesFrom_eq_append]
        rfl
      · intro hmem
        exact hline (List.mem_reverse.mp ((isPrefix_dropReturn line).subset hmem))
    · have hheld : '\n' ∉ c :: line := by
        simp [hline, Ne.symm hc]
      obtain ⟨shown, after, hhead, hjoined, hsingle, hends, hfront⟩ :=
        ih (List.cons_ne_nil c line) hheld
      refine ⟨shown, after, ?_, ?_, hsingle, hends, ?_⟩
      · rw [linesFrom, if_neg hc]
        exact hhead
      · rw [← hjoined]
        simp
      · exact (isPrefix_dropReturn line).trans ((isPrefix_dropReturn_cons c line).trans hfront)

/-! ### The line at a place -/

/-- A line ends at the end of the text, at a return and a line feed, or at a line feed that no
return precedes. -/
theorem EndsLine.ends {line after : List Char} (h : EndsLine line after) :
    String.ofList after = "" ∨ (∃ later, String.ofList after = "\r\n" ++ later) ∨
      (∃ later, String.ofList after = "\n" ++ later) ∧
        ∀ shorter, String.ofList line ≠ shorter ++ "\r" := by
  rcases h with rfl | ⟨later, rfl⟩ | ⟨⟨later, rfl⟩, hlast⟩
  · exact Or.inl rfl
  · refine Or.inr (Or.inl ⟨String.ofList later, ?_⟩)
    apply String.toList_inj.mp
    simp
  · refine Or.inr (Or.inr ⟨⟨String.ofList later, ?_⟩, ?_⟩)
    · apply String.toList_inj.mp
      simp
    · intro shorter hline
      apply hlast
      have hchars : line = shorter.toList ++ ['\r'] := by
        simpa using congrArg String.toList hline
      simp [hchars]

/-- The line at a character that is no white space: what the text before it has on its last line,
the character, and more. -/
theorem exists_line (before : String) {after : String} {ch : Char} {chs : List Char}
    (hafter : after.toList = ch :: chs) (hch : Cursor.isGap ch = false) :
    ∃ start left right rest, before = start ++ left ∧ left.toList = Position.lastLine before ∧
      (lines (before ++ after))[before.toList.count '\n']? = some (left.push ch ++ right) ∧
      IsLine (before ++ after) start (left.push ch ++ right) rest := by
  obtain ⟨start, hbefore, hstarts, hsingle⟩ := exists_lastLine before
  have hnewline : ch ≠ '\n' := by
    rintro rfl
    cases hch
  have hreturn : ch ≠ '\r' := by
    rintro rfl
    cases hch
  -- the character is held with the rest of its line before it, and it is not dropped
  have hheld : '\n' ∉ ch :: (Position.lastLine before).reverse := by
    simp [hsingle, hnewline.symm]
  obtain ⟨shown, rest, hhead, hjoined, hshown, hends, hfront⟩ :=
    exists_head?_linesFrom chs (List.cons_ne_nil ch _) hheld
  rw [dropReturn_cons hreturn, List.reverse_cons, List.reverse_reverse] at hfront
  obtain ⟨more, rfl⟩ := hfront
  have hline : (String.ofList (Position.lastLine before)).push ch ++ String.ofList more =
      String.ofList (Position.lastLine before ++ [ch] ++ more) := by
    apply String.toList_inj.mp
    simp
  refine ⟨start, String.ofList (Position.lastLine before), String.ofList more, String.ofList rest,
    hbefore, String.toList_ofList, ?_, ?_⟩
  · rw [getElem?_lines, hafter, linesFrom, if_neg hnewline, hhead, hline]
    rfl
  · rw [hline]
    refine ⟨?_, hstarts, ?_, hends.ends⟩
    · apply String.toList_inj.mp
      have hchars := congrArg String.toList hbefore
      rw [String.toList_append, String.toList_ofList] at hchars
      rw [List.reverse_cons, List.reverse_reverse] at hjoined
      rw [String.toList_append, String.toList_append, String.toList_append, String.toList_ofList,
        String.toList_ofList, List.append_assoc, ← hjoined, hafter]
      nth_rewrite 1 [hchars]
      simp
    · rwa [String.toList_ofList]

/-- The line at the end of a text is what the text has after its last newline, and there is no such
line if that is nothing. -/
theorem exists_line_at_end (text : String) : ∃ start line, IsLine text start line "" ∧
    line.toList = Position.lastLine text ∧
    (lines text)[text.toList.count '\n']? = if line = "" then none else some line := by
  obtain ⟨start, htext, hstarts, hsingle⟩ := exists_lastLine text
  refine ⟨start, String.ofList (Position.lastLine text), ⟨?_, hstarts, ?_, Or.inl rfl⟩,
    String.toList_ofList, ?_⟩
  · rwa [String.append_empty]
  · rwa [String.toList_ofList]
  · have hlines := getElem?_lines text ""
    rw [String.append_empty] at hlines
    rw [hlines]
    cases hlast : (Position.lastLine text).reverse with
    | nil =>
      rw [List.reverse_eq_nil_iff.mp hlast]
      rfl
    | cons c cs =>
      rw [List.reverse_eq_cons_iff.mp hlast, if_neg (by simp)]
      simp [linesFrom]

end Smil.Text
