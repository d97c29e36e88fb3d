import Smil.Interpreter
import Smil.Proofs.Binding
import Smil.Proofs.Lexemes
import Smil.Proofs.Spans

/-!
# The declared number of inputs

A program declares how many inputs it needs. The number is counted while the source is read: an
input is a run of sigils, and its index is one less than their number. Inputs are read in many
places, also in expressions that are dropped or copied, but all in one way. So every input of a tree
that is read has been counted by then, and the count only grows. It is not higher than needed: the
longest run stands in the source. A run that has enough arguments starts with all inputs bound to
theirs.
-/

namespace Smil

namespace Expr

/-! ### The inputs of a tree -/

/-- Only an input has an index. -/
theorem eq_input_of_index? {e : Expr} {index : Nat} (h : e.index? = some index) :
    ∃ span, e = .input index span := by
  cases e with
  | input index' span =>
    cases h
    exact ⟨span, rfl⟩
  | _ => cases h

/-- All inputs in a tree, at any depth, have an index below the count. -/
def InputsBelow (count : Nat) (e : Expr) : Prop :=
  ∀ index span, NodeOf (.input index span) e → index < count

variable {count count' : Nat} {e : Expr} {es : List Expr}

/-- A larger count is above the same inputs. -/
theorem InputsBelow.mono (h : e.InputsBelow count) (hle : count ≤ count') :
    e.InputsBelow count' := by
  intro index span hnode
  exact Nat.lt_of_lt_of_le (h index span hnode) hle

/-- An input has no other input inside. -/
theorem inputsBelow_input {index : Nat} (span : Span) (h : index < count) :
    (input index span).InputsBelow count := by
  intro index' span' hnode
  cases hnode with
  | root => exact h
  | inside hchild _ => cases hchild

/-- A node that is no input has the inputs of the trees below it. -/
theorem inputsBelow_of_children (hroot : e.index? = none)
    (hchildren : ∀ child ∈ e.children, child.InputsBelow count) : e.InputsBelow count := by
  intro index span hnode
  cases hnode with
  | root => cases hroot
  | inside hchild hnode => exact hchildren _ hchild index span hnode

namespace Parser

/-! ### Counting while reading -/

/-- The cursor stands in the source, the inputs of the pending expression have been counted, and the
last of the inputs that are counted is spelled out in the source. -/
structure Reading.Counted (s : Reading) (source : String) : Prop where
  cursor : s.cursor.Within source
  pending : ∀ e ∈ s.pending, e.InputsBelow s.inputCount
  spelled : ∀ k, s.inputCount = k + 1 → (inputName k).toList <:+: source.toList

variable {source : String} {s : Reading}

/-- The sigil of inputs stands in the source right before the cursor. -/
def BehindInput (source : String) (s : Reading) : Prop :=
  Sigil.input.text.toList ++ s.cursor.rest <:+ source.toList

/-- Behind a token that is the sigil of inputs, this sigil stands right before the cursor. -/
theorem behindInput_of_token (h : s.cursor.Within source)
    (hkind : s.cursor.token.1.kind = .sigil .input) : BehindInput source s.pastToken := by
  obtain ⟨gap, hrest⟩ := Cursor.exists_rest_of_token hkind
  obtain ⟨before, hsource, -⟩ := h
  refine ⟨before.toList ++ gap, ?_⟩
  rw [hsource, String.toList_append, String.toList_ofList, hrest, List.append_assoc]
  rfl

/-- Behind its first sigil an input is read up to its last, and its name is what stands there. -/
theorem inputName_isInfix (h : BehindInput source s) :
    (inputName (inputRun 0 s.cursor.rest)).toList <:+: source.toList := by
  obtain ⟨index, tail, hindex, hrest, -⟩ := exists_inputRun 0 s.cursor.rest
  have hprefix : (List.replicate index Sigil.input.text.toList).flatten <+: s.cursor.rest :=
    ⟨tail, hrest.symm⟩
  rw [hindex, Nat.zero_add, toList_inputName, List.replicate_succ, List.flatten_cons]
  exact ((List.prefix_append_right_inj _).mpr hprefix).isInfix.trans h.isInfix

/-- An input is counted when it is read. If the count rises, it is to the input's own. -/
theorem Reading.Counted.pastInput (hs : s.Counted source) (h : BehindInput source s) :
    s.pastInput.Counted source where
  cursor := hs.cursor.readsTo (s.cursor.readsTo_skip _)
  pending e he := (hs.pending e he).mono (Nat.le_max_left _ _)
  spelled k hk := by
    change max s.inputCount (inputRun 0 s.cursor.rest + 1) = k + 1 at hk
    rcases Nat.le_total s.inputCount (inputRun 0 s.cursor.rest + 1) with hmore | hfew
    · rw [Nat.max_eq_right hmore] at hk
      rw [← Nat.succ.inj hk]
      exact inputName_isInfix h
    · rw [Nat.max_eq_left hfew] at hk
      exact hs.spelled k hk

/-- The inputs of a tree have been counted when the tree is built, and the count only grows. -/
def counting (source : String) : ReaderInvariant where
  Kept s := s.Counted source
  Failure _ := True
  Later s s' := s.inputCount ≤ s'.inputCount
  Known e s := e.InputsBelow s.inputCount
  Seen _ := True
  Taken token s := token.kind = .sigil .input → BehindInput source s
  Place _ := True
  later_trans := Nat.le_trans
  known_later := InputsBelow.mono
  seen_of_taken _ := trivial
  place_of_seen _ := trivial
  place_of_known _ := trivial
  known_node _ _ _ hindex _ := inputsBelow_of_children hindex
  later_refl _ := Nat.le_refl _
  kept_cursor hs hc := ⟨⟨hs.cursor.readsTo hc, hs.pending, hs.spelled⟩, Nat.le_refl _⟩
  taken_token hs := behindInput_of_token hs.cursor
  kept_pending hs he :=
    ⟨⟨hs.cursor, fun _ hpending => Option.some.inj hpending ▸ he, hs.spelled⟩, Nat.le_refl _⟩
  known_pending hs he := hs.pending _ he
  kept_input hs htaken hkind := ⟨⟨hs.pastInput (htaken hkind), Nat.le_max_left _ _⟩,
    inputsBelow_input _ (Nat.le_max_right _ _)⟩
  failure _ _ := trivial

/-- What a program declares about its inputs, for the source that it was read from. -/
structure Declares (source : String) (p : Program) : Prop where
  below : ∀ stmt ∈ p.statements, stmt.InputsBelow p.inputCount
  spelled : ∀ k, p.inputCount = k + 1 → (inputName k).toList <:+: source.toList

end Parser

end Expr

/-! ### Runs -/

open Bytecode

/-- The inputs that a program reads when it runs: those among its nodes, and for a greeting the
first one, if the program has inputs at all. -/
def Program.ReadsInput (p : Program) (index : Nat) : Prop :=
  (∃ stmt ∈ p.statements, ∃ span, Expr.NodeOf (.input index span) stmt) ∨
    index = 0 ∧ 0 < p.inputCount ∧ ∃ stmt ∈ p.statements, ∃ span, Expr.NodeOf (.hello span) stmt

/-- A program that is read declares its inputs right. -/
theorem declares_of_parse {source : String} {p : Program} (h : parse source = .ok p) :
    Expr.Parser.Declares source p := by
  have hstart : Expr.Parser.Reading.Counted ⟨Cursor.ofString source, none, 0⟩ source :=
    ⟨Cursor.within_ofString source, nofun, nofun⟩
  obtain ⟨s, hcounted, hcount, hstatements⟩ :=
    ((Expr.Parser.counting source).of_parse hstart).1 p h
  refine ⟨fun stmt hstmt => ?_, fun k hk => hcounted.spelled k (hcount ▸ hk)⟩
  rw [hcount]
  exact (hstatements stmt hstmt).1

/-- On a new machine that has enough arguments, every declared input has its argument. -/
theorem Machine.valueOf_of_bindInputs {out : Sink} {required : Nat} {inputs : List String}
    {m : Machine} (hbind : (new out).bindInputs required inputs = .ok m) {index : Nat}
    (hindex : index < required) :
    ∃ arg, inputs[index]? = some arg ∧ m.valueOf (inputName index) = some (.ofInput arg) := by
  have henough : required ≤ inputs.length := by
    by_contra hfew
    unfold bindInputs at hbind
    rw [if_pos (Nat.not_le.mp hfew)] at hbind
    cases hbind
  have hd : (new out).symbols.DistinctOn (· ∈ inputNames inputs.length) := by
    intro a b h _ _ ha _
    cases (Table.lookup_empty a).symm.trans ha
  have harg := List.getElem?_eq_getElem (Nat.lt_of_lt_of_le hindex henough)
  refine ⟨_, harg, ?_⟩
  rw [eq_of_bindInputs hbind]
  exact (binds_bindFrom (intact_new out) hd).values index _ harg

/-- A run that gets past the binding of its arguments is a run of the code on the machine with the
arguments. -/
theorem run_of_bindInputs {source : String} {p : Program} {chunk : Chunk} {inputs : List String}
    {m : Machine} (hcompile : compile source = .ok (p, chunk))
    (hbind : (Machine.new .unlimited).bindInputs p.inputCount inputs = .ok m) (budget : Nat) :
    run budget source inputs = (m.run budget chunk).map fun ended =>
      ended.1.map fun completion => ⟨ended.2.drain.1, completion⟩ := by
  unfold run
  rw [hcompile]
  dsimp only
  rw [hbind]
  dsimp only
  rcases m.run budget chunk with _ | ⟨e | completion, last⟩ <;> rfl

/-- The declared number of inputs of a program that is read is right. Every input in it, at any
depth, has an index below the number; and if there are inputs, the last of them stands in the source
as a run of sigils. So when a run of the source gets past the binding of its arguments, the code
starts on a machine on which every input that the program reads holds its argument. -/
theorem inputs_of_parse {source : String} {p : Program} (h : parse source = .ok p) :
    (∀ stmt ∈ p.statements, ∀ index span, Expr.NodeOf (.input index span) stmt →
      index < p.inputCount) ∧
    (∀ k, p.inputCount = k + 1 →
      (List.replicate (k + 1) Sigil.input.text.toList).flatten <:+: source.toList) ∧
    ∀ chunk inputs m, compile source = .ok (p, chunk) →
      (Machine.new .unlimited).bindInputs p.inputCount inputs = .ok m →
      (∀ budget, run budget source inputs = (m.run budget chunk).map fun ended =>
        ended.1.map fun completion => ⟨ended.2.drain.1, completion⟩) ∧
      ∀ index, p.ReadsInput index → ∃ arg, inputs[index]? = some arg ∧
        Machine.valueOf { m with operands := [] } (inputName index) = some (.ofInput arg) := by
  obtain ⟨hbelow, hspelled⟩ := declares_of_parse h
  refine ⟨hbelow, ?_, ?_⟩
  · intro k hk
    rw [← toList_inputName]
    exact hspelled k hk
  · intro chunk inputs m hcompile hbind
    refine ⟨run_of_bindInputs hcompile hbind, ?_⟩
    intro index hreads
    have hindex : index < p.inputCount := by
      rcases hreads with ⟨stmt, hstmt, span, hnode⟩ | ⟨rfl, hpositive, -⟩
      · exact hbelow stmt hstmt index span hnode
      · exact hpositive
    exact Machine.valueOf_of_bindInputs hbind hindex

/-- Prints the second input and greets the first, which no node mentions. -/
def printsSecond : String := ":P :$:$ :D o/ </3"

/-- The program needs two inputs, and both hold their arguments when it starts. -/
theorem inputs_of_printsSecond : ∃ p chunk m, parse printsSecond = .ok p ∧ p.inputCount = 2 ∧
    compile printsSecond = .ok (p, chunk) ∧
    (Machine.new .unlimited).bindInputs 2 ["ann", "12"] = .ok m ∧
    p.ReadsInput 0 ∧ p.ReadsInput 1 ∧ ":$:$".toList <:+: printsSecond.toList ∧
    m.valueOf ":$" = some (.text "ann") ∧ m.valueOf ":$:$" = some (.integer 12) ∧
    run 10 printsSecond ["ann", "12"] = some (.ok ⟨"12\nHello, ann!\n", .finished⟩) := by
  have hparsed : (parse printsSecond).toOption.map (fun p => (p.inputCount,
      p.statements.map fun stmt => (stmt.sigils, stmt.children.map Expr.index?))) =
      some (2, [([.printStart], [some 1]), ([.hello], [])]) := by
    decide +kernel
  have hcompiled : ((parse printsSecond).bind Codegen.compile).toOption.isSome = true := by
    decide +kernel
  cases hparse : parse printsSecond with
  | error e =>
    rw [hparse] at hparsed
    cases hparsed
  | ok p =>
    rw [hparse] at hparsed hcompiled
    obtain ⟨hcount, hstatements⟩ := Prod.mk.inj (Option.some.inj hparsed)
    obtain ⟨printed, rest, hcons, hprinted, hrest⟩ := List.map_eq_cons_iff.mp hstatements
    obtain ⟨greeting, rfl, hgreeting⟩ := List.map_eq_singleton_iff.mp hrest
    obtain ⟨arg, hargs, hindex⟩ := List.map_eq_singleton_iff.mp (Prod.mk.inj hprinted).2
    obtain ⟨span, rfl⟩ := Expr.eq_input_of_index? hindex
    have hhello : ∃ span, greeting = .hello span := by
      have hsigils := (Prod.mk.inj hgreeting).1
      cases greeting with
      | hello span => exact ⟨span, rfl⟩
      | var name inverted span => cases inverted <;> simp [Expr.sigils] at hsigils
      | _ => simp [Expr.sigils] at hsigils
    obtain ⟨span', rfl⟩ := hhello
    have hfirst : p.ReadsInput 0 :=
      Or.inr ⟨rfl, by rw [hcount]; decide, .hello span', by simp [hcons], span', .root⟩
    have hsecond : p.ReadsInput 1 :=
      Or.inl ⟨printed, by simp [hcons], span, .inside (by simp [hargs]) .root⟩
    obtain ⟨chunk, hchunk⟩ : ∃ chunk, Codegen.compile p = .ok chunk := by
      change (Codegen.compile p).toOption.isSome = true at hcompiled
      cases hcompile : Codegen.compile p with
      | error e =>
        rw [hcompile] at hcompiled
        cases hcompiled
      | ok chunk => exact ⟨chunk, rfl⟩
    have hcompile : compile printsSecond = .ok (p, chunk) := by
      unfold compile
      rw [hparse]
      change Codegen.compile p >>= _ = _
      rw [hchunk]
      rfl
    obtain ⟨-, hspelled, hruns⟩ := inputs_of_parse hparse
    obtain ⟨-, hbound⟩ := hruns chunk ["ann", "12"] _ hcompile (by rw [hcount]; rfl)
    obtain ⟨ann, hann, hvalue₀⟩ := hbound 0 hfirst
    obtain ⟨twelve, htwelve, hvalue₁⟩ := hbound 1 hsecond
    cases hann
    cases htwelve
    exact ⟨p, chunk, _, rfl, hcount, hcompile, rfl, hfirst, hsecond, hspelled 1 hcount,
      hvalue₀, hvalue₁, by decide +kernel⟩

end Smil
