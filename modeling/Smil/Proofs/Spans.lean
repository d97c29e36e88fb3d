import Smil.Proofs.Contents
import Smil.Proofs.ReaderInvariants

/-!
# Every node stands where its span says

The span of a node is that of the sigil that introduces it. In a tree that is read this holds at
every depth: the sigil of the node's kind stands in the source at the node's span. The target of an
assignment is a copy of the pending expression, so the invariant of reading is that the cursor is in
the source and that the pending expression is located there as well. An error points into the source
too, since it is placed at a token or at a node.

The code of a tree takes its places from the nodes of the tree.
-/

namespace Smil

namespace Expr

/-! ### Nodes in a source -/

/-- A sigil of the node's kind stands in the source at the node's span. -/
def Placed (e : Expr) (source : String) : Prop :=
  ∃ s ∈ e.sigils, e.span.Marks source s.text

/-- All nodes of a tree are placed in the source. -/
def Located (e : Expr) (source : String) : Prop :=
  ∀ x : Expr, x.NodeOf e → x.Placed source

variable {source : String}

/-- The root of a tree is one of its nodes. -/
theorem Located.placed {e : Expr} (h : e.Located source) : e.Placed source :=
  h e .root

/-- Where a located tree stands is a place of the source. -/
theorem Located.points {e : Expr} (h : e.Located source) : e.span.Points source := by
  obtain ⟨s, -, hmarks⟩ := h.placed
  exact hmarks.points

/-- A tree is located if its root and the trees below it are. -/
theorem located_of_children {e : Expr} (hroot : e.Placed source)
    (hchildren : ∀ child ∈ e.children, child.Located source) : e.Located source := by
  intro x hx
  cases hx with
  | root => exact hroot
  | inside hchild h => exact hchildren _ hchild x h

/-- A tree without trees below it. -/
theorem located_of_leaf {e : Expr} {s : Sigil} (hs : s ∈ e.sigils)
    (hmarks : e.span.Marks source s.text) (hleaf : e.children = []) : e.Located source := by
  refine located_of_children ⟨s, hs, hmarks⟩ ?_
  simp [hleaf]

namespace Parser

/-! ### Readers -/

/-- The cursor stands in the source, and the pending expression is located there. -/
structure Reading.Within (st : Reading) (source : String) : Prop where
  cursor : st.cursor.Within source
  pending : ∀ e ∈ st.pending, e.Located source

/-- An error about the text of a source, at a place of the source. -/
def Reported (source : String) (e : Error) : Prop :=
  ∃ cause span, e = .placed cause span ∧ span.Points source ∧
    (cause.category = .syntactic ∨ cause.category = .assignability)

/-- Every node that is built is located in the source, since it has the place of its token. -/
def location (source : String) : ReaderInvariant where
  Kept s := s.Within source
  Failure := Reported source
  Later _ _ := True
  Known e _ := e.Located source
  Seen token := token.Placed source
  Taken token _ := token.Placed source
  Place span := span.Points source
  later_trans _ _ := trivial
  known_later h _ := h
  seen_of_taken h := h
  place_of_seen h := h.points
  place_of_known h := h.points
  known_node := by
    rintro token e _ htoken ⟨sigil, hsigil, hkind⟩ hspan - - hchildren
    refine located_of_children ⟨sigil, hsigil, ?_⟩ hchildren
    rw [hspan]
    exact htoken.marks sigil hkind
  later_refl _ := trivial
  kept_cursor hs hc := ⟨⟨hs.cursor.readsTo hc, hs.pending⟩, trivial⟩
  taken_token hs := hs.cursor.placed_token
  kept_pending hs he := ⟨⟨hs.cursor, fun _ hpending => Option.some.inj hpending ▸ he⟩, trivial⟩
  known_pending hs he := hs.pending _ he
  kept_input {s token} hs htoken hkind := by
    refine ⟨⟨⟨hs.cursor.readsTo (s.cursor.readsTo_skip _), hs.pending⟩, trivial⟩, ?_⟩
    exact located_of_leaf List.mem_cons_self (htoken.marks .input hkind) rfl
  failure {cause span} hspan hcause := ⟨cause, span, rfl, hspan, hcause⟩

end Parser

end Expr

/-! ### Sources -/

/-- The reading of a source starts within it. -/
theorem reading_within (source : String) :
    Expr.Parser.Reading.Within ⟨Cursor.ofString source, none, 0⟩ source :=
  ⟨Cursor.within_ofString source, by simp⟩

/-- All statements of a program that is read are located in its source. -/
theorem located_of_parse {source : String} {p : Program} (h : parse source = .ok p) :
    ∀ stmt ∈ p.statements, stmt.Located source := by
  obtain ⟨s, -, -, hstatements⟩ :=
    ((Expr.Parser.location source).of_parse (reading_within source)).1 p h
  exact fun stmt hstmt => (hstatements stmt hstmt).1

/-- An error in reading a source points into the source. -/
theorem reported_of_parse {source : String} {e : Error} (h : parse source = .error e) :
    Expr.Parser.Reported source e :=
  ((Expr.Parser.location source).of_parse (reading_within source)).2 e h

/-! ### Code -/

namespace Codegen

open Bytecode Assembly

/-- A line has the place of a node of the tree. -/
def PlacedBy (e : Expr) (l : Line) : Prop :=
  ∃ x : Expr, x.NodeOf e ∧ x.span = l.span

variable {e : Expr} {l : Line}

/-- A line may have the place of the whole tree. -/
theorem PlacedBy.root (h : e.span = l.span) : PlacedBy e l :=
  ⟨e, .root, h⟩

/-- A line with the place of a node of a child has that of a node of the tree. -/
theorem PlacedBy.inside {child : Expr} (hchild : child ∈ e.children) (h : PlacedBy child l) :
    PlacedBy e l := by
  obtain ⟨x, hx, hspan⟩ := h
  exact ⟨x, .inside hchild hx, hspan⟩

/-- The code of a child in front of other code of the node. -/
theorem placedBy_append {child : Expr} {code rest : List Line} (hchild : child ∈ e.children)
    (hcode : ∀ l ∈ code, PlacedBy child l) (hrest : ∀ l ∈ rest, PlacedBy e l) :
    ∀ l ∈ code ++ rest, PlacedBy e l :=
  List.forall_mem_append.mpr ⟨fun l hl => (hcode l hl).inside hchild, hrest⟩

/-- One line with the place of the tree. -/
theorem placedBy_singleton {i : Instruction} {span : Span} (h : e.span = span) :
    ∀ l ∈ [(⟨i, span⟩ : Line)], PlacedBy e l :=
  List.forall_mem_singleton.mpr (.root h)

/-- The lines of a value have the places of its nodes. -/
theorem placedBy_valueCode {e : Expr} (h : Evaluable e) : ∀ l ∈ valueCode e, PlacedBy e l := by
  induction h with
  | input index span => exact placedBy_singleton rfl
  | var name inverted span => exact placedBy_singleton rfl
  | namedVar span _ ih => exact placedBy_append List.mem_cons_self ih (placedBy_singleton rfl)
  | assign span _ _ ihSource ihTarget =>
    refine placedBy_append (List.mem_pair.mpr (Or.inr rfl)) ihSource ?_
    exact placedBy_append List.mem_cons_self ihTarget (placedBy_singleton rfl)
  | binary op span _ _ ihLeft ihRight =>
    refine placedBy_append List.mem_cons_self ihLeft ?_
    exact placedBy_append (List.mem_pair.mpr (Or.inr rfl)) ihRight (placedBy_singleton rfl)
  | popVar name inverted inner span => exact placedBy_singleton rfl
  | popNamed inner span _ ih =>
    -- the name stands two levels below, and the variable between has no line
    have hname := fun l hl => (ih l hl).inside (e := .namedVar _ inner) List.mem_cons_self
    exact placedBy_append List.mem_cons_self hname (placedBy_singleton rfl)
  | lengthOf span _ ih => exact placedBy_append List.mem_cons_self ih (placedBy_singleton rfl)

/-- The lines of a statement have the places of its nodes. -/
theorem placedBy_statementCode (inputCount : Nat) {stmt : Expr} (h : Executable stmt) :
    ∀ l ∈ statementCode inputCount stmt, PlacedBy stmt l := by
  induction h with
  | assign span h | pop span h =>
    rw [statementCode]
    exact List.forall_mem_append.mpr ⟨placedBy_valueCode h, placedBy_singleton rfl⟩
  | print span h =>
    rw [statementCode]
    refine List.forall_mem_append.mpr ⟨?_, placedBy_singleton rfl⟩
    exact forall_mem_valuesCode fun arg harg l hl =>
      (placedBy_valueCode (h arg harg) l hl).inside harg
  | hello span =>
    rw [statementCode, greetingCode]
    split
    · exact List.forall_mem_cons.mpr ⟨.root rfl, placedBy_singleton rfl⟩
    · exact placedBy_singleton rfl
  | exit code span => exact placedBy_singleton rfl
  | push span h =>
    exact placedBy_append List.mem_cons_self (placedBy_valueCode h) (placedBy_singleton rfl)
  | clear span => exact placedBy_singleton rfl
  | loop span hcondition _ _ ihThen ihElse =>
    rw [statementCode, loopCode]
    have hvalue := placedBy_valueCode hcondition
    refine placedBy_append List.mem_cons_self hvalue ?_
    refine List.forall_mem_cons.mpr ⟨.root rfl, List.forall_mem_append.mpr ⟨?_, ?_⟩⟩
    · exact forall_mem_statementsCode fun stmt hstmt l hl =>
        (ihThen stmt hstmt l hl).inside (List.mem_cons_of_mem _ (List.mem_append_left _ hstmt))
    · refine placedBy_append List.mem_cons_self hvalue ?_
      refine List.forall_mem_cons.mpr ⟨.root rfl, List.forall_mem_cons.mpr ⟨.root rfl, ?_⟩⟩
      exact forall_mem_statementsCode fun stmt hstmt l hl =>
        (ihElse stmt hstmt l hl).inside (List.mem_cons_of_mem _ (List.mem_append_right _ hstmt))
  | silent h => simp [statementCode_silent inputCount h]

/-- The lines of a program have the places of nodes of its statements, unless it is empty: then the
only line has no place. -/
theorem placedBy_programCode {p : Program} (h : ∀ stmt ∈ p.statements, Executable stmt)
    (hne : p.statements ≠ []) : ∀ l ∈ programCode p, ∃ stmt ∈ p.statements, PlacedBy stmt l := by
  refine List.forall_mem_append.mpr ⟨?_, List.forall_mem_singleton.mpr ?_⟩
  · exact forall_mem_statementsCode fun stmt hstmt l hl =>
      ⟨stmt, hstmt, placedBy_statementCode _ (h stmt hstmt) l hl⟩
  · refine ⟨p.statements.getLast hne, List.getLast_mem hne, .root ?_⟩
    simp [lastSpan, List.getLast?_eq_some_getLast hne]

/-- The places that a chunk stores are those of the lines of its program. -/
theorem exists_line_of_mem_spans {p : Program} {chunk : Chunk} (h : compile p = .ok chunk)
    {span : Span} (hspan : span ∈ chunk.spans) : ∃ l ∈ programCode p, l.span = span := by
  obtain ⟨-, -, rfl⟩ := compile_eq_ok h
  have hmem : span ∈ spans (programCode p) := by simpa [append, Chunk.empty] using hspan
  obtain ⟨l, hl, hreplicate⟩ := List.mem_flatMap.mp hmem
  exact ⟨l, hl, (List.eq_of_mem_replicate hreplicate).symm⟩

end Codegen

/-- At every node of a program that is read, the sigil of its kind stands in the source at the byte
offsets of its span, and these lie in the line and at the column of the span. The places in the code
of the program are spans of its nodes, unless it has no statements. -/
theorem spans_of_parse {source : String} {p : Program} (h : parse source = .ok p) :
    (∀ stmt ∈ p.statements, ∀ e : Expr, e.NodeOf stmt →
      ∃ s ∈ e.sigils, e.span.Marks source s.text) ∧
    (p.statements ≠ [] → ∀ chunk, Codegen.compile p = .ok chunk → ∀ span ∈ chunk.spans,
      ∃ stmt ∈ p.statements, ∃ e : Expr, e.NodeOf stmt ∧ e.span = span) := by
  refine ⟨located_of_parse h, ?_⟩
  intro hne chunk hchunk span hspan
  obtain ⟨hexec, -, -⟩ := Codegen.compile_eq_ok hchunk
  obtain ⟨l, hl, rfl⟩ := Codegen.exists_line_of_mem_spans hchunk hspan
  exact Codegen.placedBy_programCode hexec hne l hl

/-- A comment and, on the next line, a negated variable that the assignment behind it copies. Some
of the characters take several bytes. -/
def copiedTarget : String :=
  ":# größe\n;(ß:) := :L :$"

/-- The copy has the span of the original. -/
theorem spans_copiedTarget : ∃ p stmt target chunk, parse copiedTarget = .ok p ∧
    p.statements = [stmt] ∧ stmt.span = ⟨18, 20, 2, 7⟩ ∧ stmt.span.Marks copiedTarget ":=" ∧
    target ∈ stmt.children ∧ target.span = ⟨11, 13, 2, 1⟩ ∧ target.span.Marks copiedTarget ";(" ∧
    Codegen.compile p = .ok chunk ∧ chunk.spans.size = 11 ∧
    ∀ span ∈ chunk.spans, ∃ e : Expr, e.NodeOf stmt ∧ e.span = span := by
  have hparsed : (parse copiedTarget).toOption.map (fun p => p.statements.map fun stmt =>
      (stmt.span, stmt.sigils, stmt.children.map fun e => (e.span, e.sigils))) =
      some [(⟨18, 20, 2, 7⟩, [.assign],
        [(⟨11, 13, 2, 1⟩, [.negatedVarStart]), (⟨21, 23, 2, 10⟩, [.lengthOf])])] := by
    decide +kernel
  have hcompiled : ((parse copiedTarget).bind Codegen.compile).toOption.map
      (fun chunk => chunk.spans.size) = some 11 := by decide +kernel
  cases hparse : parse copiedTarget with
  | error e =>
    rw [hparse] at hparsed
    cases hparsed
  | ok p =>
    rw [hparse] at hparsed hcompiled
    change (Codegen.compile p).toOption.map _ = _ at hcompiled
    obtain ⟨stmt, hstatements, hstmt⟩ := List.map_eq_singleton_iff.mp (Option.some.inj hparsed)
    obtain ⟨hspan, hbelow⟩ := Prod.mk.inj hstmt
    obtain ⟨hsigils, hchildren⟩ := Prod.mk.inj hbelow
    obtain ⟨target, rest, hcons, htarget, -⟩ := List.map_eq_cons_iff.mp hchildren
    obtain ⟨htargetSpan, htargetSigils⟩ := Prod.mk.inj htarget
    have hchild : target ∈ stmt.children := by simp [hcons]
    obtain ⟨hplaced, hcode⟩ := spans_of_parse hparse
    rw [hstatements] at hplaced hcode
    obtain ⟨s, hs, hmarks⟩ := hplaced stmt List.mem_cons_self stmt .root
    obtain ⟨s', hs', hmarks'⟩ := hplaced stmt List.mem_cons_self target (.inside hchild .root)
    rw [hsigils, List.mem_singleton] at hs
    rw [htargetSigils, List.mem_singleton] at hs'
    subst hs hs'
    cases hchunk : Codegen.compile p with
    | error e =>
      rw [hchunk] at hcompiled
      cases hcompiled
    | ok chunk =>
      rw [hchunk] at hcompiled
      refine ⟨p, stmt, target, chunk, rfl, hstatements, hspan, hmarks, hchild, htargetSpan, hmarks',
        hchunk, Option.some.inj hcompiled, ?_⟩
      simpa using hcode (List.cons_ne_nil _ _) chunk hchunk

end Smil
