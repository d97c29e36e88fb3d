import Smil.Proofs.Terms

/-!
# Reading undoes rendering

The text of a program of the grammar is read back as that program, up to places. A statement is
read as one expression, except for an assignment: its target is read first and becomes pending,
and the assignment sigil takes it from there. So the readers of statement lists are compared
before and after a whole statement, and the number of expressions that they may still read goes
down by no more than the length of the statement's text.
-/

namespace Smil.Expr.Parser

open Cursor

/-! ### Statements that are one expression -/

/-- The text of a statement is read back by `r`, whatever is pending then. -/
def ReadsStatement (r : Reader Expr) (e : Expr) : Prop :=
  ∀ gap tail pos pending count, Gap gap → Quiet tail → ∃ e' pos' pending', e'.erase = e.erase ∧
    r ⟨⟨gap ++ (e.text ++ tail), pos⟩, pending, count⟩ =
      .ok (e', ⟨⟨tail, pos'⟩, pending', max count e.inputs⟩)

variable {sub : Reader Expr} {budget : Nat}

/-- A value leaves what is pending as it is. -/
theorem Reads.statement {e : Expr} (h : Reads sub e) : ReadsStatement sub e := by
  intro gap tail pos pending count hgap hquiet
  obtain ⟨e', pos', herase, hread⟩ := h gap tail pos pending count hgap hquiet
  exact ⟨e', pos', pending, herase, hread⟩

/-- A statement is read if what follows its first sigil is. -/
theorem readsStatement_of_sigil {e : Expr} {s : Sigil} {rest : List Char}
    (htext : e.text = s.text.toList ++ rest)
    (h : ∀ token tail pos pending count, token.kind = .sigil s → Quiet tail →
      ∃ e' pos' pending', e'.erase = e.erase ∧
        construct sub budget token ⟨⟨rest ++ tail, pos⟩, pending, count⟩ =
          .ok (e', ⟨⟨tail, pos'⟩, pending', max count e.inputs⟩)) :
    ReadsStatement (chained sub budget) e := by
  intro gap tail pos pending count hgap hquiet
  obtain ⟨token, pos₁, hkind, htoken⟩ := nextToken_sigil hgap s (rest ++ tail) pos pending count
  obtain ⟨e', pos', pending', herase, hread⟩ := h token tail pos₁ pending count hkind hquiet
  refine ⟨e', pos', pending', herase, chained_of_construct ?_ hquiet⟩
  rw [htext, List.append_assoc, run_bind_of_ok htoken, hread]

/-- A statement that consists of one sigil is read. -/
theorem sigil_reads {e : Span → Expr} {s : Sigil} (htext : ∀ span, (e span).text = s.text.toList)
    (herase : ∀ span span', (e span).erase = (e span').erase)
    (hinputs : ∀ span, (e span).inputs = 0)
    (h : ∀ token, token.kind = .sigil s → construct sub budget token = pure (e token.span))
    (span : Span) : ReadsStatement (chained sub budget) (e span) := by
  refine readsStatement_of_sigil (s := s) (by rw [htext, List.append_nil]) ?_
  intro token tail pos pending count hkind _
  refine ⟨e token.span, pos, pending, herase token.span span, ?_⟩
  rw [h token hkind, hinputs, Nat.max_zero]
  rfl

/-- A push is read if its value is. -/
theorem push_reads {e : Expr} (hvalue : e.yieldsValue = true) (h : Reads sub e) (span : Span) :
    ReadsStatement (chained sub budget) (.push e span) := by
  refine readsStatement_of_sigil (s := .stackPush) (by rw [text]) ?_
  intro token tail pos pending count hkind hquiet
  obtain ⟨e', pos', herase, he⟩ := h [' '] tail pos pending count gap_space hquiet
  have hvalue' : e'.yieldsValue = true := by
    rw [yieldsValue_congr herase, hvalue]
  refine ⟨.push e' token.span, pos', pending, by rw [erase, erase, herase], ?_⟩
  unfold construct
  rw [hkind, inputs]
  exact run_bind_of_ok (value_of_reads he hvalue')

/-- Before a sigil that starts expressions, a print reads one more argument. -/
theorem printArgs_step {st : Reading} {token : Token} {s : Sigil}
    (hpeek : peekToken st = .ok (token, st)) (hkind : token.kind = .sigil s)
    (hs : s.startsExpression = true) (span : Span) (n : Nat) (args : List Expr) :
    printArgs sub span (n + 1) args st =
      (value sub >>= fun arg => printArgs sub span n (arg :: args)) st := by
  rw [printArgs, run_bind_of_ok hpeek, hkind]
  cases s <;> first | rfl | cases hs

/-- Before its closing sigil, a print ends. -/
theorem printArgs_end (sub : Reader Expr) (span : Span) (n : Nat) (args : List Expr)
    (tail : List Char) (pos : Position) (pending : Option Expr) (count : Nat) :
    ∃ pos', printArgs sub span (n + 1) args
        ⟨⟨' ' :: (Sigil.printEnd.text.toList ++ tail), pos⟩, pending, count⟩ =
      .ok (args.reverse, ⟨⟨tail, pos'⟩, pending, count⟩) := by
  obtain ⟨token, hkind, hpeek⟩ := peekToken_sigil gap_space .printEnd tail pos pending count
  obtain ⟨token', pos', -, htoken⟩ := nextToken_sigil gap_space .printEnd tail pos pending count
  rw [List.singleton_append] at hpeek htoken
  refine ⟨pos', ?_⟩
  rw [printArgs, run_bind_of_ok hpeek, hkind]
  exact run_bind_of_ok (run_discard_of_ok htoken)

/-- A value can end before several expressions if it can end before what follows them. -/
theorem quiet_texts {es : List Expr} (hopens : ∀ e ∈ es, Opens e) {tail : List Char}
    (h : Quiet tail) : Quiet (texts es ++ tail) := by
  cases es with
  | nil =>
    rw [texts]
    exact h
  | cons e es =>
    rw [texts, List.cons_append, List.append_assoc]
    exact (hopens e List.mem_cons_self).quiet _

/-- The first sigil of an expression is seen. -/
theorem Opens.peekToken {e : Expr} (h : Opens e) {gap : List Char} (hgap : Gap gap)
    (tail : List Char) (pos : Position) (pending : Option Expr) (count : Nat) :
    ∃ (token : Token) (s : Sigil), token.kind = .sigil s ∧ s.startsExpression = true ∧
      peekToken ⟨⟨gap ++ (e.text ++ tail), pos⟩, pending, count⟩ =
        .ok (token, ⟨⟨gap ++ (e.text ++ tail), pos⟩, pending, count⟩) := by
  obtain ⟨s, rest, hs, htext⟩ := h
  rw [htext, List.append_assoc]
  obtain ⟨token, hkind, hpeek⟩ := peekToken_sigil hgap s (rest ++ tail) pos pending count
  exact ⟨token, s, hkind, hs, hpeek⟩

/-- The arguments of a print are read in order. -/
theorem printArgs_reads {es : List Expr} (hreads : ∀ e ∈ es, Reads sub e)
    (hopens : ∀ e ∈ es, Opens e) (hvalues : ∀ e ∈ es, e.yieldsValue = true) (span : Span) {n : Nat}
    (hn : (texts es).length < n) (args : List Expr) (tail : List Char) (pos : Position)
    (pending : Option Expr) (count : Nat) :
    ∃ es' pos', eraseAll es' = eraseAll es ∧
      printArgs sub span n args
          ⟨⟨texts es ++ ' ' :: (Sigil.printEnd.text.toList ++ tail), pos⟩, pending, count⟩ =
        .ok (args.reverse ++ es', ⟨⟨tail, pos'⟩, pending, max count (inputsAll es)⟩) := by
  obtain ⟨n, rfl⟩ : ∃ k, n = k + 1 := Nat.exists_eq_add_one_of_ne_zero (by omega)
  induction es generalizing n args pos count with
  | nil =>
    obtain ⟨pos', hend⟩ := printArgs_end sub span n args tail pos pending count
    refine ⟨[], pos', rfl, ?_⟩
    rw [texts, List.nil_append, hend, List.append_nil, inputsAll, Nat.max_zero]
  | cons e es ih =>
    rw [texts, List.length_cons, List.length_append] at hn
    have hopens' : ∀ e' ∈ es, Opens e' := fun e' he' => hopens e' (List.mem_cons_of_mem e he')
    have hquiet : Quiet (texts es ++ ' ' :: (Sigil.printEnd.text.toList ++ tail)) :=
      quiet_texts hopens' (quiet_sigil rfl tail)
    have hopen := hopens e List.mem_cons_self
    have hlength := hopen.two_le_length
    obtain ⟨token, s, hkind, hs, hpeek⟩ := hopen.peekToken gap_space
      (texts es ++ ' ' :: (Sigil.printEnd.text.toList ++ tail)) pos pending count
    obtain ⟨e', pos₁, herase, hread⟩ := hreads e List.mem_cons_self [' '] _ pos pending count
      gap_space hquiet
    have hvalue : e'.yieldsValue = true := by
      rw [yieldsValue_congr herase, hvalues e List.mem_cons_self]
    obtain ⟨n, rfl⟩ : ∃ k, n = k + 1 := Nat.exists_eq_add_one_of_ne_zero (by omega)
    obtain ⟨es', pos', herase', hread'⟩ := ih
      (fun e' he' => hreads e' (List.mem_cons_of_mem e he')) hopens'
      (fun e' he' => hvalues e' (List.mem_cons_of_mem e he')) (e' :: args) pos₁
      (max count e.inputs) n (by omega)
    refine ⟨e' :: es', pos', by rw [eraseAll, eraseAll, herase, herase'], ?_⟩
    rw [texts, List.cons_append, List.append_assoc, inputsAll, ← Nat.max_assoc]
    rw [List.singleton_append] at hpeek hread
    rw [printArgs_step hpeek hkind hs, run_bind_of_ok (value_of_reads hread hvalue), hread',
      List.reverse_cons, List.append_assoc, List.singleton_append]

/-- A print is read if its arguments are. -/
theorem print_reads {es : List Expr} (hreads : ∀ e ∈ es, Reads sub e)
    (hopens : ∀ e ∈ es, Opens e) (hvalues : ∀ e ∈ es, e.yieldsValue = true) (span : Span)
    (hbudget : (texts es).length < budget) :
    ReadsStatement (chained sub budget) (.print es span) := by
  refine readsStatement_of_sigil (s := .printStart) (by rw [text]) ?_
  intro token tail pos pending count hkind _
  obtain ⟨es', pos', herase, hread⟩ := printArgs_reads hreads hopens hvalues token.span hbudget []
    tail pos pending count
  refine ⟨.print es' token.span, pos', pending, by rw [erase, erase, herase], ?_⟩
  unfold construct
  rw [hkind, inputs, List.append_assoc, List.cons_append]
  exact run_bind_of_ok hread

/-! ### Lists of statements -/

/-- A reader of statements that, before a sigil which starts expressions, reads one expression and
goes on. -/
def Collects (sub : Reader Expr) (list : Nat → List Expr → Reader (List Expr)) : Prop :=
  ∀ n body st token s, peekToken st = .ok (token, st) → token.kind = .sigil s →
    s.startsExpression = true →
    list (n + 1) body st = (sub >>= fun e => collect e body >>= list n) st

/-- The statements of a program are collected up to its end. -/
theorem statementsFrom_collects (sub : Reader Expr) : Collects sub (statementsFrom sub) := by
  intro n body st token s hpeek hkind hs
  rw [statementsFrom, run_bind_of_ok hpeek, hkind]
  cases s <;> first | rfl | cases hs

/-- The statements of a body are collected up to the sigil that closes it. -/
theorem loopSection_collects (sub : Reader Expr) {closing : Sigil}
    (hclosing : closing.startsExpression = false) (span : Span) :
    Collects sub (loopSection sub closing span) := by
  intro n body st token s hpeek hkind hs
  have hne : ¬ token.kind = .sigil closing := by
    rw [hkind]
    intro heq
    cases heq
    rw [hclosing] at hs
    cases hs
  rw [loopSection, run_bind_of_ok hpeek, if_neg hne, hkind]
  cases s <;> first | rfl | cases hs

/-- A statement is collected. -/
theorem collect_of_isStatement {e : Expr} (h : e.isStatement = true) (body : List Expr)
    (st : Reading) : collect e body st = .ok (e :: body, st) := by
  rw [collect, if_pos h]
  rfl

/-- Anything else waits to be used by what follows. -/
theorem collect_of_not_isStatement {e : Expr} (h : e.isStatement = false) (body : List Expr)
    (st : Reading) : collect e body st = .ok (body, { st with pending := some e }) := by
  rw [collect, if_neg (by rw [h]; exact Bool.false_ne_true)]
  rfl

/-- The text of a statement adds the statement to the list that is read. -/
def Collected (sub : Reader Expr) (e : Expr) : Prop :=
  ∀ list, Collects sub list → ∀ n body gap tail pos pending count, Gap gap → Quiet tail →
    e.text.length ≤ n →
    ∃ (e' : Expr) (n' : Nat) (pos' : Position) (pending' : Option Expr), e'.erase = e.erase ∧
      n ≤ n' + e.text.length ∧
      list n body ⟨⟨gap ++ (e.text ++ tail), pos⟩, pending, count⟩ =
        list n' (e' :: body) ⟨⟨tail, pos'⟩, pending', max count e.inputs⟩

/-- A statement that is one expression is added to the list. -/
theorem collected_of_reads {e : Expr} (hopens : Opens e) (hstmt : e.isStatement = true)
    (h : ReadsStatement sub e) : Collected sub e := by
  intro list hlist n body gap tail pos pending count hgap hquiet hn
  have hlength := hopens.two_le_length
  obtain ⟨n, rfl⟩ : ∃ k, n = k + 1 := Nat.exists_eq_add_one_of_ne_zero (by omega)
  obtain ⟨token, s, hkind, hs, hpeek⟩ := hopens.peekToken hgap tail pos pending count
  obtain ⟨e', pos', pending', herase, hread⟩ := h gap tail pos pending count hgap hquiet
  have hstmt' : e'.isStatement = true := by
    rw [isStatement_congr herase, hstmt]
  refine ⟨e', n, pos', pending', herase, by omega, ?_⟩
  rw [hlist n body _ token s hpeek hkind hs, run_bind_of_ok hread,
    run_bind_of_ok (collect_of_isStatement hstmt' body _)]

/-- An assignment sigil takes the pending expression as its target. -/
theorem assignment_reads (budget : Nat) {source : Expr} (hvalue : source.yieldsValue = true)
    (h : Reads sub source) {target : Expr} (hassignable : target.isAssignable = true)
    {gap tail : List Char} (hgap : Gap gap) (hquiet : Quiet tail) (pos : Position) (count : Nat) :
    ∃ source' span pos', source'.erase = source.erase ∧
      chained sub budget ⟨⟨gap ++ (Sigil.assign.text.toList ++ ' ' :: (source.text ++ tail)), pos⟩,
          some target, count⟩ =
        .ok (.assign target source' span,
          ⟨⟨tail, pos'⟩, some target, max count source.inputs⟩) := by
  obtain ⟨token, pos₁, hkind, htoken⟩ := nextToken_sigil hgap .assign
    (' ' :: (source.text ++ tail)) pos (some target) count
  obtain ⟨source', pos', herase, hread⟩ := h [' '] tail pos₁ (some target) count gap_space hquiet
  have hvalue' : source'.yieldsValue = true := by
    rw [yieldsValue_congr herase, hvalue]
  refine ⟨source', token.span, pos', herase, chained_of_construct ?_ hquiet⟩
  rw [run_bind_of_ok htoken]
  unfold construct
  rw [hkind]
  dsimp only
  rw [assignment, run_bind_of_ok (x := get) rfl]
  dsimp only
  rw [List.singleton_append] at hread
  rw [run_bind_of_ok (expectAssignable_of_isAssignable hassignable _),
    run_bind_of_ok (value_of_reads hread hvalue')]
  rfl

/-- An assignable expression is no statement. -/
theorem not_isStatement_of_isAssignable {e : Expr} (h : e.isAssignable = true) :
    e.isStatement = false := by
  cases e <;> first | rfl | cases h

/-- An assignment is added to the list after two expressions: its target, and the rest. -/
theorem collected_assign {target source : Expr} (hopens : Opens target)
    (hassignable : target.isAssignable = true) (hvalue : source.yieldsValue = true)
    (htarget : Reads (chained sub budget) target) (hsource : Reads sub source) (span : Span) :
    Collected (chained sub budget) (.assign target source span) := by
  intro list hlist n body gap tail pos pending count hgap hquiet hn
  have hlength := hopens.two_le_length
  rw [text, List.length_append, List.length_cons] at hn ⊢
  obtain ⟨n, rfl⟩ : ∃ k, n = k + 2 := ⟨n - 2, by omega⟩
  have hassign : Quiet (' ' :: (Sigil.assign.text.toList ++ ' ' :: (source.text ++ tail))) :=
    quiet_sigil rfl _
  obtain ⟨token, s, hkind, hs, hpeek⟩ := hopens.peekToken hgap
    (' ' :: (Sigil.assign.text.toList ++ ' ' :: (source.text ++ tail))) pos pending count
  obtain ⟨target', pos₁, heraseTarget, hreadTarget⟩ :=
    htarget gap _ pos pending count hgap hassign
  have hassignable' : target'.isAssignable = true := by
    rw [isAssignable_congr heraseTarget, hassignable]
  obtain ⟨token', hkind', hpeek'⟩ := peekToken_sigil gap_space .assign
    (' ' :: (source.text ++ tail)) pos₁ (some target') (max count target.inputs)
  obtain ⟨source', span', pos', heraseSource, hreadSource⟩ := assignment_reads budget hvalue
    hsource hassignable' gap_space hquiet pos₁ (max count target.inputs)
  refine ⟨.assign target' source' span', n, pos', some target', ?_, by omega, ?_⟩
  · rw [erase, erase, heraseTarget, heraseSource]
  · rw [List.singleton_append] at hpeek' hreadSource
    rw [List.append_assoc, List.cons_append, List.append_assoc, List.cons_append,
      hlist (n + 1) body _ token s hpeek hkind hs, run_bind_of_ok hreadTarget,
      run_bind_of_ok (collect_of_not_isStatement (not_isStatement_of_isAssignable hassignable') ..),
      hlist n body _ token' .assign hpeek' hkind' rfl, run_bind_of_ok hreadSource,
      run_bind_of_ok (collect_of_isStatement rfl ..), inputs, Nat.max_assoc]

/-- The statements of a list are added in order. -/
theorem collected_all {stmts : List Expr} (h : ∀ stmt ∈ stmts, Collected sub stmt)
    (hopens : ∀ stmt ∈ stmts, Opens stmt) {list : Nat → List Expr → Reader (List Expr)}
    (hlist : Collects sub list) {n : Nat} (hn : (texts stmts).length ≤ n) (body : List Expr)
    {tail : List Char} (hquiet : Quiet tail) (pos : Position) (pending : Option Expr)
    (count : Nat) :
    ∃ (stmts' : List Expr) (n' : Nat) (pos' : Position) (pending' : Option Expr),
      eraseAll stmts' = eraseAll stmts ∧ n ≤ n' + (texts stmts).length ∧
      list n body ⟨⟨texts stmts ++ tail, pos⟩, pending, count⟩ =
        list n' (stmts'.reverse ++ body) ⟨⟨tail, pos'⟩, pending', max count (inputsAll stmts)⟩ := by
  induction stmts generalizing n body pos pending count with
  | nil =>
    refine ⟨[], n, pos, pending, rfl, by omega, ?_⟩
    rw [texts, List.nil_append, List.reverse_nil, List.nil_append, inputsAll, Nat.max_zero]
  | cons stmt stmts ih =>
    rw [texts, List.length_cons, List.length_append] at hn ⊢
    have hopens' : ∀ s ∈ stmts, Opens s := fun s hs => hopens s (List.mem_cons_of_mem stmt hs)
    obtain ⟨stmt', n₁, pos₁, pending₁, herase, hn₁, hread⟩ := h stmt List.mem_cons_self list hlist n
      body [' '] (texts stmts ++ tail) pos pending count gap_space (quiet_texts hopens' hquiet)
      (by omega)
    obtain ⟨stmts', n₂, pos₂, pending₂, herase', hn₂, hread'⟩ := ih
      (fun s hs => h s (List.mem_cons_of_mem stmt hs)) hopens' (n := n₁) (by omega)
      (stmt' :: body) pos₁ pending₁ (max count stmt.inputs)
    refine ⟨stmt' :: stmts', n₂, pos₂, pending₂, by rw [eraseAll, eraseAll, herase, herase'],
      by omega, ?_⟩
    rw [List.singleton_append] at hread
    rw [List.cons_append, List.append_assoc, hread, hread', List.reverse_cons, List.append_assoc,
      List.singleton_append, inputsAll, Nat.max_assoc]

/-! ### Loops -/

/-- Before its closing sigil, a section of a loop ends. -/
theorem loopSection_end (sub : Reader Expr) (closing : Sigil) (span : Span) (n : Nat)
    (body : List Expr) (tail : List Char) (pos : Position) (pending : Option Expr) (count : Nat) :
    ∃ pos', loopSection sub closing span (n + 1) body
        ⟨⟨' ' :: (closing.text.toList ++ tail), pos⟩, pending, count⟩ =
      .ok (body.reverse, ⟨⟨tail, pos'⟩, pending, count⟩) := by
  obtain ⟨token, hkind, hpeek⟩ := peekToken_sigil gap_space closing tail pos pending count
  obtain ⟨token', pos', -, htoken⟩ := nextToken_sigil gap_space closing tail pos pending count
  rw [List.singleton_append] at hpeek htoken
  refine ⟨pos', ?_⟩
  rw [loopSection, run_bind_of_ok hpeek, if_pos hkind]
  exact run_bind_of_ok (run_discard_of_ok htoken)

/-- A section of a loop is read if its statements are. -/
theorem loopSection_reads {stmts : List Expr} (h : ∀ stmt ∈ stmts, Collected sub stmt)
    (hopens : ∀ stmt ∈ stmts, Opens stmt) (closing : Sigil)
    (hclosing : closing.startsExpression = false) (hoperator : closing.operator? = none)
    (span : Span) {n : Nat} (hn : (texts stmts).length < n) (tail : List Char) (pos : Position)
    (pending : Option Expr) (count : Nat) :
    ∃ stmts' pos' pending', eraseAll stmts' = eraseAll stmts ∧
      loopSection sub closing span n []
          ⟨⟨texts stmts ++ ' ' :: (closing.text.toList ++ tail), pos⟩, pending, count⟩ =
        .ok (stmts', ⟨⟨tail, pos'⟩, pending', max count (inputsAll stmts)⟩) := by
  obtain ⟨stmts', n', pos₁, pending', herase, hn', hread⟩ := collected_all h hopens
    (loopSection_collects sub hclosing span) (Nat.le_of_lt hn) [] (quiet_sigil hoperator tail) pos
    pending count
  obtain ⟨n', rfl⟩ : ∃ k, n' = k + 1 := Nat.exists_eq_add_one_of_ne_zero (by omega)
  obtain ⟨pos', hend⟩ := loopSection_end sub closing span n' (stmts'.reverse ++ []) tail pos₁
    pending' (max count (inputsAll stmts))
  refine ⟨stmts', pos', pending', herase, ?_⟩
  rw [hread, hend, List.append_nil, List.reverse_reverse]

/-- The first expression before the first bar of a loop. -/
theorem loopCondition_first {st : Reading} {token : Token} {s : Sigil}
    (hpeek : peekToken st = .ok (token, st)) (hkind : token.kind = .sigil s)
    (hs : s.startsExpression = true) (span : Span) (n : Nat) :
    loopCondition sub span (n + 1) none st =
      (sub >>= fun e => loopCondition sub span n (some e)) st := by
  rw [loopCondition, run_bind_of_ok hpeek, hkind]
  cases s <;> first | rfl | cases hs

/-- Each further expression makes the one before it pending. -/
theorem loopCondition_next {st : Reading} {token : Token} {s : Sigil}
    (hpeek : peekToken st = .ok (token, st)) (hkind : token.kind = .sigil s)
    (hs : s.startsExpression = true) (span : Span) (n : Nat) (last : Expr) :
    loopCondition sub span (n + 1) (some last) st =
      (sub >>= fun e => loopCondition sub span n (some e)) { st with pending := some last } := by
  rw [loopCondition, run_bind_of_ok hpeek, hkind]
  cases s <;> first | rfl | cases hs

/-- The first bar of a loop ends its condition. -/
theorem loopCondition_end (sub : Reader Expr) (span : Span) (n : Nat) (last : Option Expr)
    (tail : List Char) (pos : Position) (pending : Option Expr) (count : Nat) :
    ∃ pos', loopCondition sub span (n + 1) last
        ⟨⟨' ' :: (Sigil.loopThen.text.toList ++ tail), pos⟩, pending, count⟩ =
      .ok (last, ⟨⟨tail, pos'⟩, pending, count⟩) := by
  obtain ⟨token, hkind, hpeek⟩ := peekToken_sigil gap_space .loopThen tail pos pending count
  obtain ⟨token', pos', -, htoken⟩ := nextToken_sigil gap_space .loopThen tail pos pending count
  rw [List.singleton_append] at hpeek htoken
  refine ⟨pos', ?_⟩
  rw [loopCondition, run_bind_of_ok hpeek, hkind]
  exact run_bind_of_ok (run_discard_of_ok htoken)

/-- The text of a condition is read back before the first bar of a loop. -/
def ConditionReads (sub : Reader Expr) (e : Expr) : Prop :=
  ∀ span n tail pos pending count, e.text.length ≤ n →
    ∃ e' pos' pending', e'.erase = e.erase ∧
      loopCondition sub span n none
          ⟨⟨' ' :: (e.text ++ ' ' :: (Sigil.loopThen.text.toList ++ tail)), pos⟩, pending, count⟩ =
        .ok (some e', ⟨⟨tail, pos'⟩, pending', max count e.inputs⟩)

/-- A value is read as a condition. -/
theorem Reads.condition {e : Expr} (h : Reads sub e) (hopens : Opens e) : ConditionReads sub e := by
  intro span n tail pos pending count hn
  have hlength := hopens.two_le_length
  obtain ⟨n, rfl⟩ : ∃ k, n = k + 2 := ⟨n - 2, by omega⟩
  obtain ⟨token, s, hkind, hs, hpeek⟩ := hopens.peekToken gap_space
    (' ' :: (Sigil.loopThen.text.toList ++ tail)) pos pending count
  obtain ⟨e', pos₁, herase, hread⟩ := h [' '] (' ' :: (Sigil.loopThen.text.toList ++ tail)) pos
    pending count gap_space (quiet_sigil rfl tail)
  obtain ⟨pos', hend⟩ := loopCondition_end sub span n (some e') tail pos₁ pending
    (max count e.inputs)
  rw [List.singleton_append] at hpeek hread
  refine ⟨e', pos', pending, herase, ?_⟩
  rw [loopCondition_first hpeek hkind hs, run_bind_of_ok hread, hend]

/-- An assignment is read as a condition: its target becomes pending before the rest is read. -/
theorem condition_assign {target source : Expr} (hopens : Opens target)
    (hassignable : target.isAssignable = true) (hvalue : source.yieldsValue = true)
    (htarget : Reads (chained sub budget) target) (hsource : Reads sub source) (span : Span) :
    ConditionReads (chained sub budget) (.assign target source span) := by
  intro span' n tail pos pending count hn
  have hlength := hopens.two_le_length
  rw [text, List.length_append, List.length_cons] at hn
  obtain ⟨n, rfl⟩ : ∃ k, n = k + 3 := ⟨n - 3, by omega⟩
  have hassign : Quiet (' ' :: (Sigil.assign.text.toList ++ ' ' :: (source.text ++
      ' ' :: (Sigil.loopThen.text.toList ++ tail)))) := quiet_sigil rfl _
  obtain ⟨token, s, hkind, hs, hpeek⟩ := hopens.peekToken gap_space
    (' ' :: (Sigil.assign.text.toList ++ ' ' :: (source.text ++
      ' ' :: (Sigil.loopThen.text.toList ++ tail)))) pos pending count
  obtain ⟨target', pos₁, heraseTarget, hreadTarget⟩ :=
    htarget [' '] _ pos pending count gap_space hassign
  have hassignable' : target'.isAssignable = true := by
    rw [isAssignable_congr heraseTarget, hassignable]
  obtain ⟨token', hkind', hpeek'⟩ := peekToken_sigil gap_space .assign
    (' ' :: (source.text ++ ' ' :: (Sigil.loopThen.text.toList ++ tail))) pos₁ pending
    (max count target.inputs)
  obtain ⟨source', spanAssign, pos₂, heraseSource, hreadSource⟩ := assignment_reads budget hvalue
    hsource hassignable' gap_space (quiet_sigil (s := .loopThen) rfl tail) pos₁
    (max count target.inputs)
  obtain ⟨pos', hend⟩ := loopCondition_end (chained sub budget) span' n
    (some (.assign target' source' spanAssign)) tail pos₂ (some target')
    (max (max count target.inputs) source.inputs)
  rw [List.singleton_append] at hpeek hpeek' hreadTarget hreadSource
  refine ⟨.assign target' source' spanAssign, pos', some target', ?_, ?_⟩
  · rw [erase, erase, heraseTarget, heraseSource]
  · rw [text, List.append_assoc, List.cons_append, List.append_assoc, List.cons_append,
      loopCondition_first hpeek hkind hs, run_bind_of_ok hreadTarget,
      loopCondition_next hpeek' hkind' rfl, run_bind_of_ok hreadSource, hend, inputs,
      Nat.max_assoc]

/-- A loop is read if its condition and its statements are. -/
theorem loop_reads {condition : Expr} {thenBody elseBody : List Expr}
    (hcondition : ConditionReads sub condition) (hvalue : condition.yieldsValue = true)
    (hthen : ∀ stmt ∈ thenBody, Collected sub stmt) (hopensThen : ∀ stmt ∈ thenBody, Opens stmt)
    (helse : ∀ stmt ∈ elseBody, Collected sub stmt) (hopensElse : ∀ stmt ∈ elseBody, Opens stmt)
    (span : Span) (hbudgetCondition : condition.text.length ≤ budget)
    (hbudgetThen : (texts thenBody).length < budget)
    (hbudgetElse : (texts elseBody).length < budget) :
    ReadsStatement (chained sub budget) (.loop condition thenBody elseBody span) := by
  refine readsStatement_of_sigil (s := .loopStart) (by rw [text]) ?_
  intro token tail pos pending count hkind _
  obtain ⟨condition', pos₁, pending₁, herase, hread⟩ := hcondition token.span budget
    (texts thenBody ++ ' ' :: (Sigil.loopElse.text.toList ++ (texts elseBody ++ ' ' ::
      (Sigil.loopEnd.text.toList ++ tail)))) pos pending count hbudgetCondition
  have hvalue' : condition'.yieldsValue = true := by
    rw [yieldsValue_congr herase, hvalue]
  obtain ⟨thenBody', pos₂, pending₂, heraseThen, hreadThen⟩ := loopSection_reads hthen hopensThen
    .loopElse rfl rfl token.span hbudgetThen
    (texts elseBody ++ ' ' :: (Sigil.loopEnd.text.toList ++ tail)) pos₁ pending₁
    (max count condition.inputs)
  obtain ⟨elseBody', pos₃, pending₃, heraseElse, hreadElse⟩ := loopSection_reads helse hopensElse
    .loopEnd rfl rfl token.span hbudgetElse tail pos₂ pending₂
    (max (max count condition.inputs) (inputsAll thenBody))
  refine ⟨.loop condition' thenBody' elseBody' token.span, pos₃, pending₃, ?_, ?_⟩
  · rw [erase, erase, herase, heraseThen, heraseElse]
  · have hrest : ' ' :: (condition.text ++ ' ' :: (Sigil.loopThen.text.toList ++ (texts thenBody ++
        ' ' :: (Sigil.loopElse.text.toList ++ (texts elseBody ++
          ' ' :: Sigil.loopEnd.text.toList))))) ++ tail =
        ' ' :: (condition.text ++ ' ' :: (Sigil.loopThen.text.toList ++ (texts thenBody ++
          ' ' :: (Sigil.loopElse.text.toList ++ (texts elseBody ++
            ' ' :: (Sigil.loopEnd.text.toList ++ tail)))))) := by
      simp only [List.append_assoc, List.cons_append]
    unfold construct
    rw [hkind, hrest]
    dsimp only
    rw [loopStatement, run_bind_of_ok hread]
    dsimp only
    rw [run_bind_of_ok (expectValue_of_yieldsValue hvalue' _), run_bind_of_ok hreadThen,
      run_bind_of_ok hreadElse, inputs, Nat.max_assoc, Nat.max_assoc]
    rfl

/-! ### Sentences and programs -/

/-- A sentence starts with a sigil that starts expressions. -/
theorem opens_of_isSentence {e : Expr} (h : IsSentence e) : Opens e := by
  cases h with
  | assign h =>
    cases h with
    | intro span htarget hassignable hsource =>
      obtain ⟨s, rest, hs, htext⟩ := opens_of_isTerm htarget
      rw [Opens, text, htext, List.append_assoc]
      exact ⟨s, _, hs, rfl⟩
  | print span hargs =>
    rw [Opens, text]
    exact ⟨.printStart, _, rfl, rfl⟩
  | hello span =>
    rw [Opens, text]
    exact ⟨.hello, [], rfl, rfl⟩
  | exit span =>
    rw [Opens, text]
    exact ⟨.exit, [], rfl, rfl⟩
  | push span he =>
    rw [Opens, text]
    exact ⟨.stackPush, _, rfl, rfl⟩
  | pop span htarget hassignable =>
    rw [Opens, text]
    exact ⟨.stackPop, _, rfl, rfl⟩
  | clear span =>
    rw [Opens, text]
    exact ⟨.stackClear, [], rfl, rfl⟩
  | loop span hcondition hthen helse =>
    rw [Opens, text]
    exact ⟨.loopStart, _, rfl, rfl⟩

/-- A statement's text is no longer than that of the list it is in. -/
theorem length_text_le {es : List Expr} {e : Expr} (h : e ∈ es) :
    e.text.length ≤ (texts es).length := by
  induction es with
  | nil => cases h
  | cons first es ih =>
    rw [texts, List.length_cons, List.length_append]
    rcases List.mem_cons.mp h with rfl | hmem
    · omega
    · have hle := ih hmem
      omega

/-- An assignment of the grammar is read in a list and as a condition. -/
theorem assign_of_isAssign {e : Expr} (h : IsAssign e) {budget : Nat}
    (hbudget : e.text.length ≤ budget) :
    Collected (expression budget) e ∧ ConditionReads (expression budget) e := by
  cases h with
  | intro span htarget hassignable hsource =>
    have hopens := opens_of_isTerm htarget
    rw [text, List.length_append, List.length_cons, List.length_append, List.length_cons] at hbudget
    obtain ⟨budget, rfl⟩ : ∃ k, budget = k + 1 := ⟨budget - 1, by omega⟩
    have hreadTarget : Reads (expression (budget + 1)) _ := reads_of_isTerm htarget (by omega)
    have hreadSource : Reads (expression budget) _ := reads_of_isTerm hsource (by omega)
    exact ⟨collected_assign hopens hassignable hsource.yieldsValue hreadTarget hreadSource span,
      condition_assign hopens hassignable hsource.yieldsValue hreadTarget hreadSource span⟩

/-- A condition of the grammar is read. -/
theorem conditionReads_of_grammar {e : Expr} (h : IsTerm .whole e ∨ IsAssign e) {budget : Nat}
    (hbudget : e.text.length ≤ budget) :
    ConditionReads (expression budget) e ∧ e.yieldsValue = true := by
  rcases h with hterm | hassign
  · exact ⟨(reads_of_isTerm hterm hbudget).condition (opens_of_isTerm hterm), hterm.yieldsValue⟩
  · refine ⟨(assign_of_isAssign hassign hbudget).2, ?_⟩
    cases hassign
    rfl

/-- A statement that is read by one expression is added to a list by an expression whose budget is
the length of its text. -/
theorem collected_of_chained {e : Expr} (h : IsSentence e) (hstmt : e.isStatement = true)
    (hreads : ∀ k, e.text.length ≤ k + 1 → ReadsStatement (chained (expression k) k) e)
    {budget : Nat} (hbudget : e.text.length ≤ budget) : Collected (expression budget) e := by
  have hlength := (opens_of_isSentence h).two_le_length
  obtain ⟨k, rfl⟩ : ∃ k, budget = k + 1 := ⟨budget - 1, by omega⟩
  exact collected_of_reads (opens_of_isSentence h) hstmt (hreads k hbudget)

/-- Every sentence is added to a list of statements by an expression whose budget is the length of
its text. -/
theorem collected_of_isSentence {e : Expr} (h : IsSentence e) {budget : Nat}
    (hbudget : e.text.length ≤ budget) : Collected (expression budget) e := by
  induction h generalizing budget with
  | assign h => exact (assign_of_isAssign h hbudget).1
  | print span hargs =>
    refine collected_of_chained (.print span hargs) rfl (fun k hk => ?_) hbudget
    have hend := Sigil.printEnd.two_le_length_text
    rw [text, List.length_append, List.length_append, List.length_cons] at hk
    refine print_reads (fun arg harg => ?_) (fun arg harg => opens_of_isTerm (hargs arg harg))
      (fun arg harg => (hargs arg harg).yieldsValue) span (by omega)
    have hle := length_text_le harg
    exact reads_of_isTerm (hargs arg harg) (by omega)
  | hello span =>
    refine collected_of_chained (.hello span) rfl (fun k hk => ?_) hbudget
    exact sigil_reads (s := .hello) (fun _ => by rw [text]) (fun _ _ => by rw [erase, erase])
      (fun _ => by rw [inputs]) (fun token hkind => by rw [construct, hkind]) span
  | exit span =>
    refine collected_of_chained (.exit span) rfl (fun k hk => ?_) hbudget
    exact sigil_reads (s := .exit) (fun _ => by rw [text]) (fun _ _ => by rw [erase, erase])
      (fun _ => by rw [inputs]) (fun token hkind => by rw [construct, hkind]) span
  | clear span =>
    refine collected_of_chained (.clear span) rfl (fun k hk => ?_) hbudget
    exact sigil_reads (s := .stackClear) (fun _ => by rw [text]) (fun _ _ => by rw [erase, erase])
      (fun _ => by rw [inputs]) (fun token hkind => by rw [construct, hkind]) span
  | push span he =>
    refine collected_of_chained (.push span he) rfl (fun k hk => ?_) hbudget
    rw [text, List.length_append, List.length_cons] at hk
    exact push_reads he.yieldsValue (reads_of_isTerm he (by omega)) span
  | pop span htarget hassignable =>
    refine collected_of_chained (.pop span htarget hassignable) rfl (fun k hk => ?_) hbudget
    have hread : Reads (expression (k + 1)) _ := reads_of_isTerm (.pop span htarget hassignable) hk
    exact hread.statement
  | @loop condition thenBody elseBody span hcondition hthen helse ihThen ihElse =>
    refine collected_of_chained (.loop span hcondition hthen helse) rfl (fun k hk => ?_) hbudget
    have hstart := Sigil.loopStart.two_le_length_text
    simp only [text, List.length_append, List.length_cons] at hk
    have hbudgetCondition : condition.text.length ≤ k := by omega
    obtain ⟨hreads, hvalue⟩ := conditionReads_of_grammar hcondition hbudgetCondition
    refine loop_reads hreads hvalue (fun stmt hs => ?_)
      (fun stmt hs => opens_of_isSentence (hthen stmt hs)) (fun stmt hs => ?_)
      (fun stmt hs => opens_of_isSentence (helse stmt hs)) span hbudgetCondition (by omega)
      (by omega)
    · have hle := length_text_le hs
      exact ihThen stmt hs (by omega)
    · have hle := length_text_le hs
      exact ihElse stmt hs (by omega)

/-- At the end of a program its statements are returned. -/
theorem statementsFrom_end {st : Reading} {token : Token} (hpeek : peekToken st = .ok (token, st))
    (hkind : token.kind = .endOfInput ∨ token.kind = .sigil .programEnd) (sub : Reader Expr)
    (n : Nat) (body : List Expr) : statementsFrom sub n body st = .ok (body.reverse, st) := by
  cases n with
  | zero => rfl
  | succ n =>
    rw [statementsFrom, run_bind_of_ok hpeek]
    rcases hkind with hkind | hkind <;> rw [hkind] <;> rfl

/-- What may stand behind the statements of a program: nothing or the end marker. -/
inductive IsEnd : List Char → Prop
  | nothing : IsEnd []
  | marker {gap : List Char} (hgap : Gap gap) : IsEnd (gap ++ Sigil.programEnd.text.toList)

/-- The end of a program is seen. -/
theorem IsEnd.peekToken {tail : List Char} (h : IsEnd tail) (pos : Position)
    (pending : Option Expr) (count : Nat) :
    ∃ token : Token, (token.kind = .endOfInput ∨ token.kind = .sigil .programEnd) ∧
      peekToken ⟨⟨tail, pos⟩, pending, count⟩ = .ok (token, ⟨⟨tail, pos⟩, pending, count⟩) := by
  cases h with
  | nothing => exact ⟨_, Or.inl rfl, rfl⟩
  | marker hgap =>
    obtain ⟨token, hkind, hpeek⟩ := peekToken_sigil hgap .programEnd [] pos pending count
    rw [List.append_nil] at hpeek
    exact ⟨token, Or.inr hkind, hpeek⟩

/-- The statements of a program are read up to its end. -/
theorem statementsFrom_reads {stmts : List Expr} (h : ∀ stmt ∈ stmts, IsSentence stmt)
    {budget n : Nat} (hbudget : (texts stmts).length ≤ budget) (hn : (texts stmts).length ≤ n)
    (body : List Expr) {tail : List Char} (hquiet : Quiet tail) (hend : IsEnd tail) (pos : Position)
    (pending : Option Expr) (count : Nat) :
    ∃ stmts' st, eraseAll stmts' = eraseAll stmts ∧ st.inputCount = max count (inputsAll stmts) ∧
      statementsFrom (expression budget) n body ⟨⟨texts stmts ++ tail, pos⟩, pending, count⟩ =
        .ok (body.reverse ++ stmts', st) := by
  have hcollected : ∀ stmt ∈ stmts, Collected (expression budget) stmt := by
    intro stmt hs
    have hle := length_text_le hs
    exact collected_of_isSentence (h stmt hs) (by omega)
  obtain ⟨stmts', n', pos', pending', herase, -, hread⟩ := collected_all hcollected
    (fun stmt hs => opens_of_isSentence (h stmt hs)) (statementsFrom_collects _) hn body hquiet pos
    pending count
  obtain ⟨token, hkind, hpeek⟩ := hend.peekToken pos' pending' (max count (inputsAll stmts))
  refine ⟨stmts', ⟨⟨tail, pos'⟩, pending', max count (inputsAll stmts)⟩, herase, rfl, ?_⟩
  rw [hread, statementsFrom_end hpeek hkind, List.reverse_append, List.reverse_reverse]

/-- Without a start marker a program is its statements. -/
theorem program_unmarked {st : Reading} {token : Token} (hpeek : peekToken st = .ok (token, st))
    (hkind : token.kind ≠ .sigil .programStart) {budget : Nat} {stmts : List Expr} {st' : Reading}
    (h : statementsFrom (expression budget) budget [] st = .ok (stmts, st')) :
    program budget st = .ok (⟨stmts, st'.inputCount⟩, st') := by
  rw [program, run_bind_of_ok hpeek, if_neg hkind]
  dsimp only
  rw [run_bind_of_ok h]
  rfl

/-- Behind a start marker a program is its statements. -/
theorem program_marked {st st₁ : Reading} {token token' : Token}
    (hpeek : peekToken st = .ok (token, st)) (hkind : token.kind = .sigil .programStart)
    (htoken : nextToken st = .ok (token', st₁)) {budget : Nat} {stmts : List Expr} {st' : Reading}
    (h : statementsFrom (expression budget) budget [] st₁ = .ok (stmts, st')) :
    program budget st = .ok (⟨stmts, st'.inputCount⟩, st') := by
  rw [program, run_bind_of_ok hpeek, if_pos hkind, run_bind_of_ok (run_discard_of_ok htoken)]
  dsimp only
  rw [run_bind_of_ok h]
  rfl

/-- What stands behind the statements of a program. -/
def ending (stop : Bool) : List Char :=
  if stop then ' ' :: Sigil.programEnd.text.toList else []

/-- A value can end where the statements of a program end. -/
theorem quiet_ending (stop : Bool) : Quiet (ending stop) := by
  cases stop with
  | false => exact quiet_nil
  | true => simpa [ending] using quiet_sigil (s := .programEnd) rfl []

/-- What stands behind the statements is an end, with the marker or without. -/
theorem isEnd_ending (stop : Bool) : IsEnd (ending stop) := by
  cases stop with
  | false => exact .nothing
  | true => exact .marker gap_space

/-- Words with a space between any two are the first word and the others, each behind a space. -/
theorem intercalate_space (w : List Char) (ws : List (List Char)) :
    [' '].intercalate (w :: ws) = w ++ ws.flatMap (' ' :: ·) := by
  induction ws generalizing w with
  | nil => simp [List.intercalate]
  | cons v ws ih =>
    rw [List.intercalate_cons_cons, ih]
    simp

/-- The words of the statements of a program, each behind a space. -/
theorem flatMap_words (stmts : List Expr) (stop : Bool) :
    (stmts.map text ++ if stop then [Sigil.programEnd.text.toList] else []).flatMap (' ' :: ·) =
      texts stmts ++ ending stop := by
  induction stmts with
  | nil => cases stop <;> simp [texts, ending]
  | cons stmt stmts ih =>
    rw [List.map_cons, List.cons_append, List.flatMap_cons, ih, texts, List.cons_append,
      List.cons_append, List.append_assoc]

/-- Statements behind a start marker are read back. -/
theorem program_start {stmts : List Expr} (h : ∀ stmt ∈ stmts, IsSentence stmt) (stop : Bool)
    {budget : Nat} (hbudget : (texts stmts).length ≤ budget) (pos : Position) :
    ∃ stmts' st, eraseAll stmts' = eraseAll stmts ∧ st.inputCount = inputsAll stmts ∧
      program budget
          ⟨⟨Sigil.programStart.text.toList ++ (texts stmts ++ ending stop), pos⟩, none, 0⟩ =
        .ok (⟨stmts', st.inputCount⟩, st) := by
  obtain ⟨token, hkind, hpeek⟩ := peekToken_sigil gap_nil .programStart (texts stmts ++ ending stop)
    pos none 0
  obtain ⟨token', pos₁, -, htoken⟩ := nextToken_sigil gap_nil .programStart
    (texts stmts ++ ending stop) pos none 0
  obtain ⟨stmts', st, herase, hinputs, hread⟩ := statementsFrom_reads h hbudget hbudget []
    (quiet_ending stop) (isEnd_ending stop) pos₁ none 0
  rw [Nat.zero_max] at hinputs
  exact ⟨stmts', st, herase, hinputs, program_marked hpeek hkind htoken hread⟩

/-- Statements without a start marker are read back: there is no space before the first. -/
theorem program_cons {stmt : Expr} {stmts : List Expr} (hstmt : IsSentence stmt)
    (hstmts : ∀ s ∈ stmts, IsSentence s) (stop : Bool) {budget : Nat}
    (hbudget : stmt.text.length + (texts stmts).length ≤ budget) (pos : Position) :
    ∃ stmts' st, eraseAll stmts' = eraseAll (stmt :: stmts) ∧
      st.inputCount = inputsAll (stmt :: stmts) ∧
      program budget ⟨⟨stmt.text ++ (texts stmts ++ ending stop), pos⟩, none, 0⟩ =
        .ok (⟨stmts', st.inputCount⟩, st) := by
  have hopens := opens_of_isSentence hstmt
  have hquiet : Quiet (texts stmts ++ ending stop) :=
    quiet_texts (fun s hs => opens_of_isSentence (hstmts s hs)) (quiet_ending stop)
  obtain ⟨token, s, hkind, hs, hpeek⟩ := hopens.peekToken gap_nil (texts stmts ++ ending stop) pos
    none 0
  have hbudgetStmt : stmt.text.length ≤ budget := by omega
  have hbudgetStmts : (texts stmts).length ≤ budget := by omega
  obtain ⟨stmt', n, pos₁, pending, herase, hn, hread⟩ :=
    collected_of_isSentence hstmt hbudgetStmt (statementsFrom (expression budget))
      (statementsFrom_collects _) budget [] [] _ pos none 0 gap_nil hquiet hbudgetStmt
  obtain ⟨stmts', st, herase', hinputs, hread'⟩ := statementsFrom_reads (n := n) hstmts hbudgetStmts
    (by omega) [stmt'] (quiet_ending stop) (isEnd_ending stop) pos₁ pending (max 0 stmt.inputs)
  have hstart : token.kind ≠ .sigil .programStart := by
    rw [hkind]
    intro heq
    cases heq
    cases hs
  refine ⟨stmt' :: stmts', st, by rw [eraseAll, eraseAll, herase, herase'], ?_, ?_⟩
  · rw [hinputs, inputsAll, Nat.zero_max]
  · exact program_unmarked hpeek hstart (hread.trans hread')

/-- The text of a program is read back by a reader whose budget is the length of the text. -/
theorem program_reads {p : Program} (h : ∀ stmt ∈ p.statements, IsSentence stmt)
    (start stop : Bool) (pos : Position) :
    ∃ stmts' st, eraseAll stmts' = eraseAll p.statements ∧
      st.inputCount = inputsAll p.statements ∧
      program ([' '].intercalate (p.words start stop)).length
          ⟨⟨[' '].intercalate (p.words start stop), pos⟩, none, 0⟩ =
        .ok (⟨stmts', st.inputCount⟩, st) := by
  unfold Program.words
  cases start with
  | true =>
    rw [if_pos rfl, List.singleton_append, intercalate_space, flatMap_words]
    exact program_start h stop (by simp only [List.length_append]; omega) pos
  | false =>
    rw [if_neg Bool.false_ne_true, List.nil_append]
    cases hstmts : p.statements with
    | nil =>
      cases stop <;> exact ⟨[], _, rfl, rfl, rfl⟩
    | cons stmt stmts =>
      rw [hstmts] at h
      rw [List.map_cons, List.cons_append, intercalate_space, flatMap_words]
      exact program_cons (h stmt List.mem_cons_self)
        (fun s hs => h s (List.mem_cons_of_mem stmt hs)) stop
        (by simp only [List.length_append]; omega) pos

end Smil.Expr.Parser

namespace Smil

open Smil.Expr

/-- Reading undoes rendering: the text of a program of the grammar, with or without markers around
it, is read as a program that has the same statements up to places, and its number of inputs is
one more than the highest index of an input in it. -/
theorem parse_render {p : Program} (h : ∀ stmt ∈ p.statements, IsSentence stmt)
    (start stop : Bool) :
    ∃ q, parse (p.render start stop) = .ok q ∧ eraseAll q.statements = eraseAll p.statements ∧
      q.inputCount = inputsAll p.statements := by
  obtain ⟨stmts, st, herase, hinputs, hread⟩ := Parser.program_reads h start stop Position.start
  refine ⟨⟨stmts, st.inputCount⟩, ?_, herase, hinputs⟩
  have hcursor : Cursor.ofString (p.render start stop) =
      ⟨[' '].intercalate (p.words start stop), Position.start⟩ := by
    rw [Cursor.ofString, Program.render, String.toList_ofList]
  rw [parse, hcursor]
  change Except.map Prod.fst (Parser.program _ _) = _
  rw [hread]
  rfl

/-- A program that assigns to a nested name and repeats while an assignment is positive. -/
def nestedNames : Program :=
  let x : Expr := .var "x" false .nowhere
  let y : Expr := .var "y :" true .nowhere
  ⟨[.assign (.namedVar (.binary x .add (.lengthOf (.pop y .nowhere) .nowhere) .nowhere) .nowhere)
      (.binary (.input 1 .nowhere) .multiply (.binary y .and x .nowhere) .nowhere) .nowhere,
    .loop (.assign y (.lengthOf x .nowhere) .nowhere) [.print [x, .input 0 .nowhere] .nowhere]
      [.exit 0 .nowhere] .nowhere], 2⟩

/-- The program is in the grammar, and its text is read back. -/
theorem parse_nestedNames : (∀ stmt ∈ nestedNames.statements, IsSentence stmt) ∧
    nestedNames.render true false =
      "<3 :( :(x:) :+ :L :v ;(y ::) :) := :$:$ :* ;(y ::) && :(x:) " ++
        "8) ;(y ::) := :L :(x:) 8| :P :(x:) :$ :D 8( :X 8D" ∧
    ∃ q, parse (nestedNames.render true false) = .ok q ∧
      eraseAll q.statements = eraseAll nestedNames.statements ∧ q.inputCount = 2 := by
  have hx : IsTerm .chained (.var "x" false .nowhere) :=
    .var false .nowhere ⟨by decide +kernel, by decide +kernel, by decide +kernel⟩
  have hy : IsTerm .chained (.var "y :" true .nowhere) :=
    .var true .nowhere ⟨by decide +kernel, by decide +kernel, by decide +kernel⟩
  have hname : IsTerm .chained _ := .binary .add .nowhere hx
    (.lengthOf .nowhere (.pop .nowhere hy rfl)) rfl (by decide) (by decide)
  have hsource : IsTerm .chained _ := .binary .multiply .nowhere (.input 1 .nowhere)
    (.binary .and .nowhere hy hx rfl (by decide) (by decide)) rfl (by decide) (by decide)
  have hgrammar : ∀ stmt ∈ nestedNames.statements, IsSentence stmt := by
    intro stmt hstmt
    rcases List.mem_cons.mp hstmt with rfl | hrest
    · exact .assign (.intro .nowhere (.namedVar .nowhere hname rfl) rfl (.chain hsource))
    · rw [List.mem_singleton.mp hrest]
      have hlength : IsTerm .chained _ := .lengthOf .nowhere (.chain hx)
      refine .loop .nowhere (Or.inr (.intro .nowhere hy rfl (.chain hlength)))
        (fun s hs => ?_) (fun s hs => ?_)
      · rw [List.mem_singleton.mp hs]
        refine .print .nowhere fun arg harg => ?_
        rcases List.mem_cons.mp harg with rfl | hlast
        · exact .chain hx
        · rw [List.mem_singleton.mp hlast]
          exact .chain (.input 0 .nowhere)
      · rw [List.mem_singleton.mp hs]
        exact .exit .nowhere
  exact ⟨hgrammar, by decide +kernel, parse_render hgrammar true false⟩

end Smil
