import Smil.Proofs.Consumption
import Smil.Proofs.Terms

/-!
# The tree of an operator chain

A row of operands and operators has exactly one tree that reads the same from left to right and in
which an operator binds no more tightly than the chain on its left and less tightly than the chain
on its right. The reader builds that tree. The step is what one more operator and operand do to a
chain that is still open: they are put behind the other words and the tree stays in order. There is
no other tree, since the words of any tree in order, pushed one after another, leave its right edge
waiting.
-/

namespace Smil.Expr

/-! ### Rows and their trees -/

/-- An operator of a chain with its place and the operand behind it. -/
@[ext] structure Link where
  op : Operator
  span : Span
  operand : Expr
deriving Repr, Inhabited

/-- The words of a link. -/
def Link.items (l : Link) : List Item :=
  [.operator l.op l.span, .operand l.operand]

/-- The words of a chain as they are read. -/
def row (first : Expr) (links : List Link) : List Item :=
  .operand first :: links.flatMap Link.items

/-- The operands and operators of a chain's tree from left to right. -/
def inOrder : Expr → List Item
  | binary left op right span => left.inOrder ++ .operator op span :: right.inOrder
  | e => [.operand e]

/-- Every operator of a chain's tree binds no more tightly than its left side and less tightly than
its right side. -/
def Ordered : Expr → Prop
  | binary left op right _ =>
    op.precedence.rank ≤ left.tightness ∧ op.precedence.rank < right.tightness ∧
      left.Ordered ∧ right.Ordered
  | _ => True

/-- A tree has the words of a row in their order, and its operators are in order. -/
structure IsTreeOf (first : Expr) (links : List Link) (tree : Expr) : Prop where
  inOrder_eq : tree.inOrder = row first links
  ordered : tree.Ordered

namespace IsOperand

variable {e : Expr}

/-- An operand binds tighter than any operator. -/
theorem rank_lt (h : IsOperand e) (op : Operator) : op.precedence.rank < e.tightness := by
  rw [h]
  cases op <;> decide

/-- An operand is its own row. -/
theorem inOrder_eq (h : IsOperand e) : e.inOrder = [.operand e] := by
  cases e with
  | binary left op right span => cases op <;> cases h
  | _ => simp only [inOrder]

/-- An operand has no operators that could be out of order. -/
theorem ordered (h : IsOperand e) : e.Ordered := by
  cases e with
  | binary left op right span => cases op <;> cases h
  | _ => simp only [Ordered]

end IsOperand

/-! ### One more operator -/

/-- The tree of a chain is in order only if its last operand is. -/
theorem ordered_of_close {ws : List Waiting} {e : Expr} (h : (Chain.close ⟨ws, e⟩).Ordered) :
    e.Ordered := by
  induction ws generalizing e with
  | nil => exact h
  | cons w ws ih =>
    obtain ⟨-, -, -, hright⟩ : (w.close e).Ordered := ih h
    exact hright

/-- In an open chain another operand may stand in the last place, if it binds more tightly than the
operator in front of it. -/
theorem ordered_close_replace {ws : List Waiting} {e e' : Expr}
    (h : (Chain.close ⟨ws, e⟩).Ordered) (he' : e'.Ordered)
    (hhead : ∀ w ∈ ws.head?, w.op.precedence.rank < e'.tightness) :
    (Chain.close ⟨ws, e'⟩).Ordered := by
  induction ws generalizing e e' with
  | nil => exact he'
  | cons w ws ih =>
    obtain ⟨hlooser, -, hleft, -⟩ : (w.close e).Ordered := ordered_of_close h
    refine ih h ⟨hlooser, hhead w rfl, hleft, he'⟩ fun w' hw' => ?_
    obtain ⟨ws', rfl⟩ := List.head?_eq_some_iff.mp hw'
    obtain ⟨-, htighter, -, -⟩ : (w'.close (w.close e)).Ordered := ordered_of_close h
    exact htighter

/-- The words of an open chain end with those of its last operand. -/
theorem exists_inOrder_close (ws : List Waiting) :
    ∃ front, ∀ e, (Chain.close ⟨ws, e⟩).inOrder = front ++ e.inOrder := by
  induction ws with
  | nil => exact ⟨[], fun e => rfl⟩
  | cons w ws ih =>
    obtain ⟨front, hfront⟩ := ih
    refine ⟨front ++ (w.left.inOrder ++ [.operator w.op w.span]), fun e => ?_⟩
    change (Chain.close ⟨ws, w.close e⟩).inOrder = _
    rw [hfront, Waiting.close, inOrder, List.append_assoc, List.append_assoc]
    rfl

/-- What an operator finds when it comes in: the chain is closed as far as it binds no less tightly,
and all that still waits binds less tightly. -/
theorem reduce_finds {op : Operator} (ws : List Waiting) {e : Expr}
    (he : op.precedence.rank ≤ e.tightness) :
    Chain.close ⟨(Chain.reduce op ws e).1, (Chain.reduce op ws e).2⟩ = Chain.close ⟨ws, e⟩ ∧
      op.precedence.rank ≤ (Chain.reduce op ws e).2.tightness ∧
      ∀ w ∈ (Chain.reduce op ws e).1.head?, w.op.precedence.rank < op.precedence.rank := by
  induction ws generalizing e with
  | nil => exact ⟨rfl, he, fun w hw => by cases hw⟩
  | cons w ws ih =>
    rw [Chain.reduce]
    by_cases hbinds : w.op.bindsBefore op = true
    · rw [if_pos hbinds]
      exact ih (e := w.close e) (of_decide_eq_true hbinds)
    · rw [if_neg hbinds]
      refine ⟨rfl, he, fun w' hw' => ?_⟩
      obtain rfl : w = w' := Option.some.inj hw'
      simpa only [Operator.bindsBefore, decide_eq_true_eq, Nat.not_le] using hbinds

/-- An operator and an operand are put behind the words of a chain, and the chain stays in order. -/
theorem isTreeOf_push {chain : Chain} {first : Expr} {links : List Link}
    (h : IsTreeOf first links chain.close) (hlast : IsOperand chain.last) {l : Link}
    (hoperand : IsOperand l.operand) :
    IsTreeOf first (links ++ [l]) (chain.push l.op l.span l.operand).close := by
  obtain ⟨hclose, hlooser, hhead⟩ :=
    reduce_finds chain.waiting (Nat.le_of_lt (hlast.rank_lt l.op))
  rw [← hclose] at h
  generalize hreduce : Chain.reduce l.op chain.waiting chain.last = reduced at *
  have hpush : (chain.push l.op l.span l.operand).close =
      Chain.close ⟨reduced.1, .binary reduced.2 l.op l.operand l.span⟩ := by
    unfold Chain.push
    rw [hreduce]
    rfl
  refine ⟨?_, ?_⟩
  · obtain ⟨front, hfront⟩ := exists_inOrder_close reduced.1
    have hwords := h.inOrder_eq
    rw [hfront] at hwords
    rw [hpush, hfront, inOrder, hoperand.inOrder_eq, ← List.append_assoc, hwords]
    simp [row, Link.items]
  · rw [hpush]
    exact ordered_close_replace h.ordered
      ⟨hlooser, hoperand.rank_lt l.op, ordered_of_close h.ordered, hoperand.ordered⟩ hhead

/-! ### Whole rows -/

/-- The chain that results when links are put behind a chain. -/
def Chain.extend (chain : Chain) (links : List Link) : Chain :=
  links.foldl (fun chain l => chain.push l.op l.span l.operand) chain

/-- A chain that goes on becomes the tree of all its links. -/
theorem isTreeOf_extend {chain : Chain} {first : Expr} {front links : List Link}
    (h : IsTreeOf first front chain.close) (hlast : IsOperand chain.last)
    (hlinks : ∀ l ∈ links, IsOperand l.operand) :
    IsTreeOf first (front ++ links) (chain.extend links).close := by
  induction links generalizing chain front with
  | nil => rwa [List.append_nil]
  | cons l links ih =>
    obtain ⟨hl, hlinks⟩ := List.forall_mem_cons.mp hlinks
    have hnext := ih (isTreeOf_push h hlast hl) hl hlinks
    rwa [List.append_assoc] at hnext

/-- The links of a tree from left to right. -/
def links : Expr → List Link
  | binary left op right span => left.links ++ ⟨op, span, right.firstOperand⟩ :: right.links
  | _ => []

/-- Read from left to right, a tree is its first operand and its links. -/
theorem inOrder_eq_row (e : Expr) : e.inOrder = row e.firstOperand e.links := by
  fun_induction inOrder e with
  | case1 left op right span ihLeft ihRight =>
    rw [ihLeft, ihRight]
    simp [row, links, firstOperand, Link.items]
  | case2 e hne =>
    cases e with
    | binary left op right span => exact absurd rfl (hne left op right span)
    | _ => rfl

/-- Operands and operators take turns, so a row is of one first operand and one list of links
only. -/
theorem row_injective {first first' : Expr} {ls ls' : List Link}
    (h : row first ls = row first' ls') : first = first' ∧ ls = ls' := by
  obtain ⟨hfirst, hitems⟩ := List.cons.inj h
  refine ⟨Item.operand.inj hfirst, ?_⟩
  clear h
  induction ls generalizing ls' with
  | nil =>
    cases ls' with
    | nil => rfl
    | cons l ls' => cases hitems
  | cons l ls ih =>
    cases ls' with
    | nil => cases hitems
    | cons l' ls' =>
      simp only [List.flatMap_cons, Link.items, List.cons_append, List.nil_append,
        List.cons.injEq, Item.operator.injEq, Item.operand.injEq] at hitems
      obtain ⟨⟨hop, hspan⟩, hoperand, hrest⟩ := hitems
      rw [ih hrest, Link.ext hop hspan hoperand]

/-- In a tree in order the operators along the right edge bind tighter and tighter. -/
theorem Ordered.rising {e : Expr} (h : e.Ordered) : e.Rising := by
  fun_induction Rising e with
  | case1 left op right span ih => exact ⟨h.2.1, ih h.2.2.2⟩
  | case2 => trivial

/-- The words of a tree in order, put one after another behind operators that bind less tightly,
leave the right edge of the tree waiting. -/
theorem extend_links {e : Expr} (h : e.Ordered) {ws : List Waiting}
    (hws : ∀ w ∈ ws.head?, w.op.precedence.rank < e.tightness) :
    Chain.extend ⟨ws, e.firstOperand⟩ e.links = ⟨e.spine ++ ws, e.lastOperand⟩ := by
  fun_induction links e generalizing ws with
  | case1 left op right span ihLeft ihRight =>
    obtain ⟨hlooser, htighter, hleft, hright⟩ := h
    have hwsLeft : ∀ w ∈ ws.head?, w.op.precedence.rank < left.tightness :=
      fun w hw => Nat.lt_of_lt_of_le (hws w hw) hlooser
    have hwsRight : ∀ w ∈ (⟨left, op, span⟩ :: ws : List Waiting).head?,
        w.op.precedence.rank < right.tightness := by
      intro w hw
      cases hw
      exact htighter
    have hleftRead := ihLeft hleft hwsLeft
    have hrightRead := ihRight hright hwsRight
    unfold Chain.extend at hleftRead hrightRead ⊢
    rw [List.foldl_append, firstOperand, hleftRead, List.foldl_cons,
      push_spine hleft.rising hlooser hws, hrightRead, spine, lastOperand, List.append_assoc]
    rfl
  | case2 e hne =>
    cases e with
    | binary left op right span => exact absurd rfl (hne left op right span)
    | _ => rfl

/-- A row has at most one tree: the one that its words close to. -/
theorem IsTreeOf.eq_close {first tree : Expr} {ls : List Link} (h : IsTreeOf first ls tree) :
    tree = ((Chain.single first).extend ls).close := by
  have hrow := h.inOrder_eq
  rw [inOrder_eq_row] at hrow
  obtain ⟨rfl, rfl⟩ := row_injective hrow
  have hread : Chain.extend ⟨[], tree.firstOperand⟩ tree.links =
      ⟨tree.spine ++ [], tree.lastOperand⟩ := extend_links h.ordered fun w hw => by cases hw
  rw [Chain.single, hread, close_spine]
  rfl

/-- A row of operands has a tree. -/
theorem isTreeOf_close {first : Expr} {ls : List Link} (hfirst : IsOperand first)
    (hlinks : ∀ l ∈ ls, IsOperand l.operand) :
    IsTreeOf first ls ((Chain.single first).extend ls).close :=
  have hsingle : IsTreeOf first [] (Chain.single first).close :=
    ⟨hfirst.inOrder_eq, hfirst.ordered⟩
  isTreeOf_extend hsingle hfirst hlinks

/-! ### Reading a row -/

namespace Parser

variable {sub : Reader Expr}

/-- From the first state the links are read one after another, each an operator and an operand, up
to the second state. -/
inductive Follows (sub : Reader Expr) : Reading → List Link → Reading → Prop
  | nil (s : Reading) : Follows sub s [] s
  | cons {s s₁ s₂ s₃ : Reading} {token : Token} {op : Operator} {e : Expr} {ls : List Link}
      (htoken : nextToken s = .ok (token, s₁)) (hop : token.kind.operator? = some op)
      (hoperand : operand sub s₁ = .ok (e, s₂)) (hrest : Follows sub s₂ ls s₃) :
      Follows sub s (⟨op, token.span, e⟩ :: ls) s₃

/-- No operator comes next. -/
def Ends (s : Reading) : Prop :=
  s.cursor.peek.kind.operator? = none

/-- What is read behind operators are operands. -/
theorem Follows.isOperand {s s' : Reading} {ls : List Link} (hsub : Consumes 2 sub fun _ => True)
    (h : Follows sub s ls s') : ∀ l ∈ ls, IsOperand l.operand := by
  induction h with
  | nil => exact List.forall_mem_nil _
  | cons htoken hop hoperand hrest ih =>
    exact List.forall_mem_cons.mpr ⟨(consumes_operand hsub _ _ _ hoperand).1, ih⟩

/-- Looking for an operator looks at the token ahead and changes nothing. -/
theorem peekOperator_eq (s : Reading) : peekOperator s =
    .ok (s.cursor.peek.kind.operator?.map fun op => (op, s.cursor.peek.span), s) :=
  rfl

/-- At the end of a row no operator is ahead. -/
theorem Ends.peekOperator_eq {s : Reading} (h : Ends s) : peekOperator s = .ok (none, s) := by
  rw [Parser.peekOperator_eq, h]
  rfl

/-- An operator that is read next is the one that is looked at. -/
theorem peekOperator_of_nextToken {s s₁ : Reading} {token : Token} {op : Operator}
    (htoken : nextToken s = .ok (token, s₁)) (hop : token.kind.operator? = some op) :
    peekOperator s = .ok (some (op, token.span), s) := by
  obtain rfl : s.cursor.peek = token := by
    cases htoken
    rfl
  rw [peekOperator_eq, hop]
  rfl

/-- At the end of the input no operator comes next. -/
theorem ends_of_length_eq_zero {s : Reading} (h : s.cursor.rest.length = 0) : Ends s := by
  obtain ⟨⟨rest, position⟩, pending, count⟩ := s
  obtain rfl : rest = [] := List.length_eq_zero_iff.mp h
  rfl

/-- Where no operator comes next, a chain is closed. -/
theorem chainFrom_of_ends {s : Reading} (h : Ends s) (budget : Nat) (chain : Chain) :
    chainFrom sub budget chain s = .ok (chain.close, s) := by
  cases budget with
  | zero => rfl
  | succ budget =>
    rw [chainFrom, run_bind_of_ok h.peekOperator_eq]
    rfl

/-- An operator and an operand are put behind the chain, and reading goes on. -/
theorem chainFrom_of_operand {s s₁ s₂ : Reading} {token : Token} {op : Operator} {e : Expr}
    (htoken : nextToken s = .ok (token, s₁)) (hop : token.kind.operator? = some op)
    (hoperand : operand sub s₁ = .ok (e, s₂)) (budget : Nat) (chain : Chain) :
    chainFrom sub (budget + 1) chain s = chainFrom sub budget (chain.push op token.span e) s₂ := by
  rw [chainFrom, run_bind_of_ok (peekOperator_of_nextToken htoken hop)]
  dsimp only
  rw [run_bind_of_ok (run_discard_of_ok htoken), run_bind_of_ok hoperand]

/-- An operator and an operand take characters, so a budget for all of them is enough for the
rest. -/
theorem length_lt_of_link (hsub : Consumes 2 sub fun _ => True) {s s₁ s₂ : Reading} {token : Token}
    {op : Operator} {e : Expr} (htoken : nextToken s = .ok (token, s₁))
    (hop : token.kind.operator? = some op) (hoperand : operand sub s₁ = .ok (e, s₂)) :
    s₂.cursor.rest.length < s.cursor.rest.length := by
  have hkind : token.kind ≠ .endOfInput := by
    intro hend
    rw [hend] at hop
    cases hop
  have htwo := two_le_of_nextToken htoken hkind
  have hle := (consumes_operand hsub s₁ e s₂ hoperand).2
  omega

/-- A row that is followed to its end is read as its chain, closed. -/
theorem Follows.chainFrom_eq (hsub : Consumes 2 sub fun _ => True) {s s' : Reading}
    {ls : List Link} (h : Follows sub s ls s') (hends : Ends s') {budget : Nat}
    (hbudget : s.cursor.rest.length ≤ budget) (chain : Chain) :
    chainFrom sub budget chain s = .ok ((chain.extend ls).close, s') := by
  induction h generalizing budget chain with
  | nil s => exact chainFrom_of_ends hends budget chain
  | cons htoken hop hoperand hrest ih =>
    have hlt := length_lt_of_link hsub htoken hop hoperand
    obtain ⟨budget, rfl⟩ : ∃ b, budget = b + 1 := ⟨budget - 1, by omega⟩
    rw [chainFrom_of_operand htoken hop hoperand]
    exact ih hends (by omega) _

/-- From the first state links are read up to an operator whose operand fails. -/
def FailsAt (sub : Reader Expr) (s : Reading) (error : Error) : Prop :=
  ∃ ls s₁ token s₂, Follows sub s ls s₁ ∧ nextToken s₁ = .ok (token, s₂) ∧
    token.kind.operator?.isSome = true ∧ operand sub s₂ = .error error

/-- A row whose operand fails fails with the operand's error. -/
theorem FailsAt.chainFrom_eq (hsub : Consumes 2 sub fun _ => True) {s : Reading} {error : Error}
    (h : FailsAt sub s error) {budget : Nat} (hbudget : s.cursor.rest.length ≤ budget)
    (chain : Chain) : chainFrom sub budget chain s = .error error := by
  obtain ⟨ls, s₁, token, s₂, hfollows, htoken, hop, hoperand⟩ := h
  induction hfollows generalizing budget chain with
  | nil s =>
    obtain ⟨op, hop⟩ := Option.isSome_iff_exists.mp hop
    have hpeek := peekOperator_of_nextToken htoken hop
    cases budget with
    | zero =>
      have hends := ends_of_length_eq_zero (Nat.le_zero.mp hbudget)
      cases hpeek.symm.trans hends.peekOperator_eq
    | succ budget =>
      rw [chainFrom, run_bind_of_ok hpeek]
      dsimp only
      rw [run_bind_of_ok (run_discard_of_ok htoken), run_bind_of_error hoperand]
  | cons htoken' hop' hoperand' hrest ih =>
    have hlt := length_lt_of_link hsub htoken' hop' hoperand'
    obtain ⟨budget, rfl⟩ : ∃ b, budget = b + 1 := ⟨budget - 1, by omega⟩
    rw [chainFrom_of_operand htoken' hop' hoperand']
    exact ih (by omega) _ htoken

/-- A row is followed to its end or to an operator whose operand fails. -/
theorem follows_or_failsAt (hsub : Consumes 2 sub fun _ => True) (s : Reading) :
    (∃ ls s', Follows sub s ls s' ∧ Ends s') ∨ ∃ error, FailsAt sub s error := by
  generalize hlength : s.cursor.rest.length = n
  induction n using Nat.strongRecOn generalizing s with
  | ind n ih =>
    cases hop : s.cursor.peek.kind.operator? with
    | none => exact Or.inl ⟨[], s, .nil s, hop⟩
    | some op =>
      have htoken : nextToken s = .ok (s.cursor.peek, { s with cursor := s.cursor.token.2 }) := rfl
      cases hoperand : operand sub { s with cursor := s.cursor.token.2 } with
      | error error =>
        exact Or.inr ⟨error, [], s, _, _, .nil s, htoken, by rw [hop]; rfl, hoperand⟩
      | ok r =>
        obtain ⟨e, s₂⟩ := r
        have hlt := length_lt_of_link hsub htoken hop hoperand
        rcases ih _ (hlength ▸ hlt) s₂ rfl with ⟨ls, s', hfollows, hends⟩ | ⟨error, hfails⟩
        · exact Or.inl ⟨_, s', .cons htoken hop hoperand hfollows, hends⟩
        · obtain ⟨ls, s₁, token, s₃, hfollows, hrest⟩ := hfails
          exact Or.inr ⟨error, _, s₁, token, s₃, .cons htoken hop hoperand hfollows, hrest⟩

/-- What reading a chain comes to. -/
theorem chainFrom_cases (hsub : Consumes 2 sub fun _ => True) {s : Reading} {budget : Nat}
    (hbudget : s.cursor.rest.length ≤ budget) (chain : Chain) :
    (∃ ls s', Follows sub s ls s' ∧ Ends s' ∧
      chainFrom sub budget chain s = .ok ((chain.extend ls).close, s')) ∨
    ∃ error, FailsAt sub s error ∧ chainFrom sub budget chain s = .error error := by
  rcases follows_or_failsAt hsub s with ⟨ls, s', hfollows, hends⟩ | ⟨error, hfails⟩
  · exact Or.inl ⟨ls, s', hfollows, hends, hfollows.chainFrom_eq hsub hends hbudget chain⟩
  · exact Or.inr ⟨error, hfails, hfails.chainFrom_eq hsub hbudget chain⟩

/-- Behind a first operand that yields a value an expression is a chain. -/
theorem chained_eq_chainFrom {s s₀ s₁ : Reading} {token : Token} {first : Expr} {budget : Nat}
    (htoken : nextToken s = .ok (token, s₀))
    (hfirst : construct sub budget token s₀ = .ok (first, s₁))
    (hvalue : first.yieldsValue = true) :
    chained sub budget s = chainFrom sub budget (.single first) s₁ := by
  have hexpect : expectValue first s₁ = .ok (first, s₁) := by
    rw [expectValue, if_pos hvalue]
    rfl
  rw [chained_eq, run_bind_of_ok htoken, behindToken, run_bind_of_ok hfirst]
  cases hop : s₁.cursor.peek.kind.operator? with
  | none =>
    rw [run_bind_of_ok (Ends.peekOperator_eq hop), chainFrom_of_ends hop]
    rfl
  | some op =>
    rw [run_bind_of_ok (peekOperator_of_nextToken rfl hop)]
    dsimp only
    rw [run_bind_of_ok hexpect]

/-- A construct does not start at the end of the input. -/
theorem kind_ne_endOfInput_of_construct {s s₁ : Reading} {token : Token} {e : Expr} {budget : Nat}
    (h : construct sub budget token s = .ok (e, s₁)) : token.kind ≠ .endOfInput := by
  intro hkind
  unfold construct at h
  rw [hkind] at h
  cases h

/-- The tree of an operator chain. Where a first operand has been read and the links behind it are
followed up to something that is no operator, the expression is the one tree of that row. An
expression that is read is read in this way, and one that fails fails in an operand. The budget
covers the unread characters, as it does from the start of a program on. -/
theorem expression_reads_tree {n : Nat} {s s₀ s₁ : Reading} {token : Token} {first : Expr}
    (hbudget : s.cursor.rest.length ≤ n + 1) (htoken : nextToken s = .ok (token, s₀))
    (hfirst : construct (expression n) n token s₀ = .ok (first, s₁))
    (hvalue : first.yieldsValue = true) :
    (∀ ls s₂, Follows (expression n) s₁ ls s₂ → Ends s₂ →
      ∃ tree, expression (n + 1) s = .ok (tree, s₂) ∧ IsTreeOf first ls tree ∧
        ∀ other, IsTreeOf first ls other → other = tree) ∧
    (∀ tree s₂, expression (n + 1) s = .ok (tree, s₂) →
      ∃ ls, Follows (expression n) s₁ ls s₂ ∧ Ends s₂) ∧
    ∀ error, expression (n + 1) s = .error error → FailsAt (expression n) s₁ error := by
  have hsub := consumes_expression n
  have hread : expression (n + 1) s = chainFrom (expression n) n (.single first) s₁ :=
    chained_eq_chainFrom htoken hfirst hvalue
  obtain ⟨hoperand, hle⟩ := consumes_construct hsub n token s₀ first s₁ hfirst
  have htwo := two_le_of_nextToken htoken (kind_ne_endOfInput_of_construct hfirst)
  have hrest : s₁.cursor.rest.length ≤ n := by omega
  refine ⟨fun ls s₂ hfollows hends => ?_, fun tree s₂ hok => ?_, fun error herror => ?_⟩
  · exact ⟨_, hread.trans (hfollows.chainFrom_eq hsub hends hrest _),
      isTreeOf_close hoperand (hfollows.isOperand hsub), fun other hother => hother.eq_close⟩
  · rcases chainFrom_cases hsub hrest (.single first) with
      ⟨ls, s', hfollows, hends, hchain⟩ | ⟨error, -, hchain⟩
    · cases hok.symm.trans (hread.trans hchain)
      exact ⟨ls, hfollows, hends⟩
    · cases hok.symm.trans (hread.trans hchain)
  · rcases chainFrom_cases hsub hrest (.single first) with
      ⟨ls, s', -, -, hchain⟩ | ⟨error', hfails, hchain⟩
    · cases herror.symm.trans (hread.trans hchain)
    · cases herror.symm.trans (hread.trans hchain)
      exact hfails

/-- A row of nine words with operators of three precedences, of which the first and the last are
equal. -/
theorem expression_reads_tree_mixed :
    ∃ first ls tree s₂, expression 42
        ⟨.ofString ":(a:) :- :(b:) :* :(c:) && :(d:) :- :(e:)", none, 0⟩ = .ok (tree, s₂) ∧
      tree.inOrder.length = 9 ∧ IsTreeOf first ls tree ∧
      ∀ other, IsTreeOf first ls other → other = tree := by
  generalize hs : (⟨.ofString ":(a:) :- :(b:) :* :(c:) && :(d:) :- :(e:)", none, 0⟩ : Reading) = s
  have hbudget : s.cursor.rest.length ≤ 42 := by
    rw [← hs]
    decide +kernel
  have hstart : ((construct (expression 41) 41 s.cursor.token.1
      { s with cursor := s.cursor.token.2 }).toOption.any fun r => r.1.yieldsValue) = true := by
    rw [← hs]
    decide +kernel
  have hwhole : ((expression 42 s).toOption.any fun r => r.1.inOrder.length == 9) = true := by
    rw [← hs]
    decide +kernel
  cases hfirst : construct (expression 41) 41 s.cursor.token.1
      { s with cursor := s.cursor.token.2 } with
  | error error =>
    rw [hfirst] at hstart
    cases hstart
  | ok r =>
    rw [hfirst] at hstart
    cases hread : expression 42 s with
    | error error =>
      rw [hread] at hwhole
      cases hwhole
    | ok t =>
      obtain ⟨tree, s₂⟩ := t
      rw [hread] at hwhole
      obtain ⟨htree, hfollowed, -⟩ := expression_reads_tree hbudget rfl hfirst hstart
      obtain ⟨ls, hfollows, hends⟩ := hfollowed tree s₂ hread
      obtain ⟨tree', hread', hisTree, hunique⟩ := htree ls s₂ hfollows hends
      cases hread.symm.trans hread'
      exact ⟨r.1, ls, tree, s₂, rfl, of_decide_eq_true hwhole, hisTree, hunique⟩

end Parser

end Smil.Expr
