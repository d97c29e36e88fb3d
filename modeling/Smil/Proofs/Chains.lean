import Smil.Expr.Parser
import Smil.Proofs.Sequencing

/-!
# Operator chains in one pass

A chain can also be kept as a tree in the making: the operators still waiting for their right side,
each with its left side, and the operand read last. An operator that comes in first closes every
waiting operator that binds at least as tightly. This is what the two passes over a row of words
compute: the output queue, as far as it is filled, builds the last operand and the left sides of the
waiting operators. So the second pass finds two trees for every operator and one in the end, and the
reader of chains never fails by itself.
-/

namespace Smil.Expr

/-- An operator with its left side, waiting for its right side. -/
structure Waiting where
  left : Expr
  op : Operator
  span : Span
deriving Repr, Inhabited

/-- Gives a waiting operator its right side. -/
def Waiting.close (w : Waiting) (right : Expr) : Expr :=
  .binary w.left w.op right w.span

/-- A chain read so far: the waiting operators, innermost first, and the last operand. -/
structure Chain where
  waiting : List Waiting
  last : Expr
deriving Repr, Inhabited

namespace Chain

/-- Closes the waiting operators that bind before `op` and returns the others with the operand
that results. -/
def reduce (op : Operator) : List Waiting → Expr → List Waiting × Expr
  | [], last => ([], last)
  | w :: ws, last => if w.op.bindsBefore op then reduce op ws (w.close last) else (w :: ws, last)

/-- A chain of one operand. -/
def single (e : Expr) : Chain :=
  ⟨[], e⟩

/-- Adds an operator and the operand after it. -/
def push (chain : Chain) (op : Operator) (span : Span) (operand : Expr) : Chain :=
  let (waiting, left) := reduce op chain.waiting chain.last
  ⟨⟨left, op, span⟩ :: waiting, operand⟩

/-- Closes every waiting operator. -/
def close (chain : Chain) : Expr :=
  chain.waiting.foldl (fun right w => w.close right) chain.last

/-- The left sides of the waiting operators and the last operand have a property, and so have the
waiting operators with their places. -/
def All (P : Expr → Prop) (O : Operator → Span → Prop) (chain : Chain) : Prop :=
  (∀ w ∈ chain.waiting, P w.left ∧ O w.op w.span) ∧ P chain.last

/-- What is known of the operands may be weakened. -/
theorem All.imp {P Q : Expr → Prop} {O : Operator → Span → Prop} {chain : Chain}
    (h : chain.All P O) (hPQ : ∀ e, P e → Q e) : chain.All Q O :=
  ⟨fun w hw => ⟨hPQ w.left (h.1 w hw).1, (h.1 w hw).2⟩, hPQ chain.last h.2⟩

section Closing

variable {P : Expr → Prop} {O : Operator → Span → Prop}
  (hbinary : ∀ {left op right span}, P left → O op span → P right → P (.binary left op right span))

include hbinary

/-- Closing the operators that bind before another keeps what is known of the chain. -/
theorem All.reduce (op : Operator) {ws : List Waiting} {last : Expr} (h : All P O ⟨ws, last⟩) :
    All P O ⟨(Chain.reduce op ws last).1, (Chain.reduce op ws last).2⟩ := by
  induction ws generalizing last with
  | nil => exact h
  | cons w ws ih =>
    obtain ⟨hw, hws⟩ := List.forall_mem_cons.mp h.1
    by_cases hbinds : w.op.bindsBefore op
    · simp only [Chain.reduce, if_pos hbinds]
      exact ih ⟨hws, hbinary hw.1 hw.2 h.2⟩
    · simpa only [Chain.reduce, if_neg hbinds] using h

/-- An operator and an operand that have the properties may be added. -/
theorem All.push {chain : Chain} {op : Operator} {span : Span} {e : Expr} (h : chain.All P O)
    (hop : O op span) (he : P e) : (chain.push op span e).All P O := by
  obtain ⟨hwaiting, hleft⟩ := All.reduce hbinary op h
  exact ⟨List.forall_mem_cons.mpr ⟨⟨hleft, hop⟩, hwaiting⟩, he⟩

/-- A property that operators hand on from their sides holds of the whole chain. -/
theorem All.close {chain : Chain} (h : chain.All P O) : P chain.close := by
  obtain ⟨ws, last⟩ := chain
  induction ws generalizing last with
  | nil => exact h.2
  | cons w ws ih =>
    obtain ⟨hw, hws⟩ := List.forall_mem_cons.mp h.1
    exact ih _ ⟨hws, hbinary hw.1 hw.2 h.2⟩

end Closing

end Chain

/-! ### Two passes and one -/

namespace Yard

/-- The second pass over words in two parts. -/
theorem build_append {front : List Item} {trees trees' : List Expr}
    (h : build front trees = .ok trees') (items : List Item) :
    build (front ++ items) trees = build items trees' := by
  fun_induction build front trees with
  | case1 trees =>
    cases h
    rfl
  | case2 trees e front ih => exact ih h
  | case3 op span front right left trees ih => exact ih h
  | case4 => cases h

/-- What a queue and the operators beside it stand for: the operators are those of the chain, and
the queue builds the last operand and the left sides of the operators. -/
structure Represents (yard : Yard) (chain : Chain) : Prop where
  waiting_eq : yard.waiting = chain.waiting.map fun w => (w.op, w.span)
  build_queue : build yard.queue.reverse [] = .ok (chain.last :: chain.waiting.map Waiting.left)

variable {yard : Yard} {chain : Chain} {queue : List Item} {waiting : List (Operator × Span)}

/-- An operand alone stands for itself. -/
theorem represents_single (e : Expr) : Represents (single e) (Chain.single e) :=
  ⟨rfl, rfl⟩

/-- An operator that moves to the queue is closed. -/
theorem Represents.close {w : Waiting} {ws : List Waiting} {last : Expr}
    (h : Represents ⟨queue, (w.op, w.span) :: waiting⟩ ⟨w :: ws, last⟩) :
    Represents ⟨.operator w.op w.span :: queue, waiting⟩ ⟨ws, w.close last⟩ := by
  refine ⟨(List.cons.inj h.waiting_eq).2, ?_⟩
  rw [List.reverse_cons, build_append h.build_queue]
  rfl

/-- Releasing operators from the yard is reducing the chain by them. -/
theorem Represents.release (op : Operator) {ws : List Waiting} {last : Expr}
    (h : Represents ⟨queue, waiting⟩ ⟨ws, last⟩) :
    Represents (release op queue waiting)
      ⟨(Chain.reduce op ws last).1, (Chain.reduce op ws last).2⟩ := by
  induction ws generalizing queue waiting last with
  | nil =>
    obtain rfl : waiting = [] := h.waiting_eq
    exact h
  | cons w ws ih =>
    obtain rfl : waiting = (w.op, w.span) :: ws.map fun w => (w.op, w.span) := h.waiting_eq
    by_cases hbinds : w.op.bindsBefore op
    · simp only [Yard.release, Chain.reduce, if_pos hbinds]
      exact ih h.close
    · simpa only [Yard.release, Chain.reduce, if_neg hbinds] using h

/-- One more operator and operand, in the yard and in the chain. -/
theorem Represents.push (h : Represents yard chain) (op : Operator) (span : Span)
    (operand : Expr) : Represents (yard.push op span operand) (chain.push op span operand) := by
  have hreleased := h.release op
  refine ⟨?_, ?_⟩
  · change (op, span) :: (Yard.release op yard.queue yard.waiting).waiting = _
    rw [hreleased.waiting_eq]
    rfl
  · change build (Item.operand operand :: _).reverse [] = _
    rw [List.reverse_cons, build_append hreleased.build_queue]
    rfl

/-- All words of a chain in postfix order build the chain's tree and nothing else. -/
theorem Represents.build_output (h : Represents yard chain) :
    build yard.output [] = .ok [chain.close] := by
  obtain ⟨queue, waiting⟩ := yard
  obtain ⟨ws, last⟩ := chain
  induction ws generalizing queue waiting last with
  | nil =>
    obtain rfl : waiting = [] := h.waiting_eq
    exact h.build_queue
  | cons w ws ih =>
    obtain rfl : waiting = (w.op, w.span) :: ws.map fun w => (w.op, w.span) := h.waiting_eq
    have hclosed := ih _ _ _ h.close
    exact hclosed

/-- The two passes never fail: they build what the one pass does. -/
theorem Represents.tree_eq (h : Represents yard chain) (first : Operator × Span) :
    yard.tree first = .ok chain.close := by
  unfold tree
  rw [h.build_output]

end Yard

/-! ### Reading a chain in one pass -/

namespace Parser

open Yard

variable {sub : Reader Expr}

/-- Reads the operators and operands that continue a chain, in one pass. -/
def chainFrom (sub : Reader Expr) : Nat → Chain → Reader Expr
  | 0, chain => return chain.close
  | budget + 1, chain => do
    match ← peekOperator with
    | none => return chain.close
    | some (op, span) =>
      discard nextToken
      let e ← operand sub
      chainFrom sub budget (chain.push op span e)

/-- Reading in two passes and in one is the same. -/
theorem operators_eq_chainFrom (first : Operator × Span) (budget : Nat) {yard : Yard}
    {chain : Chain} (h : Represents yard chain) :
    operators sub first budget yard = chainFrom sub budget chain := by
  induction budget generalizing yard chain with
  | zero =>
    rw [operators, chainFrom, h.tree_eq]
    rfl
  | succ budget ih =>
    rw [operators, chainFrom, h.tree_eq]
    apply congrArg (peekOperator >>= ·)
    funext found
    cases found with
    | none => rfl
    | some operator =>
      dsimp only
      simp only [ih (h.push _ _ _)]

/-- Reads what the sigil of `token` introduces and the chain that it may start, in one pass. -/
def behindToken (sub : Reader Expr) (budget : Nat) (token : Token) : Reader Expr := do
  let e ← construct sub budget token
  match ← peekOperator with
  | none => return e
  | some _ => chainFrom sub budget (.single (← expectValue e))

/-- An expression is a construct and what a chain in one pass adds to it. -/
theorem chained_eq (sub : Reader Expr) (budget : Nat) :
    chained sub budget = nextToken >>= behindToken sub budget := by
  unfold chained behindToken
  apply congrArg (nextToken >>= ·)
  funext token
  apply congrArg (construct sub budget token >>= ·)
  funext e
  apply congrArg (peekOperator >>= ·)
  funext found
  cases found with
  | none => rfl
  | some first =>
    apply congrArg (expectValue e >>= ·)
    funext e
    exact operators_eq_chainFrom first budget (represents_single e)

end Parser

end Smil.Expr
