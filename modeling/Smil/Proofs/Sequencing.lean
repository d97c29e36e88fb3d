/-!
# Steps in sequence

The generator and the machine act on a state and keep it when they fail; the reader of programs
drops its state on a failure. In both an action that consists of two steps is taken apart into
what the first step yields and what the second does from there.
-/

namespace Smil

section Keeping

variable {ε σ α β : Type}

/-- A step that succeeds hands its result and state on. -/
theorem bind_of_ok {x : EStateM ε σ α} {f : α → EStateM ε σ β} {s s' : σ} {a : α}
    (h : x s = .ok a s') : (x >>= f) s = f a s' := by
  simp only [bind, EStateM.bind, h]

/-- A step that fails ends the sequence. -/
theorem bind_of_error {x : EStateM ε σ α} {f : α → EStateM ε σ β} {s s' : σ} {e : ε}
    (h : x s = .error e s') : (x >>= f) s = .error e s' := by
  simp only [bind, EStateM.bind, h]

/-- A sequence that succeeds consists of two steps that succeed. -/
theorem ok_of_bind {x : EStateM ε σ α} {f : α → EStateM ε σ β} {s t : σ} {b : β}
    (h : (x >>= f) s = .ok b t) : ∃ a s', x s = .ok a s' ∧ f a s' = .ok b t := by
  cases hx : x s with
  | ok a s' => exact ⟨a, s', rfl, (bind_of_ok hx).symm.trans h⟩
  | error e s' => cases (bind_of_error hx).symm.trans h

end Keeping

section Dropping

variable {ε σ α β : Type}

/-- A step that succeeds hands its result and state on. -/
theorem run_bind_of_ok {x : StateT σ (Except ε) α} {f : α → StateT σ (Except ε) β} {s s' : σ}
    {a : α} (h : x s = .ok (a, s')) : (x >>= f) s = f a s' := by
  simp only [bind, StateT.bind, h, Except.bind]

/-- A step that fails ends the sequence. -/
theorem run_bind_of_error {x : StateT σ (Except ε) α} {f : α → StateT σ (Except ε) β} {s : σ}
    {e : ε} (h : x s = .error e) : (x >>= f) s = .error e := by
  simp only [bind, StateT.bind, h, Except.bind]

/-- A step whose result is not used succeeds as the step does. -/
theorem run_discard_of_ok {x : StateT σ (Except ε) α} {s s' : σ} {a : α} (h : x s = .ok (a, s')) :
    (discard x : StateT σ (Except ε) PUnit) s = .ok ((), s') := by
  simp only [discard, Functor.mapConst, StateT.map, Function.comp_apply, h, bind,
    Except.bind, pure, Except.pure, Function.const_apply]

/-- A sequence that succeeds consists of two steps that succeed. -/
theorem ok_of_run_bind {x : StateT σ (Except ε) α} {f : α → StateT σ (Except ε) β} {s t : σ}
    {b : β} (h : (x >>= f) s = .ok (b, t)) :
    ∃ a s', x s = .ok (a, s') ∧ f a s' = .ok (b, t) := by
  cases hx : x s with
  | ok r => exact ⟨r.1, r.2, rfl, (run_bind_of_ok hx).symm.trans h⟩
  | error e =>
    simp only [bind, StateT.bind, hx, Except.bind] at h
    cases h

/-- A sequence that fails does so in its first step or in its second. -/
theorem error_of_run_bind {x : StateT σ (Except ε) α} {f : α → StateT σ (Except ε) β} {s : σ}
    {e : ε} (h : (x >>= f) s = .error e) :
    x s = .error e ∨ ∃ a s', x s = .ok (a, s') ∧ f a s' = .error e := by
  cases hx : x s with
  | ok r => exact Or.inr ⟨r.1, r.2, rfl, (run_bind_of_ok hx).symm.trans h⟩
  | error e' =>
    simp only [bind, StateT.bind, hx, Except.bind] at h
    cases h
    exact Or.inl rfl

/-- The result of a run of which the last state is dropped. -/
theorem run'_eq_ok_iff {x : StateT σ (Except ε) α} {s : σ} {a : α} :
    x.run' s = .ok a ↔ ∃ s', x s = .ok (a, s') := by
  cases hx : x s with
  | error e => simp [StateT.run', hx, Functor.map, Except.map]
  | ok r =>
    obtain ⟨a', s'⟩ := r
    simp [StateT.run', hx, Functor.map, Except.map]

end Dropping

/-! ### Steps that keep an invariant -/

/-- If a state has the invariant, a step from there leads to a result with a property in a state
with the invariant again, or it fails with an error of some kind. -/
def Keeps {ε σ α : Type} (invariant : σ → Prop) (failure : ε → Prop) (s : σ)
    (x : StateT σ (Except ε) α) (property : α → σ → Prop) : Prop :=
  invariant s → (∀ a s', x s = .ok (a, s') → property a s' ∧ invariant s') ∧
    ∀ e, x s = .error e → failure e

namespace Keeps

variable {ε σ α β : Type} {I : σ → Prop} {E : ε → Prop} {s : σ} {P : α → σ → Prop}
  {Q : β → σ → Prop}

/-- A step that cannot fail. -/
theorem of_ok {x : StateT σ (Except ε) α} {a : α} {s' : σ} (hx : x s = .ok (a, s'))
    (h : I s → P a s' ∧ I s') : Keeps I E s x P := by
  intro hs
  refine ⟨?_, ?_⟩
  · intro b s'' hb
    cases hx.symm.trans hb
    exact h hs
  · intro e he
    cases hx.symm.trans he

/-- A step that fails in a way that is allowed. -/
theorem of_error {x : StateT σ (Except ε) α} {e : ε} (hx : x s = .error e) (h : E e) :
    Keeps I E s x P := by
  intro _
  refine ⟨?_, ?_⟩
  · intro a s' ha
    cases hx.symm.trans ha
  · intro e' he'
    cases hx.symm.trans he'
    exact h

/-- A result that has the property in the state as it is. -/
theorem pure {a : α} (h : P a s) : Keeps I E s (pure a) P :=
  of_ok rfl fun hs => ⟨h, hs⟩

/-- An error that is allowed. -/
theorem throw {e : ε} (h : E e) : Keeps I E s (throw e : StateT σ (Except ε) α) P :=
  of_error rfl h

/-- The second step starts where the first one has ended. -/
theorem bind {x : StateT σ (Except ε) α} {f : α → StateT σ (Except ε) β} (hx : Keeps I E s x P)
    (hf : ∀ a s', P a s' → Keeps I E s' (f a) Q) : Keeps I E s (x >>= f) Q := by
  intro hs
  refine ⟨?_, ?_⟩
  · intro b s' hb
    obtain ⟨a, s₁, hfirst, hsecond⟩ := ok_of_run_bind hb
    obtain ⟨ha, hs₁⟩ := (hx hs).1 a s₁ hfirst
    exact (hf a s₁ ha hs₁).1 b s' hsecond
  · intro e he
    rcases error_of_run_bind he with hfirst | ⟨a, s₁, hfirst, hsecond⟩
    · exact (hx hs).2 e hfirst
    · obtain ⟨ha, hs₁⟩ := (hx hs).1 a s₁ hfirst
      exact (hf a s₁ ha hs₁).2 e hsecond

/-- What is known of the result may be weakened. -/
theorem imp {x : StateT σ (Except ε) α} {P' : α → σ → Prop} (hx : Keeps I E s x P)
    (h : ∀ a s', P a s' → P' a s') : Keeps I E s x P' := by
  intro hs
  refine ⟨?_, (hx hs).2⟩
  intro a s' ha
  obtain ⟨hP, hs'⟩ := (hx hs).1 a s' ha
  exact ⟨h a s' hP, hs'⟩

/-- The result of a whole run, of which the last state is dropped. -/
theorem run' {x : StateT σ (Except ε) α} (hx : Keeps I E s x P) (hs : I s) :
    (∀ a, x.run' s = .ok a → ∃ s', P a s' ∧ I s') ∧ ∀ e, x.run' s = .error e → E e := by
  obtain ⟨hok, herror⟩ := hx hs
  cases hrun : x s with
  | error e =>
    have hrun' : x.run' s = .error e := by simp [StateT.run', hrun, Functor.map, Except.map]
    rw [hrun']
    refine ⟨nofun, ?_⟩
    intro e' he'
    cases he'
    exact herror e hrun
  | ok r =>
    have hrun' : x.run' s = .ok r.1 := by simp [StateT.run', hrun, Functor.map, Except.map]
    rw [hrun']
    refine ⟨?_, nofun⟩
    intro a ha
    cases ha
    exact ⟨r.2, hok r.1 r.2 hrun⟩

end Keeps

/-- From a state with the invariant a step leads to a state with the invariant, also where it fails;
what it yields has a property. -/
def Maintains {ε σ α : Type} (invariant : σ → Prop) (x : EStateM ε σ α) (property : α → Prop) :
    Prop :=
  ∀ s, invariant s → (∀ a s', x s = .ok a s' → property a ∧ invariant s') ∧
    ∀ e s', x s = .error e s' → invariant s'

namespace Maintains

variable {ε σ α β : Type} {I : σ → Prop} {P : α → Prop} {Q : β → Prop}

/-- Doing nothing keeps the invariant, with any property that the result has. -/
theorem pure {a : α} (h : P a) : Maintains I (pure a : EStateM ε σ α) P := by
  intro s hs
  refine ⟨?_, ?_⟩
  · intro b s' hb
    cases hb
    exact ⟨h, hs⟩
  · intro e s' he
    cases he

/-- Failing keeps the invariant. -/
theorem throw (e : ε) : Maintains I (throw e : EStateM ε σ α) P := by
  intro s hs
  refine ⟨?_, ?_⟩
  · intro a s' ha
    cases ha
  · intro e' s' he'
    cases he'
    exact hs

/-- A change of the state has to keep the invariant. -/
theorem modify {f : σ → σ} (h : ∀ s, I s → I (f s)) :
    Maintains I (modify f : EStateM ε σ PUnit) fun _ => True := by
  intro s hs
  refine ⟨?_, ?_⟩
  · intro a s' ha
    cases ha
    exact ⟨trivial, h s hs⟩
  · intro e s' he
    cases he

/-- Two actions in a row keep the invariant if each does. -/
theorem bind {x : EStateM ε σ α} {f : α → EStateM ε σ β} (hx : Maintains I x P)
    (hf : ∀ a, P a → Maintains I (f a) Q) : Maintains I (x >>= f) Q := by
  intro s hs
  cases hfirst : x s with
  | ok a s₁ =>
    obtain ⟨ha, hs₁⟩ := (hx s hs).1 a s₁ hfirst
    rw [bind_of_ok hfirst]
    exact hf a ha s₁ hs₁
  | error e s₁ =>
    rw [bind_of_error hfirst]
    refine ⟨?_, ?_⟩
    · intro b s' hb
      cases hb
    · intro e' s' he'
      cases he'
      exact (hx s hs).2 e s₁ hfirst

end Maintains

end Smil
