/-
  Runs of a machine whose steps may be refused: `step s e = none` where event `e` cannot
  happen in state `s`. A run may be restricted to events that meet a condition on the state
  they happen in.

  `Reaches.invariant`: what holds at first and is preserved by such a step holds in every
  state that is reached. `foldlM_map`: a run under a renaming that the steps respect.
-/
import Mathlib.Data.List.Induction
import Mathlib.Logic.Relation

namespace DagBft

/-- A computation that may fail succeeds when both of its parts do. -/
theorem bind_eq_ok {ε α β : Type} {x : Except ε α} {f : α → Except ε β} {b : β} :
    x >>= f = .ok b ↔ ∃ a, x = .ok a ∧ f a = .ok b := by
  cases x with
  | error e => simp [bind, Except.bind]
  | ok a => simp [bind, Except.bind]

theorem map_eq_ok {ε α β : Type} {x : Except ε α} {f : α → β} {b : β} :
    x.map f = .ok b ↔ ∃ a, x = .ok a ∧ f a = b := by
  cases x with
  | error e => simp [Except.map]
  | ok a => simp [Except.map]

/-- What a computation that succeeds returns, whatever stands in for its failure. -/
theorem eq_ok_of_isOk {ε α : Type} {x : Except ε α} (a : α) (h : x.isOk = true) :
    x = .ok (x.toOption.getD a) := by
  cases x with
  | error e => cases h
  | ok b => rfl

theorem eq_some_of_isSome {α : Type} {x : Option α} (a : α) (h : x.isSome = true) :
    x = some (x.getD a) := by
  cases x with
  | none => cases h
  | some b => rfl

variable {σ ε : Type} {step : σ → ε → Option σ} {ok : σ → ε → Prop} {s s' : σ}

/-- One step on an event that meets the condition. -/
def Next (step : σ → ε → Option σ) (ok : σ → ε → Prop) (s s' : σ) : Prop :=
  ∃ e, ok s e ∧ step s e = some s'

/-- A run of steps that meet the condition. -/
def Reaches (step : σ → ε → Option σ) (ok : σ → ε → Prop) : σ → σ → Prop :=
  Relation.ReflTransGen (Next step ok)

/-- The condition that every event meets. -/
def Always (_ : σ) (_ : ε) : Prop := True

theorem Reaches.invariant {I : σ → Prop}
    (hstep : ∀ s e s', I s → ok s e → step s e = some s' → I s') (h : Reaches step ok s s')
    (hs : I s) : I s' := by
  induction h with
  | refl => exact hs
  | tail _ hnext ih =>
      obtain ⟨e, he, hs'⟩ := hnext
      exact hstep _ e _ ih he hs'

/-- A fold commutes with a renaming that each of its steps commutes with. -/
theorem foldlM_map {σ' ε' : Type} {step' : σ' → ε' → Option σ'} (g : σ → σ') (f : ε → ε')
    (hstep : ∀ s e, step' (g s) (f e) = (step s e).map g) (s : σ) (events : List ε) :
    (events.map f).foldlM step' (g s) = (events.foldlM step s).map g := by
  induction events generalizing s with
  | nil => rfl
  | cons e events ih =>
      rw [List.map_cons, List.foldlM_cons, List.foldlM_cons, hstep]
      cases step s e with
      | none => rfl
      | some s' => exact ih s'

/-- The run on a list of events, if none is refused. -/
def exec (step : σ → ε → Option σ) (s : σ) (events : List ε) : Option σ := events.foldlM step s

theorem exec_snoc {events : List ε} {e : ε} {s₁ s₂ : σ} (h : exec step s events = some s₁)
    (he : step s₁ e = some s₂) : exec step s (events ++ [e]) = some s₂ := by
  unfold exec at h ⊢
  rw [List.foldlM_append, h]
  simpa using he

/-- What holds at first, of no events, and is preserved by a step on one more event holds of the
    events of every run and the state after them. -/
theorem exec_invariant {I : List ε → σ → Prop} (hs : I [] s)
    (hstep : ∀ events s₁ e s₂, I events s₁ → step s₁ e = some s₂ → I (events ++ [e]) s₂)
    {events : List ε} (h : exec step s events = some s') : I events s' := by
  induction events using List.reverseRecOn generalizing s' with
  | nil => exact Option.some.inj h ▸ hs
  | append_singleton events e ih =>
      unfold exec at h ih
      rw [List.foldlM_append] at h
      obtain ⟨s₁, hs₁, h⟩ := Option.bind_eq_some_iff.mp h
      refine hstep events s₁ e s' (ih hs₁) ?_
      simpa using h

/-- Every event meets the condition in the state it happens in. -/
def Allowed (step : σ → ε → Option σ) (ok : σ → ε → Prop) : σ → List ε → Prop
  | _, [] => True
  | s, e :: events => ok s e ∧ ∀ s', step s e = some s' → Allowed step ok s' events

theorem allowed_always (s : σ) (events : List ε) : Allowed step Always s events := by
  induction events generalizing s with
  | nil => trivial
  | cons e events ih => exact ⟨trivial, fun s' _ => ih s'⟩

/-- A list of events that meet the condition is a run. -/
theorem reaches_of_exec {events : List ε} (h : exec step s events = some s')
    (hok : Allowed step ok s events) : Reaches step ok s s' := by
  unfold exec at h
  induction events generalizing s with
  | nil =>
      rw [← Option.some.inj h]
      exact Relation.ReflTransGen.refl
  | cons e events ih =>
      rw [List.foldlM_cons] at h
      obtain ⟨s₁, hs₁, h⟩ := Option.bind_eq_some_iff.mp h
      exact Relation.ReflTransGen.head ⟨e, hok.1, hs₁⟩ (ih h (hok.2 s₁ hs₁))

end DagBft
