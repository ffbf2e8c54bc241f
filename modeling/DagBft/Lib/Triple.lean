/-
  From a Hoare triple about a program with errors and a state to what a run of it leaves
  behind.
-/
import Mathlib

namespace DagBft

open Std.Do

set_option mvcgen.warning false

/-- The state after a run satisfies the postcondition, for a result or for an error. -/
theorem run_of_triple {ε σ α : Type} {m : ExceptT ε (StateM σ) α} {P : σ → Prop}
    {Q : α → σ → Prop} {E : ε → σ → Prop}
    (h : ⦃fun s => ⌜P s⌝⦄ m ⦃post⟨fun a s => ⌜Q a s⌝, fun e s => ⌜E e s⌝⟩⦄) (s : σ) (hs : P s) :
    match m.run.run s with
    | (.ok a, s') => Q a s'
    | (.error e, s') => E e s' := by
  have key := h s hs
  simp only [wp, PredTrans.apply_pushExcept, PredTrans.apply_pushArg,
    PredTrans.apply_Pure_pure] at key
  generalize hx : m.run.run s = x at key ⊢
  obtain ⟨r, s'⟩ := x
  cases r with
  | ok a => exact key
  | error e => exact key

/-- Conversely, what every run leaves behind is a triple. -/
theorem triple_of_run {ε σ α : Type} {m : ExceptT ε (StateM σ) α} {P : σ → Prop}
    {Q : α → σ → Prop} {E : ε → σ → Prop}
    (h : ∀ s, P s → match m.run.run s with
      | (.ok a, s') => Q a s'
      | (.error e, s') => E e s') :
    ⦃fun s => ⌜P s⌝⦄ m ⦃post⟨fun a s => ⌜Q a s⌝, fun e s => ⌜E e s⌝⟩⦄ := by
  intro s hs
  have key := h s hs
  simp only [wp, PredTrans.apply_pushExcept, PredTrans.apply_pushArg,
    PredTrans.apply_Pure_pure]
  generalize m.run.run s = x at key ⊢
  obtain ⟨r, s'⟩ := x
  cases r with
  | ok a => exact key
  | error e => exact key

/-- An invariant that a program keeps, whatever its result, holds afterwards. -/
theorem inv_of_triple {ε σ α : Type} {m : ExceptT ε (StateM σ) α} {P I : σ → Prop}
    (h : ⦃fun s => ⌜P s⌝⦄ m ⦃post⟨fun _ s => ⌜I s⌝, fun _ s => ⌜I s⌝⟩⦄) (s : σ) (hs : P s) :
    I (m.run.run s).2 := by
  have key := run_of_triple h s hs
  generalize m.run.run s = x at key ⊢
  obtain ⟨r, s'⟩ := x
  cases r with
  | ok a => exact key
  | error e => exact key

/-- The rule of consequence, for postconditions that do not depend on the result. -/
theorem triple_mono {ε σ α : Type} {m : ExceptT ε (StateM σ) α} {P P' Q Q' : σ → Prop}
    (h : ⦃fun s => ⌜P s⌝⦄ m ⦃post⟨fun _ s => ⌜Q s⌝, fun _ s => ⌜Q s⌝⟩⦄)
    (hP : ∀ s, P' s → P s) (hQ : ∀ s, Q s → Q' s) :
    ⦃fun s => ⌜P' s⌝⦄ m ⦃post⟨fun _ s => ⌜Q' s⌝, fun _ s => ⌜Q' s⌝⟩⦄ := by
  mvcgen [h]
  · exact hP _ ‹_›
  · exact hQ _
  · exact hQ _

/-- A fact that is not about the state holds after every program. -/
theorem triple_const {ε σ α : Type} {C : Prop} (m : ExceptT ε (StateM σ) α) :
    ⦃fun _ => ⌜C⌝⦄ m ⦃post⟨fun _ _ => ⌜C⌝, fun _ _ => ⌜C⌝⟩⦄ := by
  intro s hs
  simp only [wp, PredTrans.apply_pushExcept, PredTrans.apply_pushArg, PredTrans.apply_Pure_pure]
  generalize m.run.run s = x
  obtain ⟨r, s'⟩ := x
  cases r with
  | ok a => exact hs
  | error e => exact hs

/-- A pure hypothesis of a triple may stand in its precondition. -/
theorem triple_of_imp {ε σ α : Type} {m : ExceptT ε (StateM σ) α} {I : σ → Prop} {C : Prop}
    {Q : PostCond α (.except ε (.arg σ .pure))} (h : C → ⦃fun s => ⌜I s⌝⦄ m ⦃Q⦄) :
    ⦃fun s => ⌜I s ∧ C⌝⦄ m ⦃Q⦄ := by
  intro s hs
  exact h hs.2 s hs.1

end DagBft
