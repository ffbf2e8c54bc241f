/-
  Sweeping a layered graph from above: where every edge goes down one layer, what can be
  reached in a lower layer is found by taking, layer by layer, what the nodes found so far
  refer to.

  `sweep_spec`: the nodes found are those that can be reached.
-/
import Mathlib.Logic.Relation
import Mathlib.Data.List.Basic
import Mathlib.Tactic.Common

namespace DagBft

variable {α : Type} {R : α → α → Prop} {rank : α → ℕ} {P : α → Prop} {x y : α}

/-- The layers from `lo + n` exclusive down to `lo`. -/
def layersDown (lo n : ℕ) : List ℕ := (List.range' lo n).reverse

theorem layersDown_succ (lo n : ℕ) : layersDown lo (n + 1) = (lo + n) :: layersDown lo n := by
  unfold layersDown
  rw [List.range'_1_concat, List.reverse_append]
  rfl

/-- The edges of the nodes with `P` go down one layer, to nodes with `P`. -/
def GoesDown (R : α → α → Prop) (rank : α → ℕ) (P : α → Prop) : Prop :=
  ∀ x y, P x → R x y → P y ∧ rank y + 1 = rank x

theorem GoesDown.reach (h : GoesDown R rank P) (hx : P x) (hreach : Relation.ReflTransGen R x y) :
    P y ∧ rank y ≤ rank x := by
  induction hreach with
  | refl => exact ⟨hx, Nat.le_refl _⟩
  | @tail y z _ hedge ih =>
      obtain ⟨hz, hrank⟩ := h y z ih.1 hedge
      exact ⟨hz, by omega⟩

/-- In its own layer a node reaches only itself. -/
theorem GoesDown.eq_of_rank (h : GoesDown R rank P) (hx : P x)
    (hreach : Relation.ReflTransGen R x y) (hrank : rank x ≤ rank y) : y = x := by
  rcases Relation.ReflTransGen.cases_head hreach with heq | ⟨z, hedge, hrest⟩
  · exact heq.symm
  · obtain ⟨hz, hdown⟩ := h x z hx hedge
    have := (h.reach hz hrest).2
    omega

/-- One step of the sweep finds what the nodes refer to. -/
def Sweeps (R : α → α → Prop) (rank : α → ℕ) (P : α → Prop) (step : List α → ℕ → Option (List α))
    (layer : ℕ) : Prop :=
  ∀ xs, (∀ x ∈ xs, P x ∧ rank x = layer + 1) →
    ∃ ys, step xs layer = some ys ∧ ∀ y, y ∈ ys ↔ ∃ x ∈ xs, R x y

/-- The nodes found in layer `lo` are those that can be reached. -/
theorem sweep_spec (hdown : GoesDown R rank P) {step : List α → ℕ → Option (List α)}
    (lo n : ℕ) (hstep : ∀ layer, lo ≤ layer → layer < lo + n → Sweeps R rank P step layer)
    (xs : List α) (hxs : ∀ x ∈ xs, P x ∧ rank x = lo + n) :
    ∃ ys, (layersDown lo n).foldlM step xs = some ys ∧
      ∀ y, y ∈ ys ↔ rank y = lo ∧ ∃ x ∈ xs, Relation.ReflTransGen R x y := by
  induction n generalizing xs with
  | zero =>
      refine ⟨xs, rfl, fun y => ⟨fun hy => ⟨(hxs y hy).2, y, hy, .refl⟩, ?_⟩⟩
      rintro ⟨hy, x, hx, hreach⟩
      obtain ⟨hpx, hrank⟩ := hxs x hx
      rwa [hdown.eq_of_rank hpx hreach (by omega)]
  | succ n ih =>
      obtain ⟨ys, hys, hmem⟩ := hstep (lo + n) (by omega) (by omega) xs hxs
      have hys' : ∀ y ∈ ys, P y ∧ rank y = lo + n := by
        intro y hy
        obtain ⟨x, hx, hedge⟩ := (hmem y).mp hy
        obtain ⟨hpx, hrank⟩ := hxs x hx
        obtain ⟨hpy, hdown'⟩ := hdown x y hpx hedge
        exact ⟨hpy, by omega⟩
      obtain ⟨zs, hzs, hspec⟩ := ih (fun l hl hlt => hstep l hl (by omega)) ys hys'
      refine ⟨zs, ?_, fun z => ?_⟩
      · rw [layersDown_succ, List.foldlM_cons, hys]
        exact hzs
      · rw [hspec]
        constructor
        · rintro ⟨hz, y, hy, hreach⟩
          obtain ⟨x, hx, hedge⟩ := (hmem y).mp hy
          exact ⟨hz, x, hx, .head hedge hreach⟩
        · rintro ⟨hz, x, hx, hreach⟩
          rcases Relation.ReflTransGen.cases_head hreach with rfl | ⟨y, hedge, hreach⟩
          · have := (hxs x hx).2
            omega
          · exact ⟨hz, y, (hmem y).mpr ⟨x, hx, hedge⟩, hreach⟩

end DagBft
