/-
  Lists cut into pieces of given lengths.

  A concatenation is recovered from the lengths of its pieces (`pieces_flatten`), so that
  fixed-width records are recovered from their number (`records_flatMap`); and every list
  of the right length is the concatenation of its pieces (`flatten_pieces`).
-/
import Mathlib.Algebra.BigOperators.Group.List.Basic
import Mathlib.Tactic.Ring

namespace DagBft

variable {α β : Type}

/-- The pieces of these lengths, from the front. -/
def pieces : List ℕ → List α → List (List α)
  | [], _ => []
  | n :: lengths, l => l.take n :: pieces lengths (l.drop n)

theorem flatten_pieces {lengths : List ℕ} {l : List α} (h : l.length = lengths.sum) :
    (pieces lengths l).flatten = l := by
  induction lengths generalizing l with
  | nil => exact (List.length_eq_zero_iff.mp h).symm
  | cons n lengths ih =>
      rw [List.sum_cons] at h
      rw [pieces, List.flatten_cons, ih (by rw [List.length_drop]; omega), List.take_append_drop]

theorem map_length_pieces {lengths : List ℕ} {l : List α} (h : l.length = lengths.sum) :
    (pieces lengths l).map List.length = lengths := by
  induction lengths generalizing l with
  | nil => rfl
  | cons n lengths ih =>
      rw [List.sum_cons] at h
      rw [pieces, List.map_cons, ih (by rw [List.length_drop]; omega), List.length_take,
        Nat.min_eq_left (by omega)]

theorem pieces_flatten (ls : List (List α)) : pieces (ls.map List.length) ls.flatten = ls := by
  induction ls with
  | nil => rfl
  | cons l ls ih =>
      rw [List.map_cons, List.flatten_cons, pieces, List.take_left, List.drop_left, ih]

/-! ## Records of one width -/

def records (w n : ℕ) (l : List α) : List (List α) := pieces (List.replicate n w) l

variable {w n : ℕ} {l : List α}

theorem sum_widths (w n : ℕ) : w * n = (List.replicate n w).sum := by
  rw [List.sum_replicate_nat, Nat.mul_comm]

theorem flatten_records (h : l.length = w * n) : (records w n l).flatten = l :=
  flatten_pieces (h.trans (sum_widths w n))

theorem map_length_records (h : l.length = w * n) :
    (records w n l).map List.length = List.replicate n w :=
  map_length_pieces (h.trans (sum_widths w n))

theorem length_of_mem_records (h : l.length = w * n) {r : List α} (hr : r ∈ records w n l) :
    r.length = w := by
  have hmem : r.length ∈ List.replicate n w := map_length_records h ▸ List.mem_map_of_mem hr
  exact List.eq_of_mem_replicate hmem

theorem length_records (h : l.length = w * n) : (records w n l).length = n := by
  have := congrArg List.length (map_length_records h)
  rwa [List.length_map, List.length_replicate] at this

/-- The records of an encoding with a fixed width. -/
theorem records_flatMap {enc : β → List α} {xs : List β} (henc : ∀ x ∈ xs, (enc x).length = w) :
    records w xs.length (xs.flatMap enc) = xs.map enc := by
  have hlengths : (xs.map enc).map List.length = List.replicate xs.length w := by
    rw [List.map_map]
    refine List.eq_replicate_iff.mpr ⟨List.length_map _, ?_⟩
    intro k hk
    obtain ⟨x, hx, rfl⟩ := List.mem_map.mp hk
    exact henc x hx
  unfold records
  rw [← hlengths, List.flatMap_def, pieces_flatten]

theorem length_flatMap_of_width {enc : β → List α} {xs : List β}
    (henc : ∀ x ∈ xs, (enc x).length = w) : (xs.flatMap enc).length = w * xs.length := by
  induction xs with
  | nil => rfl
  | cons x xs ih =>
      rw [List.flatMap_cons, List.length_append, henc x List.mem_cons_self,
        ih fun y hy => henc y (List.mem_cons_of_mem _ hy), List.length_cons]
      ring

/-- Re-encoding the records gives the list back, if each record is encoded as it was. -/
theorem flatMap_records {dec : List α → β} {enc : β → List α} (h : l.length = w * n)
    (hdec : ∀ r : List α, r.length = w → enc (dec r) = r) :
    ((records w n l).map dec).flatMap enc = l := by
  have hmap : ((records w n l).map dec).map enc = records w n l := by
    rw [List.map_map]
    refine (List.map_congr_left fun r hr => ?_).trans (List.map_id _)
    exact hdec r (length_of_mem_records h hr)
  rw [List.flatMap_def, hmap, flatten_records h]

end DagBft
