/-
  Items in bins with a cap: a list says in which bin each item is, and the load of a bin is
  the number of its items.

  `exists_count_lt`: if the items fit and one bin is above the cap then another one is below.
  `excess_move`: moving an item from a bin above the cap to one below brings the excess down
  by one.
-/
import Mathlib.Algebra.BigOperators.Group.Finset.Basic
import Mathlib.Algebra.Order.BigOperators.Group.Finset

namespace DagBft

variable {n cap i src dst : ℕ} {bins : List ℕ}

theorem sum_count (h : ∀ e ∈ bins, e < n) : ∑ e ∈ Finset.range n, bins.count e = bins.length := by
  have := Multiset.sum_count_eq_card (s := Finset.range n) (m := (bins : Multiset ℕ))
    fun e he => Finset.mem_range.mpr (h e (Multiset.mem_coe.mp he))
  simpa using this

/-- If the items fit and a bin is above the cap then another one is below. -/
theorem exists_count_lt (h : ∀ e ∈ bins, e < n) (hfit : bins.length ≤ n * cap)
    (hsrc : cap < bins.count src) : ∃ e < n, bins.count e < cap := by
  by_contra hnone
  push Not at hnone
  have hmem : src ∈ Finset.range n :=
    Finset.mem_range.mpr (h src (List.count_pos_iff.mp (by omega)))
  have hlt : ∑ e ∈ Finset.range n, cap < ∑ e ∈ Finset.range n, bins.count e :=
    Finset.sum_lt_sum (fun e he => hnone e (Finset.mem_range.mp he)) ⟨src, hmem, hsrc⟩
  rw [sum_count h, Finset.sum_const_nat fun _ _ => rfl, Finset.card_range] at hlt
  omega

/-- The loads after a move. -/
theorem count_move (hi : bins[i]? = some src) (hne : dst ≠ src) (e : ℕ) :
    (bins.set i dst).count e =
      if e = src then bins.count e - 1 else if e = dst then bins.count e + 1
        else bins.count e := by
  obtain ⟨hlt, hget⟩ := List.getElem?_eq_some_iff.mp hi
  rw [List.count_set hlt, hget]
  by_cases hsrc : e = src
  · subst hsrc
    simp [hne]
  · by_cases hdst : e = dst
    · subst hdst
      simp [Ne.symm hsrc, hne]
    · simp [Ne.symm hsrc, Ne.symm hdst, hsrc, hdst]

/-- What is above the cap, of all bins. -/
def excess (n cap : ℕ) (bins : List ℕ) : ℕ := ∑ e ∈ Finset.range n, (bins.count e - cap)

theorem excess_le (h : ∀ e ∈ bins, e < n) : excess n cap bins ≤ bins.length := by
  rw [← sum_count h]
  exact Finset.sum_le_sum fun e _ => Nat.sub_le _ _

theorem excess_move (hi : bins[i]? = some src) (hn : src < n) (hsrc : cap < bins.count src)
    (hdst : bins.count dst < cap) : excess n cap (bins.set i dst) + 1 = excess n cap bins := by
  have hne : dst ≠ src := by
    rintro rfl
    omega
  have hmem : src ∈ Finset.range n := Finset.mem_range.mpr hn
  unfold excess
  rw [← Finset.add_sum_erase _ _ hmem, ← Finset.add_sum_erase _ _ hmem, count_move hi hne,
    if_pos rfl]
  have hrest : ∑ e ∈ (Finset.range n).erase src, ((bins.set i dst).count e - cap) =
      ∑ e ∈ (Finset.range n).erase src, (bins.count e - cap) := by
    refine Finset.sum_congr rfl fun e he => ?_
    rw [count_move hi hne, if_neg (Finset.ne_of_mem_erase he)]
    split
    · rename_i hedst
      subst hedst
      omega
    · rfl
  rw [hrest]
  omega

end DagBft
