/-
  Ranks in a sorted list, some of whose elements are arbitrary.

  An element with enough others on either side of it in the order lies between two elements
  of the good part, whatever the bad ones are: `exists_good_ge` and `exists_good_le`.
-/
import DagBft.Lib.HashMap

namespace DagBft

variable {α : Type} [LinearOrder α]

section List

variable {l : List α} {i : ℕ}

/-- The elements from position `i` on are not smaller. -/
theorem length_sub_le_countP (hs : l.Pairwise (· ≤ ·)) (hi : i < l.length) :
    l.length - i ≤ l.countP (l[i] ≤ ·) := by
  have hdrop : ∀ x ∈ l.drop i, decide (l[i] ≤ x) = true := by
    intro x hx
    obtain ⟨k, hk, rfl⟩ := List.mem_iff_getElem.mp hx
    rw [List.getElem_drop, decide_eq_true_eq]
    rcases Nat.eq_zero_or_pos k with rfl | hpos
    · exact le_refl _
    · exact List.pairwise_iff_getElem.mp hs i (i + k) hi _ (by omega)
  rw [← List.length_drop, ← List.countP_eq_length.mpr hdrop]
  exact (List.drop_sublist i l).countP_le

/-- The elements up to position `i` are not larger. -/
theorem succ_le_countP (hs : l.Pairwise (· ≤ ·)) (hi : i < l.length) :
    i + 1 ≤ l.countP (· ≤ l[i]) := by
  have htake : ∀ x ∈ l.take (i + 1), decide (x ≤ l[i]) = true := by
    intro x hx
    obtain ⟨k, hk, rfl⟩ := List.mem_iff_getElem.mp hx
    rw [List.length_take] at hk
    rw [List.getElem_take, decide_eq_true_eq]
    rcases Nat.lt_or_ge k i with hlt | hge
    · exact List.pairwise_iff_getElem.mp hs k i (by omega) hi hlt
    · obtain rfl : k = i := by omega
      exact le_refl _
  have hlen : (l.take (i + 1)).length = i + 1 := by
    rw [List.length_take]
    omega
  have hcount := (List.countP_eq_length.mpr htake).trans hlen
  rw [← hcount]
  exact (List.take_sublist _ l).countP_le

end List

section Sorted

variable {s good bad : Multiset α} {i : ℕ}

theorem coe_sorted (s : Multiset α) : (sorted (· ≤ ·) s : Multiset α) = s :=
  Quot.induction_on s fun l => Multiset.coe_eq_coe.mpr (List.perm_insertionSort _ l)

theorem pairwise_sorted (s : Multiset α) : (sorted (· ≤ ·) s).Pairwise (· ≤ ·) :=
  Quot.induction_on s fun l => List.pairwise_insertionSort _ l

theorem countP_sorted (p : α → Prop) [DecidablePred p] (s : Multiset α) :
    (sorted (· ≤ ·) s).countP p = s.countP p := by
  conv_rhs => rw [← coe_sorted s]
  exact (Multiset.coe_countP p _).symm

/-- If no good element reaches the one at position `i`, then as many bad ones do as come
    from there on. -/
theorem card_sub_le_countP_bad (hs : good + bad = s) (hi : i < (sorted (· ≤ ·) s).length)
    (hnone : ∀ g ∈ good, ¬ (sorted (· ≤ ·) s)[i] ≤ g) :
    s.card - i ≤ bad.countP ((sorted (· ≤ ·) s)[i] ≤ ·) := by
  subst hs
  have hcount := length_sub_le_countP (pairwise_sorted (good + bad)) hi
  rw [length_sorted, countP_sorted, Multiset.countP_add, Multiset.countP_eq_zero.mpr hnone,
    Nat.zero_add] at hcount
  exact hcount

theorem exists_good_ge (hs : good + bad = s) (hi : i < (sorted (· ≤ ·) s).length)
    (hbad : bad.card < s.card - i) : ∃ g ∈ good, (sorted (· ≤ ·) s)[i] ≤ g := by
  by_contra hnone
  push Not at hnone
  have hle := card_sub_le_countP_bad hs hi fun g hg => not_le.mpr (hnone g hg)
  have := Multiset.countP_le_card ((sorted (· ≤ ·) s)[i] ≤ ·) bad
  omega

theorem exists_good_le (hs : good + bad = s) (hi : i < (sorted (· ≤ ·) s).length)
    (hbad : bad.card < i + 1) : ∃ g ∈ good, g ≤ (sorted (· ≤ ·) s)[i] := by
  subst hs
  by_contra hnone
  push Not at hnone
  have hcount := succ_le_countP (pairwise_sorted (good + bad)) hi
  rw [countP_sorted, Multiset.countP_add,
    Multiset.countP_eq_zero.mpr fun g hg => not_le.mpr (hnone g hg), Nat.zero_add] at hcount
  have := Multiset.countP_le_card (· ≤ (sorted (· ≤ ·) (good + bad))[i]) bad
  omega

/-- If the bad elements are all above the good ones then those positions are theirs that the
    good ones cannot fill. -/
theorem good_lt_of_above (hs : good + bad = s) (hi : i < (sorted (· ≤ ·) s).length)
    (hgood : good.card ≤ i) (habove : ∀ g ∈ good, ∀ b ∈ bad, g < b) {g : α} (hg : g ∈ good) :
    g < (sorted (· ≤ ·) s)[i] := by
  subst hs
  by_contra hle
  rw [not_lt] at hle
  have hnone : ∀ b ∈ bad, ¬ b ≤ (sorted (· ≤ ·) (good + bad))[i] := fun b hb hble =>
    absurd (habove g hg b hb) (not_lt.mpr (hble.trans hle))
  have hcount := succ_le_countP (pairwise_sorted (good + bad)) hi
  rw [countP_sorted, Multiset.countP_add, Multiset.countP_eq_zero.mpr hnone,
    Nat.add_zero] at hcount
  have := Multiset.countP_le_card (· ≤ (sorted (· ≤ ·) (good + bad))[i]) good
  omega

/-- If as many bad elements as come from position `i` on leave no good one there then they are
    all above the good ones. -/
theorem good_lt_bad (hs : good + bad = s) (hi : i < (sorted (· ≤ ·) s).length)
    (hbad : bad.card ≤ s.card - i) (hnone : ∀ g ∈ good, ¬ (sorted (· ≤ ·) s)[i] ≤ g) :
    ∀ g ∈ good, ∀ b ∈ bad, g < b := by
  have hle := card_sub_le_countP_bad hs hi hnone
  have hall : bad.countP ((sorted (· ≤ ·) s)[i] ≤ ·) = bad.card :=
    le_antisymm (Multiset.countP_le_card _ _) (hbad.trans hle)
  intro g hg b hb
  exact (not_le.mp (hnone g hg)).trans_le (Multiset.countP_eq_card.mp hall b hb)

end Sorted

end DagBft
