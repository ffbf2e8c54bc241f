/-
  Counting a quorum once.

  Ballots come in one after the other, each by an author with some stake. The counter adds
  up the stake of the authors it has not seen, keeps their ballots, and starts from zero at
  the ballot that reaches the quorum.

  `Counting` says what such a counter knows after a series of ballots, and has one rule
  for each thing a ballot can do: its author has been seen (`again`), it is counted
  (`more`), or it completes the quorum (`full`). The rules need that the authors that are
  left once a quorum is reached do not hold another one.
-/
import Mathlib.Algebra.BigOperators.Group.Finset.Basic
import Mathlib.Algebra.Order.BigOperators.Group.Finset

namespace DagBft

/-! ## The outputs of a machine -/

section Outputs

variable {σ β ρ : Type} (step : σ → β → σ × ρ)

/-- What the machine puts out for each of a series of inputs. -/
def outputs : σ → List β → List ρ
  | _, [] => []
  | s, x :: l => (step s x).2 :: outputs (step s x).1 l

theorem length_outputs (s : σ) (l : List β) : (outputs step s l).length = l.length := by
  induction l generalizing s with
  | nil => rfl
  | cons x l ih => rw [outputs, List.length_cons, ih, List.length_cons]

/-- An output is that of a state in which the invariant holds of the inputs before. -/
theorem outputs_getElem? {I : σ → List β → Prop}
    (hstep : ∀ s past x, I s past → I (step s x).1 (past ++ [x])) {s : σ} {past l : List β}
    (hs : I s past) {i : ℕ} {x : β} (hx : l[i]? = some x) :
    ∃ s', I s' (past ++ l.take i) ∧ (outputs step s l)[i]? = some (step s' x).2 := by
  induction l generalizing s past i with
  | nil => cases hx
  | cons y l ih =>
      cases i with
      | zero =>
          obtain rfl : y = x := Option.some.inj hx
          refine ⟨s, ?_, rfl⟩
          rw [List.take_zero, List.append_nil]
          exact hs
      | succ i =>
          obtain ⟨s', hs', ho⟩ := ih (hstep s past y hs) hx
          refine ⟨s', ?_, ho⟩
          rw [List.take_succ_cons]
          rwa [List.append_assoc] at hs'

end Outputs

/-! ## The stake behind a series of ballots -/

variable {α β : Type} [DecidableEq α] (author : β → α) (stake : α → ℕ) (quorum : ℕ)

/-- The stake of the authors, each counted once. -/
def held (l : List β) : ℕ := ∑ a ∈ (l.map author).toFinset, stake a

/-- The ballot at which the authors so far reach the quorum. -/
def AtQuorum (l : List β) (x : β) : Prop :=
  held author stake l < quorum ∧ quorum ≤ held author stake (l ++ [x])

variable {author stake quorum} {l : List β} {x : β}

theorem held_snoc_of_mem (h : author x ∈ l.map author) :
    held author stake (l ++ [x]) = held author stake l := by
  unfold held
  rw [List.map_append, List.toFinset_append, List.map_singleton, List.toFinset_cons,
    List.toFinset_nil]
  congr 1
  refine Finset.union_eq_left.mpr fun a ha => ?_
  rw [Finset.mem_insert, or_iff_left (Finset.notMem_empty a)] at ha
  exact List.mem_toFinset.mpr (ha ▸ h)

theorem held_snoc_of_notMem (h : author x ∉ l.map author) :
    held author stake (l ++ [x]) = held author stake l + stake (author x) := by
  unfold held
  have hset : ((l ++ [x]).map author).toFinset = insert (author x) (l.map author).toFinset := by
    ext a
    simp
  rw [hset, Finset.sum_insert fun hmem => h (List.mem_toFinset.mp hmem), Nat.add_comm]

theorem held_le_snoc : held author stake l ≤ held author stake (l ++ [x]) := by
  by_cases h : author x ∈ l.map author
  · exact (held_snoc_of_mem h).ge
  · rw [held_snoc_of_notMem h]
    exact Nat.le_add_right _ _

theorem held_mono {i j : ℕ} (h : i ≤ j) :
    held author stake (l.take i) ≤ held author stake (l.take j) := by
  refine Finset.sum_le_sum_of_subset fun a ha => ?_
  rw [List.mem_toFinset] at ha ⊢
  obtain ⟨y, hy, rfl⟩ := List.mem_map.mp ha
  exact List.mem_map_of_mem ((List.take_subset_take_left l h) hy)

/-- The quorum is reached at one ballot only. -/
theorem atQuorum_unique {i j : ℕ}
    (hi : held author stake (l.take i) < quorum ∧ quorum ≤ held author stake (l.take (i + 1)))
    (hj : held author stake (l.take j) < quorum ∧ quorum ≤ held author stake (l.take (j + 1))) :
    i = j := by
  have h : ∀ m n, held author stake (l.take n) < quorum →
      quorum ≤ held author stake (l.take (m + 1)) → n ≤ m := by
    intro m n hn hm
    by_contra hlt
    have hle : held author stake (l.take (m + 1)) ≤ held author stake (l.take n) :=
      held_mono (by omega)
    omega
  exact Nat.le_antisymm (h j i hi.1 hj.2) (h i j hj.1 hi.2)

/-! ## The counter -/

/-- What the counter knows after the ballots `l`: the authors it has seen; before the
    quorum, their stake and the ballots it keeps; and afterwards, that its weight is of
    authors beyond the quorum. -/
structure Counting (author : β → α) (stake : α → ℕ) (quorum weight : ℕ) (used : List α)
    (kept l : List β) : Prop where
  used : ∀ a, a ∈ used ↔ a ∈ l.map author
  before : held author stake l < quorum → weight = held author stake l ∧
    kept.Sublist l ∧ (kept.map author).Nodup ∧ ∀ a, a ∈ kept.map author ↔ a ∈ l.map author
  after : quorum ≤ held author stake l → weight + quorum ≤ held author stake l

namespace Counting

variable {weight : ℕ} {used : List α} {kept : List β}

theorem start (hquorum : 0 < quorum) : Counting author stake quorum 0 [] ([] : List β) [] where
  used _ := Iff.rfl
  before _ := ⟨rfl, List.Sublist.refl _, List.nodup_nil, fun _ => Iff.rfl⟩
  after h := absurd h (Nat.not_le.mpr hquorum)

theorem weight_le (hc : Counting author stake quorum weight used kept l) :
    weight ≤ held author stake l := by
  rcases Nat.lt_or_ge (held author stake l) quorum with h | h
  · exact (hc.before h).1.le
  · have := hc.after h
    omega

/-- A ballot by an author that has been seen changes nothing. -/
theorem again (hc : Counting author stake quorum weight used kept l) (h : author x ∈ used) :
    Counting author stake quorum weight used kept (l ++ [x]) ∧
      ¬AtQuorum author stake quorum l x := by
  have hmem := (hc.used _).mp h
  have hheld : held author stake (l ++ [x]) = held author stake l := held_snoc_of_mem hmem
  have hsame : ∀ a, a ∈ (l ++ [x]).map author ↔ a ∈ l.map author := by
    intro a
    rw [List.map_append, List.mem_append, List.map_singleton, List.mem_singleton]
    exact ⟨fun ha => ha.elim id fun ha => ha ▸ hmem, Or.inl⟩
  refine ⟨⟨fun a => (hc.used a).trans (hsame a).symm, fun hlt => ?_, fun hle => ?_⟩, fun hq => ?_⟩
  · rw [hheld] at hlt ⊢
    obtain ⟨hweight, hsub, hnodup, hkept⟩ := hc.before hlt
    exact ⟨hweight, hsub.trans (List.sublist_append_left l [x]), hnodup,
      fun a => (hkept a).trans (hsame a).symm⟩
  · rw [hheld] at hle ⊢
    exact hc.after hle
  · have h₂ := hq.2
    rw [hheld] at h₂
    exact absurd hq.1 (Nat.not_lt.mpr h₂)

/-- The authors that have been seen, with one more. -/
theorem used_snoc (hc : Counting author stake quorum weight used kept l) (a : α) :
    a ∈ author x :: used ↔ a ∈ (l ++ [x]).map author := by
  rw [List.mem_cons, hc.used, List.map_append, List.mem_append, List.map_singleton,
    List.mem_singleton]
  exact or_comm

/-- The ballots that are kept, with one more. -/
theorem kept_snoc (hc : Counting author stake quorum weight used kept l) (h : author x ∉ used)
    (hlt : held author stake l < quorum) :
    (kept ++ [x]).Sublist (l ++ [x]) ∧ ((kept ++ [x]).map author).Nodup ∧
      ∀ a, a ∈ (kept ++ [x]).map author ↔ a ∈ (l ++ [x]).map author := by
  obtain ⟨-, hsub, hnodup, hkept⟩ := hc.before hlt
  refine ⟨hsub.append_right [x], ?_, fun a => ?_⟩
  · rw [List.map_append, List.nodup_append]
    refine ⟨hnodup, List.nodup_singleton _, fun a ha b hb hab => h ?_⟩
    obtain rfl : b = author x := List.mem_singleton.mp hb
    exact (hc.used _).mpr ((hkept _).mp (hab ▸ ha))
  · rw [List.map_append, List.map_append, List.mem_append, List.mem_append, hkept]

/-- A ballot that does not complete a quorum. -/
theorem more (hc : Counting author stake quorum weight used kept l) (h : author x ∉ used)
    (hless : weight + stake (author x) < quorum) :
    Counting author stake quorum (weight + stake (author x)) (author x :: used) (kept ++ [x])
      (l ++ [x]) ∧ ¬AtQuorum author stake quorum l x := by
  have hheld : held author stake (l ++ [x]) = held author stake l + stake (author x) :=
    held_snoc_of_notMem fun hmem => h ((hc.used _).mpr hmem)
  refine ⟨⟨hc.used_snoc, fun hlt => ?_, fun hle => ?_⟩, fun hq => ?_⟩
  · have hlt' : held author stake l < quorum := held_le_snoc.trans_lt hlt
    exact ⟨by rw [hheld, (hc.before hlt').1], hc.kept_snoc h hlt'⟩
  · rcases Nat.lt_or_ge (held author stake l) quorum with hlt | hge
    · have := (hc.before hlt).1
      omega
    · have := hc.after hge
      omega
  · have h₁ := (hc.before hq.1).1
    have h₂ := hq.2
    omega

/-- The ballot that completes the quorum: it is the first that could, and what is kept
    afterwards does not matter. -/
theorem full (hc : Counting author stake quorum weight used kept l) (kept' : List β)
    (h : author x ∉ used) (hmax : held author stake (l ++ [x]) < 2 * quorum)
    (hquorum : quorum ≤ weight + stake (author x)) :
    Counting author stake quorum 0 (author x :: used) kept' (l ++ [x]) ∧
      AtQuorum author stake quorum l x ∧
      (kept ++ [x]).Sublist (l ++ [x]) ∧ ((kept ++ [x]).map author).Nodup ∧
      quorum ≤ held author stake (kept ++ [x]) := by
  have hheld : held author stake (l ++ [x]) = held author stake l + stake (author x) :=
    held_snoc_of_notMem fun hmem => h ((hc.used _).mpr hmem)
  have hlt : held author stake l < quorum := by
    by_contra hge
    have := hc.after (Nat.not_lt.mp hge)
    omega
  have hle : quorum ≤ held author stake (l ++ [x]) := by
    have := (hc.before hlt).1
    omega
  obtain ⟨hsub, hnodup, hkept⟩ := hc.kept_snoc h hlt
  have hsame : held author stake (kept ++ [x]) = held author stake (l ++ [x]) := by
    unfold held
    congr 1
    ext a
    rw [List.mem_toFinset, List.mem_toFinset]
    exact hkept a
  refine ⟨⟨hc.used_snoc, fun hlt' => ?_, fun _ => ?_⟩, ⟨hlt, hle⟩, hsub, hnodup, ?_⟩
  · exact absurd hle (Nat.not_le.mpr hlt')
  · omega
  · rwa [hsame]

end Counting

end DagBft
