/-
  How the benchmark client draws the source account of a transaction
  (`send_shard` of `node/src/benchmark_client.rs`), against the initial partition of the
  executors.

  The skew weights are doubles that stay finite when added (`Lib/Double`). The two numbers of
  the random generator are given: `m / 2 ^ 53` of `[0, 1)`, and one below the size of the
  sub-range. `aligned_iff`: the sub-ranges of the client are those of the executors
  if and only if the number of executors divides the size of every range, up to overflow.
-/
import DagBft.Config.Partition
import DagBft.Lib.Double
import Mathlib.Data.List.Pairwise

namespace DagBft.Node

open Config

/-! ## send_shard -/

/-- The sums of the first weights, as parts of `total`. -/
def cumulate (total : ℚ) : ℚ → List ℚ → List ℚ
  | _, [] => []
  | cum, w :: weights =>
      Double.fadd cum (Double.fdiv w total) ::
        cumulate total (Double.fadd cum (Double.fdiv w total)) weights

/-- `executor_cumulative_weights`. -/
def executorCumulativeWeights (weights : List ℚ) : List ℚ :=
  cumulate (weights.foldl Double.fadd 0) 0 weights

/-- `shard_idx`, for a number of `[0, 1)`. -/
def shardIdx (weights : List ℚ) (p : ℚ) : ℕ :=
  ((executorCumulativeWeights weights).findIdx? fun cum => p < cum).getD (weights.length - 1)

/-- `shard_count`. The last shard extends to the end of the range. -/
def shardCount (numShards numAccounts idx : ℕ) : ℕ :=
  if idx = numShards - 1 then numAccounts - idx * (numAccounts / numShards)
  else numAccounts / numShards

/-- `src_account_id`, where `x` is drawn within the shard. -/
def srcAccountId (numShards : ℕ) (range : ℕ × ℕ) (idx x : ℕ) : ℕ :=
  (range.1 + idx * (range.2 / numShards) + x) % 2 ^ 64

/-- The account can be drawn as a source for a sub-range. -/
def Draws (weights : List ℚ) (range : ℕ × ℕ) (idx account : ℕ) : Prop :=
  ∃ m : ℕ, m < 2 ^ 53 ∧ ∃ x < shardCount weights.length range.2 idx,
    shardIdx weights ((m : ℚ) / 2 ^ 53) = idx ∧
      srcAccountId weights.length range idx x = account

/-- The partition of the executors. -/
def initialPartition (numExecutors : ℕ) (ranges : List (ℕ × ℕ)) : Option Partition :=
  createInitialPartition (fun x n => computeWorkerForAccount x numExecutors n) ranges

/-! ## What can be drawn -/

variable {k n : ℕ}

theorem length_cumulate (total cum : ℚ) (weights : List ℚ) :
    (cumulate total cum weights).length = weights.length := by
  induction weights generalizing cum with
  | nil => rfl
  | cons w weights ih => exact congrArg (· + 1) (ih _)

theorem shardIdx_lt {weights : List ℚ} (h : 0 < weights.length) (p : ℚ) :
    shardIdx weights p < weights.length := by
  unfold shardIdx
  cases hidx : (executorCumulativeWeights weights).findIdx? fun cum => p < cum with
  | none =>
      rw [Option.getD_none]
      omega
  | some i =>
      obtain ⟨hi, -⟩ := List.findIdx?_eq_some_iff_getElem.mp hidx
      rwa [executorCumulativeWeights, length_cumulate] at hi

/-- Weights for which the second shard is drawn almost always. -/
def skewed (k : ℕ) : List ℚ := 1 :: if k = 1 then [] else 2 ^ 70 :: List.replicate (k - 2) 1

theorem length_skewed (hk : 0 < k) : (skewed k).length = k := by
  unfold skewed
  split
  · rename_i hone
    exact hone.symm
  · rw [List.length_cons, List.length_cons, List.length_replicate]
    omega

theorem pos_skewed (k : ℕ) : ∀ w ∈ skewed k, 0 < w := by
  intro w hw
  unfold skewed at hw
  split at hw
  · rw [List.mem_singleton.mp hw]
    exact one_pos
  · rcases List.mem_cons.mp hw with rfl | hw
    · exact one_pos
    · rcases List.mem_cons.mp hw with rfl | hw
      · positivity
      · rw [List.eq_of_mem_replicate hw]
        exact one_pos

/-- Small weights do not change a large total. -/
theorem foldl_fadd_replicate (j : ℕ) :
    (List.replicate j (1 : ℚ)).foldl Double.fadd (2 ^ 70) = 2 ^ 70 := by
  have habsorb : Double.fadd (2 ^ 70) 1 = 2 ^ 70 := by decide +kernel
  induction j with
  | zero => rfl
  | succ j ih => rw [List.replicate_succ, List.foldl_cons, habsorb, ih]

theorem cumulative_skewed (hk : 2 ≤ k) : ∃ rest,
    executorCumulativeWeights (skewed k) = 1 / 2 ^ 70 :: 1 :: rest := by
  have hone : Double.fadd 0 1 = 1 := by decide +kernel
  have hbig : Double.fadd 1 (2 ^ 70) = 2 ^ 70 := by decide +kernel
  have hfirst : Double.fadd 0 (Double.fdiv 1 (2 ^ 70)) = 1 / 2 ^ 70 := by decide +kernel
  have hsecond : Double.fadd (1 / 2 ^ 70) (Double.fdiv (2 ^ 70) (2 ^ 70)) = 1 := by
    decide +kernel
  refine ⟨cumulate (2 ^ 70) 1 (List.replicate (k - 2) 1), ?_⟩
  unfold executorCumulativeWeights skewed
  rw [if_neg (by omega), List.foldl_cons, List.foldl_cons, hone, hbig, foldl_fadd_replicate]
  simp only [cumulate, hfirst, hsecond]

theorem shardIdx_skewed_zero (hk : 0 < k) : shardIdx (skewed k) 0 = 0 := by
  rcases (show k = 1 ∨ 2 ≤ k by omega) with rfl | htwo
  · decide +kernel
  · obtain ⟨rest, hrest⟩ := cumulative_skewed htwo
    unfold shardIdx
    rw [hrest, List.findIdx?_cons, if_pos (by norm_num)]
    rfl

theorem shardIdx_skewed_half (hk : 2 ≤ k) : shardIdx (skewed k) (1 / 2) = 1 := by
  obtain ⟨rest, hrest⟩ := cumulative_skewed hk
  unfold shardIdx
  rw [hrest, List.findIdx?_cons, if_neg (by norm_num), List.findIdx?_cons,
    if_pos (by norm_num)]
  rfl

theorem draws_zero {range : ℕ × ℕ} (hk : 0 < k) (hkn : k ≤ range.2) (hstart : range.1 < 2 ^ 64) :
    Draws (skewed k) range 0 range.1 := by
  have hq : 0 < range.2 / k := Nat.div_pos hkn hk
  refine ⟨0, by decide, 0, ?_, ?_, ?_⟩
  · rw [length_skewed hk]
    unfold shardCount
    split <;> omega
  · rw [Nat.cast_zero, zero_div]
    exact shardIdx_skewed_zero hk
  · unfold srcAccountId
    rw [Nat.zero_mul, Nat.add_zero, Nat.mod_eq_of_lt hstart]

theorem draws_one {range : ℕ × ℕ} (hk : 2 ≤ k) (hkn : k ≤ range.2)
    (hend : range.1 + range.2 < 2 ^ 64) :
    Draws (skewed k) range 1 (range.1 + range.2 / k) := by
  have hlength : (skewed k).length = k := length_skewed (by omega)
  have hq : 0 < range.2 / k := Nat.div_pos hkn (by omega)
  have hlt : range.2 / k < range.2 := Nat.div_lt_self (by omega) (by omega)
  refine ⟨2 ^ 52, by decide, 0, ?_, ?_, ?_⟩
  · rw [hlength]
    unfold shardCount
    split <;> omega
  · have hhalf : ((2 ^ 52 : ℕ) : ℚ) / 2 ^ 53 = 1 / 2 := by norm_num
    rw [hhalf]
    exact shardIdx_skewed_half hk
  · unfold srcAccountId
    rw [hlength, Nat.one_mul, Nat.add_zero, Nat.mod_eq_of_lt (by omega)]

/-- What is drawn lies in the range, in the slice of the shard if the sizes are the same. -/
theorem Draws.exists_eq {weights : List ℚ} {range : ℕ × ℕ} {idx account : ℕ}
    (h : Draws weights range idx account) (hpos : 0 < weights.length)
    (hdvd : weights.length ∣ range.2) (hend : range.1 + range.2 < 2 ^ 64) :
    idx < weights.length ∧ ∃ x < range.2 / weights.length,
      account = range.1 + idx * (range.2 / weights.length) + x := by
  obtain ⟨m, -, x, hx, hidx, haccount⟩ := h
  have hlt : idx < weights.length := hidx ▸ shardIdx_lt hpos _
  have htotal : weights.length * (range.2 / weights.length) = range.2 :=
    Nat.mul_div_cancel' hdvd
  have hle : (idx + 1) * (range.2 / weights.length) ≤ range.2 :=
    (Nat.mul_le_mul_right _ hlt).trans htotal.le
  rw [Nat.add_mul, Nat.one_mul] at hle
  have hxlt : x < range.2 / weights.length := by
    unfold shardCount at hx
    split at hx
    · rename_i hlast
      have hsub : (idx + 1) * (range.2 / weights.length) = range.2 := by
        rw [hlast, Nat.sub_add_cancel hpos, htotal]
      rw [Nat.add_mul, Nat.one_mul] at hsub
      omega
    · exact hx
  refine ⟨hlt, x, hxlt, ?_⟩
  rw [← haccount]
  unfold srcAccountId
  exact Nat.mod_eq_of_lt (by omega)

/-! ## Shards and slices -/

/-- No two ranges overlap. -/
def Apart (ranges : List (ℕ × ℕ)) : Prop :=
  ranges.Pairwise fun r r' => r.1 + r.2 ≤ r'.1 ∨ r'.1 + r'.2 ≤ r.1

theorem mem_bounds {range : ℕ × ℕ} {account : ℕ} (h : account ∈ accountsOf range) :
    range.1 ≤ account ∧ account < range.1 + range.2 := by
  obtain ⟨hle, hlt⟩ := mem_accountsOf.mp h
  exact ⟨hle, hlt.trans_le (Nat.mod_le _ _)⟩

theorem Apart.disjointRanges {ranges : List (ℕ × ℕ)} (h : Apart ranges) :
    DisjointRanges ranges := by
  refine h.imp fun hapart a ha ha' => ?_
  have := mem_bounds ha
  have := mem_bounds ha'
  omega

theorem Apart.eq_of_mem {ranges : List (ℕ × ℕ)} (h : Apart ranges) {r r' : ℕ × ℕ} {a : ℕ}
    (hr : r ∈ ranges) (hr' : r' ∈ ranges) (ha : r.1 ≤ a ∧ a < r.1 + r.2)
    (ha' : r'.1 ≤ a ∧ a < r'.1 + r'.2) : r = r' := by
  by_contra hne
  have hsymm : Std.Symm fun r r' : ℕ × ℕ => r.1 + r.2 ≤ r'.1 ∨ r'.1 + r'.2 ≤ r.1 :=
    ⟨fun _ _ h => h.symm⟩
  have := h.forall hr hr' hne
  omega

/-- The accounts that the client draws for a sub-range are in the initial partition with the
    executor of that number. -/
def Aligned (numExecutors : ℕ) (ranges : List (ℕ × ℕ)) : Prop :=
  ∃ partition, initialPartition numExecutors ranges = some partition ∧
    ∀ range ∈ ranges, ∀ weights : List ℚ, weights.length = numExecutors →
      (∀ w ∈ weights, 0 < w) → ∀ idx account, Draws weights range idx account →
        partition account = some idx

/-- The sub-ranges of the client are the slices of the executors if and only if these have
    equal sizes, and nothing overflows. -/
theorem aligned_iff (numExecutors : ℕ) (ranges : List (ℕ × ℕ)) (hpos : 1 ≤ numExecutors)
    (hexecutors : numExecutors < 2 ^ 32) (hapart : Apart ranges)
    (hranges : ∀ r ∈ ranges, numExecutors ≤ r.2 ∧ r.1 < 2 ^ 64 ∧ r.2 < 2 ^ 64) :
    Aligned numExecutors ranges ↔ ∀ r ∈ ranges,
      numExecutors ∣ r.2 ∧ r.2 + numExecutors ≤ 2 ^ 64 ∧ r.1 + r.2 < 2 ^ 64 := by
  have hdisjoint := hapart.disjointRanges
  constructor
  · rintro ⟨partition, hpartition, haligned⟩ r hr
    obtain ⟨hall, howner, hout⟩ := (createInitialPartition_eq_some hdisjoint).mp hpartition
    obtain ⟨hk, hstart, hcount⟩ := hranges r hr
    have hdraw : ∀ idx account, Draws (skewed numExecutors) r idx account →
        partition account = some idx :=
      haligned r hr _ (length_skewed hpos) (pos_skewed _)
    have hend : r.1 + r.2 < 2 ^ 64 := by
      by_contra hover
      -- the range is empty for the executors
      have hfirst := hdraw 0 r.1 (draws_zero hpos hk hstart)
      rw [hout r.1] at hfirst
      · cases hfirst
      · intro r' hr' hmem
        obtain rfl := hapart.eq_of_mem hr hr' ⟨le_refl _, by omega⟩ (mem_bounds hmem)
        exact notMem_accountsOf_of_le (not_lt.mp hover) hcount hmem
    have hmem : ∀ x < r.2, r.1 + x ∈ accountsOf r := fun x hx =>
      (mem_accountsOf_of_lt hend).mpr ⟨Nat.le_add_right _ _, by omega⟩
    have hsum : r.2 + numExecutors ≤ 2 ^ 64 := by
      by_contra hover
      have hsome := hall r hr (r.1 + 0) (hmem 0 (by omega))
      rw [computeWorkerForAccount_of_lt hcount (not_le.mp hover) (by omega)] at hsome
      cases hsome
    refine ⟨?_, hsum, hend⟩
    by_contra hdvd
    have htwo : 2 ≤ numExecutors := by
      by_contra hone
      obtain rfl : numExecutors = 1 := by omega
      exact hdvd (one_dvd _)
    -- the first account of the second sub-range is still with the first executor
    have hlt : r.2 / numExecutors < r.2 := Nat.div_lt_self (by omega) htwo
    have hsecond := hdraw 1 _ (draws_one htwo hk hend)
    rw [howner r hr _ (hmem _ hlt), Nat.add_sub_cancel_left,
      computeWorkerForAccount_of_le hpos (by omega) hsum] at hsecond
    have hceil := ceil_of_not_dvd hpos hdvd
    rw [Nat.div_eq_of_lt (by omega)] at hsecond
    cases hsecond
  · intro hcond
    have hworker : ∀ r ∈ ranges, ∀ x, computeWorkerForAccount x numExecutors r.2 =
        some (min (x / (r.2 / numExecutors)) (numExecutors - 1)) := by
      intro r hr x
      obtain ⟨hdvd, hsum, -⟩ := hcond r hr
      rw [computeWorkerForAccount_of_le hpos (hpos.trans (hranges r hr).1) hsum,
        ceil_of_dvd hpos hdvd]
    obtain ⟨partition, hpartition⟩ := exists_createInitialPartition
      (fun x n => computeWorkerForAccount x numExecutors n) ranges fun r hr a _ => by
        rw [hworker r hr]
        rfl
    obtain ⟨-, howner, -⟩ := (createInitialPartition_eq_some hdisjoint).mp hpartition
    refine ⟨partition, hpartition, fun r hr weights hlength _ idx account hdraw => ?_⟩
    obtain ⟨hdvd, -, hend⟩ := hcond r hr
    subst hlength
    obtain ⟨hidx, x, hx, rfl⟩ := hdraw.exists_eq hpos hdvd hend
    have hslice : (idx + 1) * (r.2 / weights.length) ≤ r.2 :=
      (Nat.mul_le_mul_right _ hidx).trans (Nat.mul_div_cancel' hdvd).le
    rw [Nat.add_mul, Nat.one_mul] at hslice
    have hmem := (mem_accountsOf_of_lt hend).mpr
      ⟨Nat.le_add_right r.1 (idx * (r.2 / weights.length) + x), by omega⟩
    rw [← Nat.add_assoc] at hmem
    have hdiv : (idx * (r.2 / weights.length) + x) / (r.2 / weights.length) = idx := by
      rw [Nat.mul_comm, Nat.mul_add_div (by omega), Nat.div_eq_of_lt hx, Nat.add_zero]
    rw [howner r hr _ hmem, Nat.add_assoc, Nat.add_sub_cancel_left, hworker r hr, hdiv,
      Nat.min_eq_left (by omega)]

/-- Four accounts and two executors. -/
theorem aligned_iff_sample : Aligned 2 [(0, 4)] :=
  (aligned_iff 2 [(0, 4)] (by decide) (by decide) (List.pairwise_singleton _ _)
    (by decide)).mpr (by decide)

/-- With five accounts the client draws account 2 for the second sub-range. -/
theorem not_aligned : ¬ ∀ (numExecutors : ℕ) (range : ℕ × ℕ), 1 ≤ numExecutors →
    numExecutors < 2 ^ 32 → numExecutors ≤ range.2 → range.1 < 2 ^ 64 → range.2 < 2 ^ 64 →
    Aligned numExecutors [range] := by
  intro h
  obtain ⟨partition, hpartition, haligned⟩ :=
    h 2 (0, 5) (by decide) (by decide) (by decide) (by decide) (by decide)
  have hdraw : Draws [1, 1] (0, 5) 1 2 :=
    ⟨2 ^ 52, by decide, 0, by decide, by decide +kernel, by decide⟩
  have hsome : partition 2 = some 1 :=
    haligned (0, 5) List.mem_cons_self [1, 1] rfl (by decide) 1 2 hdraw
  have hzero : (initialPartition 2 [(0, 5)]).map (· 2) = some (some 0) := by decide
  rw [hpartition, Option.map_some, hsome] at hzero
  exact absurd hzero (by decide)

end DagBft.Node
