/-
  The partitions of the router and of the executors in `executor-replay`
  (`Worker` of `worker/src/worker.rs` and `run` of `node/src/main.rs`).

  The hash of account ids is that of the standard library, a parameter here.
  `shared_partition_iff`: the router cuts all accounts at once and the executors every range
  of a validator for itself; it says when the two are the same. `rangesAgree_iff`: when the
  range that an executor starts from is what it is the worker for.
-/
import DagBft.Config.Partition
import Mathlib.Data.List.Pairwise

namespace DagBft.Replay

open Config

inductive ShardingStrategy
  | range
  | hash
deriving DecidableEq, Repr

section Definitions

variable (hashAccountId : ℕ → ℕ) (strategy : ShardingStrategy) (numExecutors : ℕ)

/-- `compute_worker_for_account`. -/
def computeWorkerBy (accountId numAccounts : ℕ) : Option ℕ :=
  match strategy with
  | .range => computeWorkerForAccount accountId numExecutors numAccounts
  | .hash =>
      if numExecutors = 0 then some 0 else some (hashAccountId accountId % numExecutors)

/-- From which the `WritebackRouter` decides. -/
def routerPartition (numAccounts : ℕ) : Option Partition :=
  createInitialPartition (computeWorkerBy hashAccountId strategy numExecutors) [(0, numAccounts)]

/-- From which the executors decide. -/
def executorPartition (validatorRanges : List (ℕ × ℕ)) : Option Partition :=
  createInitialPartition (computeWorkerBy hashAccountId strategy numExecutors) validatorRanges

/-- The router and the executors have the same partition. -/
def Shared (numAccounts : ℕ) (validatorRanges : List (ℕ × ℕ)) : Prop :=
  ∃ partition, routerPartition hashAccountId strategy numExecutors numAccounts = some partition ∧
    executorPartition hashAccountId strategy numExecutors validatorRanges = some partition

/-- When the slices of the ranges are those of the whole: with one executor, with one range,
    or with two executors and an odd number of accounts of which the first is a range of its
    own; with hashes, when an account and its position in the range have the same executor. -/
def SlicesAgree (numAccounts : ℕ) (validatorRanges : List (ℕ × ℕ)) : Prop :=
  numExecutors = 0 ∨ match strategy with
    | .range => numAccounts = 0 ∨ numAccounts + numExecutors ≤ 2 ^ 64 ∧
        (numExecutors = 1 ∨ (0, numAccounts) ∈ validatorRanges ∨
          numExecutors = 2 ∧ numAccounts % 2 = 1 ∧ (0, 1) ∈ validatorRanges ∧
            (1, numAccounts - 1) ∈ validatorRanges)
    | .hash => ∀ r ∈ validatorRanges, ∀ x < r.2,
        hashAccountId x % numExecutors = hashAccountId (r.1 + x) % numExecutors

end Definitions

/-- The account is in the range. -/
def InRange (r : ℕ × ℕ) (account : ℕ) : Prop := r.1 ≤ account ∧ account < r.1 + r.2

/-- The ranges are disjoint and cover the accounts below a number. -/
structure Tiles (ranges : List (ℕ × ℕ)) (numAccounts : ℕ) : Prop where
  disjoint : ranges.Pairwise fun r r' => ∀ a, InRange r a → ¬ InRange r' a
  cover : ∀ a, a < numAccounts ↔ ∃ r ∈ ranges, InRange r a

/-! ## Ranges that tile -/

variable {ranges : List (ℕ × ℕ)} {r r' : ℕ × ℕ} {a n : ℕ}

theorem Tiles.eq_of_inRange (h : Tiles ranges n) (hr : r ∈ ranges) (hr' : r' ∈ ranges)
    (ha : InRange r a) (ha' : InRange r' a) : r = r' := by
  by_contra hne
  have hsymm : Std.Symm fun r r' : ℕ × ℕ => ∀ a, InRange r a → ¬ InRange r' a :=
    ⟨fun _ _ h a ha ha' => h a ha' ha⟩
  exact h.disjoint.forall hr hr' hne a ha ha'

theorem Tiles.end_le (h : Tiles ranges n) (hr : r ∈ ranges) (hpos : 0 < r.2) :
    r.1 + r.2 ≤ n := by
  have hlast : InRange r (r.1 + r.2 - 1) := ⟨by omega, by omega⟩
  have := (h.cover _).mpr ⟨r, hr, hlast⟩
  omega

theorem Tiles.mem_accountsOf (h : Tiles ranges n) (hn : n < 2 ^ 64) (hr : r ∈ ranges) :
    a ∈ accountsOf r ↔ InRange r a := by
  rcases Nat.eq_zero_or_pos r.2 with hzero | hpos
  · rw [Config.mem_accountsOf, hzero, Nat.add_zero]
    unfold InRange
    rw [hzero, Nat.add_zero]
    have := Nat.mod_le r.1 (2 ^ 64)
    omega
  · exact mem_accountsOf_of_lt (Nat.lt_of_le_of_lt (h.end_le hr hpos) hn)

variable {hashAccountId : ℕ → ℕ} {strategy : ShardingStrategy} {numExecutors : ℕ}

/-- The partitions are the same if and only if the executors of all accounts are. -/
theorem shared_iff (h : Tiles ranges n) (hn : n < 2 ^ 64) :
    Shared hashAccountId strategy numExecutors n ranges ↔
      (∀ a < n, (computeWorkerBy hashAccountId strategy numExecutors a n).isSome) ∧
        ∀ r ∈ ranges, ∀ a, InRange r a →
          computeWorkerBy hashAccountId strategy numExecutors (a - r.1) r.2 =
            computeWorkerBy hashAccountId strategy numExecutors a n := by
  have hdisjoint : DisjointRanges ranges := by
    refine h.disjoint.imp_of_mem fun hr hr' hrr' a ha ha' => ?_
    exact hrr' a ((h.mem_accountsOf hn hr).mp ha) ((h.mem_accountsOf hn hr').mp ha')
  have hwhole : ∀ a, a ∈ accountsOf (0, n) ↔ a < n := by
    intro a
    rw [mem_accountsOf_of_lt (by omega)]
    omega
  have hrouter : ∀ partition,
      routerPartition hashAccountId strategy numExecutors n = some partition ↔
        (∀ a < n, (computeWorkerBy hashAccountId strategy numExecutors a n).isSome) ∧
          (∀ a < n, partition a = computeWorkerBy hashAccountId strategy numExecutors a n) ∧
          ∀ a, ¬ a < n → partition a = none := by
    intro partition
    unfold routerPartition
    rw [createInitialPartition_eq_some (List.pairwise_singleton _ _)]
    simp only [List.mem_singleton, forall_eq, hwhole, Nat.sub_zero]
  constructor
  · rintro ⟨partition, hp, hq⟩
    obtain ⟨hsome, howner, -⟩ := (hrouter partition).mp hp
    obtain ⟨-, howner', -⟩ := (createInitialPartition_eq_some hdisjoint).mp hq
    refine ⟨hsome, fun r hr a ha => ?_⟩
    rw [← howner' r hr a ((h.mem_accountsOf hn hr).mpr ha)]
    exact howner a ((h.cover a).mpr ⟨r, hr, ha⟩)
  · rintro ⟨hsome, heq⟩
    refine ⟨fun a => if a < n then computeWorkerBy hashAccountId strategy numExecutors a n
      else none, (hrouter _).mpr ⟨hsome, fun a ha => if_pos ha, fun a ha => if_neg ha⟩,
      (createInitialPartition_eq_some hdisjoint).mpr ⟨?_, ?_, ?_⟩⟩
    · intro r hr a ha
      have hin := (h.mem_accountsOf hn hr).mp ha
      rw [heq r hr a hin]
      exact hsome a ((h.cover a).mpr ⟨r, hr, hin⟩)
    · intro r hr a ha
      have hin := (h.mem_accountsOf hn hr).mp ha
      rw [heq r hr a hin]
      exact if_pos ((h.cover a).mpr ⟨r, hr, hin⟩)
    · intro a ha
      refine if_neg fun hlt => ?_
      obtain ⟨r, hr, hin⟩ := (h.cover a).mp hlt
      exact ha r hr ((h.mem_accountsOf hn hr).mpr hin)

/-! ## Slices -/

variable {k m : ℕ}

/-- The accounts of a slice, as in `compute_worker_for_account`. -/
theorem ceil_le_iff (hk : 0 < k) (c : ℕ) : (n + k - 1) / k ≤ c ↔ n ≤ k * c := by
  rw [Nat.div_le_iff_le_mul_add_pred hk]
  omega

theorem le_mul_ceil (hk : 0 < k) (n : ℕ) : n ≤ k * ((n + k - 1) / k) :=
  (ceil_le_iff hk _).mp (Nat.le_refl _)

/-- With two executors or more a slice is smaller than what it is cut from. -/
theorem ceil_lt (hk : 2 ≤ k) (hn : 2 ≤ n) : (n + k - 1) / k < n := by
  have hle : (n + k - 1) / k ≤ n - 1 := by
    rw [ceil_le_iff (by omega)]
    calc n ≤ 2 * (n - 1) := by omega
      _ ≤ k * (n - 1) := Nat.mul_le_mul_right _ hk
  omega

theorem ceil_add_le (hk : 0 < k) (m n : ℕ) :
    (m + n + k - 1) / k ≤ (m + k - 1) / k + (n + k - 1) / k := by
  rw [ceil_le_iff hk, Nat.mul_add]
  exact Nat.add_le_add (le_mul_ceil hk m) (le_mul_ceil hk n)

/-- The slice of an account, with at least two executors. -/
theorem min_eq_zero_iff {x d : ℕ} (hk : 2 ≤ k) (hd : 0 < d) :
    min (x / d) (k - 1) = 0 ↔ x < d := by
  have hlt := Nat.div_lt_iff_lt_mul (x := x) (y := 1) hd
  rw [Nat.one_mul] at hlt
  generalize x / d = q at hlt ⊢
  omega

/-- A last range whose slices are those of the whole is all, or all but the first account. -/
theorem last_range (hk : 2 ≤ k) {s : ℕ} (hs : 0 < s) (hm : 0 < m)
    (h : ∀ x < m, min (x / ((m + k - 1) / k)) (k - 1) =
      min ((s + x) / ((s + m + k - 1) / k)) (k - 1)) :
    s = 1 ∧ k = 2 ∧ m % 2 = 0 := by
  have hpos : ∀ {n}, 0 < n → 0 < (n + k - 1) / k := fun hn => Nat.div_pos (by omega) (by omega)
  have hd := hpos hm
  have hD := hpos (show 0 < s + m by omega)
  have hadd := ceil_add_le (show 0 < k by omega) s m
  -- the first account is in the first slice
  have hfirst : s < (s + m + k - 1) / k := by
    have h0 := h 0 hm
    rw [Nat.zero_div, Nat.zero_min] at h0
    exact (min_eq_zero_iff hk hD).mp h0.symm
  have hm2 : 2 ≤ m := by
    by_contra hone
    obtain rfl : m = 1 := by omega
    have := ceil_lt hk (show 2 ≤ s + 1 by omega)
    omega
  have hdm := ceil_lt hk hm2
  -- and so is the last one of the first slice of the range
  have hle : s + (m + k - 1) / k ≤ (s + m + k - 1) / k := by
    have h1 := h ((m + k - 1) / k - 1) (by omega)
    rw [(min_eq_zero_iff hk hd).mpr (by omega)] at h1
    have := (min_eq_zero_iff hk hD).mp h1.symm
    omega
  have hsone : s = 1 := by
    by_contra hne
    have := ceil_lt hk (show 2 ≤ s by omega)
    omega
  subst hsone
  have hone : (1 + k - 1) / k ≤ 1 := (ceil_le_iff (by omega) 1).mpr (by omega)
  have hceil : (1 + m + k - 1) / k = (m + k - 1) / k + 1 := by omega
  have hdvd : k ∣ m := by
    by_contra hndvd
    have hmod := Nat.mod_lt m (show 0 < k by omega)
    have hsplit := Nat.div_add_mod m k
    have hle' : (1 + m + k - 1) / k ≤ m / k + 1 := by
      rw [ceil_le_iff (by omega), Nat.mul_add, Nat.mul_one]
      omega
    have := ceil_of_not_dvd (by omega) hndvd
    omega
  rw [hceil, ceil_of_dvd (by omega) hdvd] at h
  rw [ceil_of_dvd (by omega) hdvd] at hd
  obtain ⟨d, rfl⟩ := hdvd
  rw [Nat.mul_div_cancel_left d (by omega)] at h hd
  have hk2 : k = 2 := by
    by_contra hne
    -- the third slice of the range begins in the second slice of the whole
    have h3 : 3 * d ≤ k * d := Nat.mul_le_mul_right d (by omega)
    have h2 := h (2 * d) (by omega)
    rw [Nat.mul_div_cancel 2 hd] at h2
    have hlt : (1 + 2 * d) / (d + 1) < 2 := by
      rw [Nat.div_lt_iff_lt_mul (by omega)]
      omega
    omega
  subst hk2
  exact ⟨rfl, rfl, Nat.mul_mod_right 2 d⟩

/-! ## When the partitions are the same -/

/-- The slices of the ranges are those of the whole in these cases only. -/
theorem range_agree (htiles : Tiles ranges n) (hpos : 0 < n) (hk : 0 < k)
    (h : ∀ r ∈ ranges, ∀ a, InRange r a → min ((a - r.1) / ((r.2 + k - 1) / k)) (k - 1) =
      min (a / ((n + k - 1) / k)) (k - 1)) :
    k = 1 ∨ (0, n) ∈ ranges ∨
      k = 2 ∧ n % 2 = 1 ∧ (0, 1) ∈ ranges ∧ (1, n - 1) ∈ ranges := by
  refine or_iff_not_imp_left.mpr fun hone => or_iff_not_imp_left.mpr fun hall => ?_
  obtain ⟨⟨s, m⟩, hr, hlast⟩ := (htiles.cover (n - 1)).mp (by omega)
  have hm : 0 < m := by
    have := hlast.1
    have := hlast.2
    omega
  have hend : s + m = n := by
    have := htiles.end_le hr hm
    have := hlast.2
    omega
  subst hend
  have hs : 0 < s := by
    by_contra hzero
    obtain rfl : s = 0 := by omega
    rw [Nat.zero_add] at hall
    exact hall hr
  have hslices : ∀ x < m, min (x / ((m + k - 1) / k)) (k - 1) =
      min ((s + x) / ((s + m + k - 1) / k)) (k - 1) := by
    intro x hx
    have := h (s, m) hr (s + x) ⟨Nat.le_add_right _ _, by omega⟩
    rwa [Nat.add_sub_cancel_left] at this
  obtain ⟨rfl, rfl, heven⟩ := last_range (by omega) hs hm hslices
  -- the range of the first account cannot hold the second one
  obtain ⟨⟨s', m'⟩, hr', hfirst⟩ := (htiles.cover 0).mp (by omega)
  obtain rfl : s' = 0 := Nat.le_zero.mp hfirst.1
  have hm' : m' = 1 := by
    have hpos' := hfirst.2
    by_contra hne
    have heq := htiles.eq_of_inRange hr hr' (a := 1) ⟨Nat.le_refl 1, by omega⟩
      ⟨Nat.zero_le 1, by omega⟩
    exact absurd (congrArg Prod.fst heq) Nat.one_ne_zero
  subst hm'
  rw [Nat.add_sub_cancel_left]
  exact ⟨rfl, by omega, hr', hr⟩

theorem agree_range (htiles : Tiles ranges n) (hk : 0 < k)
    (h : k = 1 ∨ (0, n) ∈ ranges ∨
      k = 2 ∧ n % 2 = 1 ∧ (0, 1) ∈ ranges ∧ (1, n - 1) ∈ ranges)
    (hr : r ∈ ranges) (ha : InRange r a) :
    min ((a - r.1) / ((r.2 + k - 1) / k)) (k - 1) = min (a / ((n + k - 1) / k)) (k - 1) := by
  have hlt : a < n := (htiles.cover a).mpr ⟨r, hr, ha⟩
  rcases h with rfl | hall | ⟨rfl, hodd, hfirst, hrest⟩
  · rw [Nat.sub_self, Nat.min_zero, Nat.min_zero]
  · obtain rfl := htiles.eq_of_inRange hr hall ha ⟨Nat.zero_le a, by omega⟩
    rfl
  · have hD : (n + 2 - 1) / 2 = (n - 1) / 2 + 1 := by omega
    rcases Nat.eq_zero_or_pos a with rfl | hapos
    · rw [Nat.zero_sub, Nat.zero_div, Nat.zero_div]
    · obtain rfl := htiles.eq_of_inRange hr hrest ha ⟨hapos, by omega⟩
      have hd : (n - 1 + 2 - 1) / 2 = (n - 1) / 2 := by omega
      have hzero := min_eq_zero_iff (x := a - 1) (d := (n - 1) / 2) (Nat.le_refl 2) (by omega)
      have hzero' := min_eq_zero_iff (x := a) (d := (n - 1) / 2 + 1) (Nat.le_refl 2) (by omega)
      rw [hD, hd]
      dsimp only
      generalize (a - 1) / ((n - 1) / 2) = q at hzero ⊢
      generalize a / ((n - 1) / 2 + 1) = q' at hzero' ⊢
      omega

/-- The router's partition of the accounts is the executors' if and only if the slices
    agree. -/
theorem shared_partition_iff (hashAccountId : ℕ → ℕ) (strategy : ShardingStrategy)
    (numExecutors numAccounts : ℕ) (validatorRanges : List (ℕ × ℕ))
    (hexecutors : numExecutors < 2 ^ 32) (haccounts : numAccounts < 2 ^ 64)
    (htiles : Tiles validatorRanges numAccounts) :
    Shared hashAccountId strategy numExecutors numAccounts validatorRanges ↔
      SlicesAgree hashAccountId strategy numExecutors numAccounts validatorRanges := by
  rw [shared_iff htiles haccounts]
  unfold SlicesAgree
  rcases Nat.eq_zero_or_pos numExecutors with hzero | hpos
  · refine iff_of_true ?_ (Or.inl hzero)
    cases strategy <;> simp [computeWorkerBy, computeWorkerForAccount, hzero]
  rw [or_iff_right (Nat.ne_of_gt hpos)]
  cases strategy with
  | hash =>
      simp only [computeWorkerBy, if_neg (Nat.ne_of_gt hpos), Option.isSome_some, implies_true,
        true_and, Option.some.injEq]
      refine forall₂_congr fun r hr => ⟨fun h x hx => ?_, fun h a ha => ?_⟩
      · have := h (r.1 + x) ⟨Nat.le_add_right _ _, by omega⟩
        rwa [Nat.add_sub_cancel_left] at this
      · have := h (a - r.1) (by have := ha.1; have := ha.2; omega)
        rwa [Nat.add_sub_cancel' ha.1] at this
  | range =>
      simp only [computeWorkerBy]
      rcases Nat.eq_zero_or_pos numAccounts with rfl | hn
      · refine iff_of_true ⟨fun a ha => absurd ha (Nat.not_lt_zero a), fun r hr a ha => ?_⟩
          (Or.inl rfl)
        exact absurd ((htiles.cover a).mpr ⟨r, hr, ha⟩) (Nat.not_lt_zero a)
      rw [or_iff_right (Nat.ne_of_gt hn)]
      -- without overflow both sides are slices
      have hworker : numAccounts + numExecutors ≤ 2 ^ 64 → ∀ r ∈ validatorRanges, ∀ a,
          InRange r a → (computeWorkerForAccount (a - r.1) numExecutors r.2 =
              computeWorkerForAccount a numExecutors numAccounts ↔
            min ((a - r.1) / ((r.2 + numExecutors - 1) / numExecutors)) (numExecutors - 1) =
              min (a / ((numAccounts + numExecutors - 1) / numExecutors))
                (numExecutors - 1)) := by
        intro hsum r hr a ha
        have hr2 : 0 < r.2 := by
          have := ha.1
          have := ha.2
          omega
        have hle := htiles.end_le hr hr2
        rw [computeWorkerForAccount_of_le hpos hr2 (by omega),
          computeWorkerForAccount_of_le hpos hn hsum, Option.some.injEq]
      constructor
      · rintro ⟨hsome, heq⟩
        have hsum : numAccounts + numExecutors ≤ 2 ^ 64 := by
          by_contra hover
          have h0 := hsome 0 hn
          rw [computeWorkerForAccount_of_lt haccounts (by omega) (by omega)] at h0
          cases h0
        exact ⟨hsum, range_agree htiles hn hpos fun r hr a ha =>
          (hworker hsum r hr a ha).mp (heq r hr a ha)⟩
      · rintro ⟨hsum, hcases⟩
        refine ⟨fun a _ => ?_, fun r hr a ha =>
          (hworker hsum r hr a ha).mpr (agree_range htiles hpos hcases hr ha)⟩
        rw [computeWorkerForAccount_of_le hpos hn hsum]
        rfl

/-- Two ranges, one after the other. -/
theorem tiles_pair (m n : ℕ) : Tiles [(0, m), (m, n)] (m + n) where
  disjoint := by
    rw [List.pairwise_pair]
    intro a ha ha'
    have := ha.2
    have := ha'.1
    omega
  cover a := by
    simp only [List.mem_cons, List.not_mem_nil, or_false, exists_eq_or_imp, exists_eq_left,
      InRange]
    omega

/-- The first range has one account, the second four. -/
theorem shared_partition_iff_sample : Shared id .range 2 5 [(0, 1), (1, 4)] :=
  (shared_partition_iff id .range 2 5 _ (by decide) (by decide) (tiles_pair 1 4)).mpr
    (Or.inr (Or.inr ⟨by decide, Or.inr (Or.inr (by decide))⟩))

/-- With two ranges of two accounts each the router sends the transactions of account 1 to
    executor 0, but executor 1 has it. -/
theorem not_shared_partition : ¬ ∀ (hashAccountId : ℕ → ℕ) (strategy : ShardingStrategy)
    (numExecutors numAccounts : ℕ) (validatorRanges : List (ℕ × ℕ)), numExecutors < 2 ^ 32 →
    numAccounts < 2 ^ 64 → Tiles validatorRanges numAccounts →
    Shared hashAccountId strategy numExecutors numAccounts validatorRanges := by
  intro h
  obtain ⟨partition, hrouter, hexecutor⟩ :=
    h id .range 2 4 [(0, 2), (2, 2)] (by decide) (by decide) (tiles_pair 2 2)
  have hone : (routerPartition id .range 2 4).map (· 1) = some (some 0) := by decide
  have hone' : (executorPartition id .range 2 [(0, 2), (2, 2)]).map (· 1) = some (some 1) := by
    decide
  rw [hrouter, Option.map_some] at hone
  rw [hexecutor, Option.map_some, hone] at hone'
  exact absurd hone' (by decide)

/-! ## The range that an executor starts from -/

/-- The initial shard range `[start, end)` of an executor. -/
def computeInitialShardRange (executorId numExecutors numAccounts : ℕ) : ℕ × ℕ :=
  if numExecutors = 0 then (0, 0)
  else
    let accountsPerShard := (numAccounts + numExecutors - 1) % 2 ^ 64 / numExecutors
    (executorId * accountsPerShard % 2 ^ 64,
      min ((executorId + 1) % 2 ^ 32 * accountsPerShard % 2 ^ 64) numAccounts)

/-- The account lies in the range of the executor. -/
def InShard (executorId numExecutors numAccounts account : ℕ) : Prop :=
  (computeInitialShardRange executorId numExecutors numAccounts).1 ≤ account ∧
    account < (computeInitialShardRange executorId numExecutors numAccounts).2

/-- The ranges are what `compute_worker_for_account` says, no two have an account in common,
    and together they are all accounts. -/
structure RangesAgree (hashAccountId : ℕ → ℕ) (numExecutors numAccounts : ℕ) : Prop where
  worker : ∀ account < numAccounts, ∀ executor < numExecutors,
    (InShard executor numExecutors numAccounts account ↔
      computeWorkerBy hashAccountId .range numExecutors account numAccounts = some executor)
  disjoint : ∀ executor < numExecutors, ∀ executor' < numExecutors, executor ≠ executor' →
    ∀ account, InShard executor numExecutors numAccounts account →
      ¬ InShard executor' numExecutors numAccounts account
  cover : ∀ account, account < numAccounts ↔
    ∃ executor < numExecutors, InShard executor numExecutors numAccounts account

/-- Without overflow the range of an executor is its slice, cut off at the last account. -/
theorem inShard_iff (hk : 0 < k) (hk' : k < 2 ^ 32) (h : n + k ≤ 2 ^ 64) {e : ℕ}
    (he : e < k) (a : ℕ) : InShard e k n a ↔
      (e * ((n + k - 1) / k) ≤ a ∧ a < (e + 1) * ((n + k - 1) / k)) ∧ a < n := by
  have hslices : k * ((n + k - 1) / k) ≤ n + k - 1 := Nat.mul_div_le (n + k - 1) k
  have hend : (e + 1) * ((n + k - 1) / k) ≤ k * ((n + k - 1) / k) := Nat.mul_le_mul_right _ he
  have hstart : e * ((n + k - 1) / k) ≤ (e + 1) * ((n + k - 1) / k) :=
    Nat.mul_le_mul_right _ (Nat.le_succ e)
  unfold InShard computeInitialShardRange
  rw [if_neg (Nat.ne_of_gt hk)]
  dsimp only
  rw [Nat.mod_eq_of_lt (show n + k - 1 < 2 ^ 64 by omega),
    Nat.mod_eq_of_lt (show e + 1 < 2 ^ 32 by omega),
    Nat.mod_eq_of_lt (show e * ((n + k - 1) / k) < 2 ^ 64 by omega),
    Nat.mod_eq_of_lt (show (e + 1) * ((n + k - 1) / k) < 2 ^ 64 by omega), Nat.lt_min, and_assoc]

/-- An account is in the slice that its number is divided into. -/
theorem inShard_iff_div (hk : 0 < k) (hk' : k < 2 ^ 32) (hn : 0 < n) (h : n + k ≤ 2 ^ 64) {e : ℕ}
    (he : e < k) (a : ℕ) : InShard e k n a ↔ a / ((n + k - 1) / k) = e ∧ a < n := by
  have hd : 0 < (n + k - 1) / k := Nat.div_pos (by omega) hk
  rw [inShard_iff hk hk' h he, Nat.div_eq_iff hd]
  refine and_congr_left fun _ => and_congr_right fun _ => ?_
  rw [Nat.succ_mul]
  omega

/-- No account is beyond the last slice. -/
theorem div_ceil_lt (hk : 0 < k) (hn : 0 < n) {a : ℕ} (ha : a < n) :
    a / ((n + k - 1) / k) < k := by
  rw [Nat.div_lt_iff_lt_mul (Nat.div_pos (by omega) hk)]
  exact Nat.lt_of_lt_of_le ha (le_mul_ceil hk n)

/-- The ranges agree with the workers exactly if the number of accounts of a slice does not
    overflow. -/
theorem rangesAgree_iff (hashAccountId : ℕ → ℕ) (numExecutors numAccounts : ℕ)
    (hpos : 0 < numExecutors) (hexecutors : numExecutors < 2 ^ 32) (hn : 0 < numAccounts)
    (haccounts : numAccounts < 2 ^ 64) :
    RangesAgree hashAccountId numExecutors numAccounts ↔ numAccounts + numExecutors ≤ 2 ^ 64 := by
  constructor
  · rintro ⟨-, -, hcover⟩
    by_contra hover
    -- the number of accounts of a slice wraps around to zero
    obtain ⟨e, -, -, hlt⟩ := (hcover 0).mp hn
    have hwrap : (numAccounts + numExecutors - 1) % 2 ^ 64 / numExecutors = 0 := by
      have hmod : (numAccounts + numExecutors - 1) % 2 ^ 64 =
          numAccounts + numExecutors - 1 - 2 ^ 64 := by omega
      rw [hmod]
      exact Nat.div_eq_of_lt (by omega)
    unfold computeInitialShardRange at hlt
    rw [if_neg (Nat.ne_of_gt hpos)] at hlt
    dsimp only at hlt
    rw [hwrap, Nat.mul_zero, Nat.zero_mod, Nat.zero_min] at hlt
    exact Nat.not_lt_zero 0 hlt
  · intro h
    have hshard : ∀ {e}, e < numExecutors → ∀ a, InShard e numExecutors numAccounts a ↔
        a / ((numAccounts + numExecutors - 1) / numExecutors) = e ∧ a < numAccounts :=
      fun he a => inShard_iff_div hpos hexecutors hn h he a
    refine ⟨fun a ha e he => ?_, fun e he e' he' hne a ha ha' => ?_, fun a => ⟨fun ha => ?_, ?_⟩⟩
    · have hlt := div_ceil_lt hpos hn ha
      have hmin : min (a / ((numAccounts + numExecutors - 1) / numExecutors)) (numExecutors - 1) =
          a / ((numAccounts + numExecutors - 1) / numExecutors) := by omega
      rw [hshard he, and_iff_left ha]
      unfold computeWorkerBy
      rw [computeWorkerForAccount_of_le hpos hn h, hmin, Option.some.injEq]
    · exact hne (((hshard he a).mp ha).1.symm.trans ((hshard he' a).mp ha').1)
    · have hlt := div_ceil_lt hpos hn ha
      exact ⟨_, hlt, (hshard hlt a).mpr ⟨rfl, ha⟩⟩
    · rintro ⟨e, he, hin⟩
      exact ((hshard he a).mp hin).2

/-- Three executors and five accounts: the last range has one account only. -/
theorem rangesAgree_iff_sample : RangesAgree id 3 5 :=
  (rangesAgree_iff id 3 5 (by decide) (by decide) (by decide) (by decide)).mpr (by decide)

/-- With two executors and the largest number of accounts all ranges are empty. -/
theorem not_rangesAgree : ¬ ∀ (hashAccountId : ℕ → ℕ) (numExecutors numAccounts : ℕ),
    0 < numExecutors → numExecutors < 2 ^ 32 → 0 < numAccounts → numAccounts < 2 ^ 64 →
    RangesAgree hashAccountId numExecutors numAccounts := by
  intro h
  obtain ⟨e, he, hin⟩ := ((h id 2 (2 ^ 64 - 1) (by decide) (by decide) (by decide)
    (by decide)).cover 0).mp (by decide)
  rcases Nat.lt_succ_iff_lt_or_eq.mp he with he | rfl
  · obtain rfl : e = 0 := by omega
    exact absurd hin.2 (by decide)
  · exact absurd hin.2 (by decide)

end DagBft.Replay
