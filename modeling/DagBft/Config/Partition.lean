/-
  The initial partition of the accounts: `create_initial_partition` of `config/src/lib.rs`,
  and of `executor-replay/config/src/lib.rs`, where the sharding strategy is a parameter.

  The arithmetic is that of the release build, on `u64`. `createInitialPartition_eq_some`:
  where the ranges are disjoint each account is with the executor that its own range gives.
-/
import Mathlib

namespace DagBft.Config

/-- Which executor an account belongs to. -/
abbrev Partition := ℕ → Option ℕ

/-- `compute_worker_for_account`, `none` where it divides by zero. -/
def computeWorkerForAccount (accountId numWorkers numAccounts : ℕ) : Option ℕ :=
  if numWorkers = 0 then some 0
  else
    let accountsPerShard := (numAccounts + numWorkers - 1) % 2 ^ 64 / numWorkers
    if accountsPerShard = 0 then none
    else some (min (accountId / accountsPerShard) (numWorkers - 1))

/-- `account_start..account_start + account_count`. -/
def accountsOf (range : ℕ × ℕ) : List ℕ :=
  List.range' range.1 ((range.1 + range.2) % 2 ^ 64 - range.1)

/-- The inner loop: the accounts of a range are inserted. -/
def insertRange (worker : ℕ → ℕ → Option ℕ) (partition : Partition) (range : ℕ × ℕ) :
    Option Partition :=
  (accountsOf range).foldlM (fun partition account =>
    (worker (account - range.1) range.2).map fun executor =>
      Function.update partition account (some executor)) partition

/-- `create_initial_partition`, given the executor for an account of a range, by its position
    in the range and the size of that. -/
def createInitialPartition (worker : ℕ → ℕ → Option ℕ) (validatorRanges : List (ℕ × ℕ)) :
    Option Partition :=
  validatorRanges.foldlM (insertRange worker) fun _ => none

/-! ## The executor of an account -/

variable {worker : ℕ → ℕ → Option ℕ} {range : ℕ × ℕ} {ranges : List (ℕ × ℕ)}
  {partition partition' : Partition} {account k n : ℕ}

theorem mem_accountsOf :
    account ∈ accountsOf range ↔ range.1 ≤ account ∧ account < (range.1 + range.2) % 2 ^ 64 := by
  unfold accountsOf
  rw [List.mem_range'_1]
  omega

/-- Without overflow. -/
theorem mem_accountsOf_of_lt (h : range.1 + range.2 < 2 ^ 64) :
    account ∈ accountsOf range ↔ range.1 ≤ account ∧ account < range.1 + range.2 := by
  rw [mem_accountsOf, Nat.mod_eq_of_lt h]

/-- A range that overflows is empty. -/
theorem notMem_accountsOf_of_le (h : 2 ^ 64 ≤ range.1 + range.2) (hcount : range.2 < 2 ^ 64) :
    account ∉ accountsOf range := by
  rw [mem_accountsOf]
  omega

/-- The accounts of a shard: `num_accounts / num_workers`, rounded up. -/
theorem computeWorkerForAccount_of_le (hk : 0 < k) (hn : 0 < n) (h : n + k ≤ 2 ^ 64) (x : ℕ) :
    computeWorkerForAccount x k n = some (min (x / ((n + k - 1) / k)) (k - 1)) := by
  have hshard : 0 < (n + k - 1) / k := Nat.div_pos (by omega) hk
  unfold computeWorkerForAccount
  rw [if_neg (Nat.ne_of_gt hk), Nat.mod_eq_of_lt (show n + k - 1 < 2 ^ 64 by omega)]
  exact if_neg (Nat.ne_of_gt hshard)

theorem computeWorkerForAccount_of_lt (hn : n < 2 ^ 64) (h : 2 ^ 64 < n + k) (hk : k < 2 ^ 64)
    (x : ℕ) : computeWorkerForAccount x k n = none := by
  have hwrap : (n + k - 1) % 2 ^ 64 = n + k - 1 - 2 ^ 64 := by omega
  unfold computeWorkerForAccount
  rw [if_neg (by omega), hwrap]
  exact if_pos (Nat.div_eq_of_lt (by omega))

/-- Division rounded up, where nothing is rounded. -/
theorem ceil_of_dvd (hk : 0 < k) (h : k ∣ n) : (n + k - 1) / k = n / k := by
  obtain ⟨m, rfl⟩ := h
  have hsum : k * m + k - 1 = k * m + (k - 1) := by omega
  rw [hsum, Nat.mul_add_div hk, Nat.div_eq_of_lt (Nat.sub_lt hk Nat.one_pos),
    Nat.mul_div_cancel_left m hk, Nat.add_zero]

theorem ceil_of_not_dvd (hk : 0 < k) (h : ¬ k ∣ n) : (n + k - 1) / k = n / k + 1 := by
  have hrest : 0 < n % k := Nat.pos_of_ne_zero fun h0 => h (Nat.dvd_of_mod_eq_zero h0)
  have hlt : n % k < k := Nat.mod_lt _ hk
  have hsplit := Nat.div_add_mod n k
  have hsum : n + k - 1 = k * (n / k) + (k + (n % k - 1)) := by omega
  have hone : (n % k - 1) / k = 0 := Nat.div_eq_of_lt (by omega)
  rw [hsum, Nat.mul_add_div hk, Nat.add_div_left _ hk, hone]

/-- Updating the keys of a list, as far as there are values for them. -/
theorem foldlM_update (value : ℕ → Option ℕ) (l : List ℕ) :
    l.foldlM (fun (m : Partition) a => (value a).map fun v => Function.update m a (some v))
        partition = some partition' ↔
      (∀ a ∈ l, (value a).isSome) ∧
        partition' = fun a => if a ∈ l then value a else partition a := by
  induction l generalizing partition with
  | nil =>
      simp only [List.foldlM_nil, List.not_mem_nil, if_false, false_implies, implies_true,
        true_and]
      exact ⟨fun h => (Option.some.inj h).symm, fun h => congrArg some h.symm⟩
  | cons x l ih =>
      rw [List.foldlM_cons]
      cases hx : value x with
      | none =>
          refine iff_of_false (by simp) fun h => ?_
          have := h.1 x List.mem_cons_self
          rw [hx] at this
          cases this
      | some v =>
          rw [Option.map_some, Option.bind_eq_bind, Option.bind_some, ih, List.forall_mem_cons,
            hx, Option.isSome_some, eq_self true, true_and]
          have hfun : (fun a => if a ∈ l then value a else Function.update partition x (some v) a) =
              fun a => if a ∈ x :: l then value a else partition a := by
            funext a
            by_cases ha : a = x
            · subst ha
              simp [hx]
            · simp [ha]
          rw [hfun]

theorem insertRange_eq_some : insertRange worker partition range = some partition' ↔
    (∀ a ∈ accountsOf range, (worker (a - range.1) range.2).isSome) ∧
      partition' = fun a =>
        if a ∈ accountsOf range then worker (a - range.1) range.2 else partition a :=
  foldlM_update (fun a => worker (a - range.1) range.2) _

theorem exists_createInitialPartition (worker : ℕ → ℕ → Option ℕ) (ranges : List (ℕ × ℕ))
    (h : ∀ r ∈ ranges, ∀ a ∈ accountsOf r, (worker (a - r.1) r.2).isSome) :
    ∃ partition, createInitialPartition worker ranges = some partition := by
  unfold createInitialPartition
  generalize (fun _ => none : Partition) = start
  induction ranges generalizing start with
  | nil => exact ⟨start, rfl⟩
  | cons r ranges ih =>
      rw [List.foldlM_cons, insertRange_eq_some.mpr ⟨h r List.mem_cons_self, rfl⟩]
      exact ih (fun r' hr' => h r' (List.mem_cons_of_mem _ hr')) _

/-- No account is in two ranges. -/
def DisjointRanges (ranges : List (ℕ × ℕ)) : Prop :=
  ranges.Pairwise fun r r' => ∀ a ∈ accountsOf r, a ∉ accountsOf r'

theorem createInitialPartition_eq_some (hdisjoint : DisjointRanges ranges) :
    createInitialPartition worker ranges = some partition ↔
      (∀ r ∈ ranges, ∀ a ∈ accountsOf r, (worker (a - r.1) r.2).isSome) ∧
        (∀ r ∈ ranges, ∀ a ∈ accountsOf r, partition a = worker (a - r.1) r.2) ∧
        ∀ a, (∀ r ∈ ranges, a ∉ accountsOf r) → partition a = none := by
  unfold createInitialPartition
  induction ranges using List.reverseRecOn generalizing partition with
  | nil =>
      simp only [List.foldlM_nil, List.not_mem_nil, false_implies, implies_true, true_and,
        forall_const]
      exact ⟨fun h a => congrFun (Option.some.inj h).symm a,
        fun h => congrArg some (funext fun a => (h a).symm)⟩
  | append_singleton ranges r ih =>
      obtain ⟨hranges, -, hr⟩ := List.pairwise_append.mp hdisjoint
      have hnone : ∀ a ∈ accountsOf r, ∀ r' ∈ ranges, a ∉ accountsOf r' :=
        fun a ha r' hr' ha' => hr r' hr' r (List.mem_singleton_self r) a ha' ha
      have happend : (ranges ++ [r]).foldlM (insertRange worker) (fun _ => none) =
          (ranges.foldlM (insertRange worker) fun _ => none).bind fun p =>
            insertRange worker p r := by
        rw [List.foldlM_append, Option.bind_eq_bind]
        congr 1
        funext p
        rw [List.foldlM_cons]
        exact bind_pure _
      rw [happend, Option.bind_eq_some_iff]
      constructor
      · rintro ⟨p, hp, hinsert⟩
        obtain ⟨hall, howner, hout⟩ := (ih hranges).mp hp
        obtain ⟨hlast, rfl⟩ := insertRange_eq_some.mp hinsert
        refine ⟨fun r' hr' => ?_, fun r' hr' a ha => ?_, fun a ha => ?_⟩
        · rcases List.mem_append.mp hr' with hr' | hr'
          · exact hall r' hr'
          · rw [List.mem_singleton.mp hr']
            exact hlast
        · dsimp only
          rcases List.mem_append.mp hr' with hr' | hr'
          · rw [if_neg fun h => hnone a h r' hr' ha]
            exact howner r' hr' a ha
          · obtain rfl := List.mem_singleton.mp hr'
            rw [if_pos ha]
        · dsimp only
          rw [if_neg (ha r (List.mem_append_right _ (List.mem_singleton_self r)))]
          exact hout a fun r' hr' => ha r' (List.mem_append_left _ hr')
      · rintro ⟨hall, howner, hout⟩
        refine ⟨fun a => if a ∈ accountsOf r then none else partition a,
          (ih hranges).mpr ⟨fun r' hr' => hall r' (List.mem_append_left _ hr'), ?_, ?_⟩,
          insertRange_eq_some.mpr
            ⟨hall r (List.mem_append_right _ (List.mem_singleton_self r)), ?_⟩⟩
        · intro r' hr' a ha
          rw [if_neg fun h => hnone a h r' hr' ha]
          exact howner r' (List.mem_append_left _ hr') a ha
        · intro a ha
          split
          · rfl
          · rename_i har
            refine hout a fun r' hr' => ?_
            rcases List.mem_append.mp hr' with hr' | hr'
            · exact ha r' hr'
            · rwa [List.mem_singleton.mp hr']
        · funext a
          split
          · rename_i ha
            exact howner r (List.mem_append_right _ (List.mem_singleton_self r)) a ha
          · rfl

end DagBft.Config
