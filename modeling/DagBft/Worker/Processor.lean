/-
  The `Processor` of a worker (`worker/src/processor.rs`): how often the accounts occur as
  the source of a transaction of a batch.

  The counts go to the primary as a map from `u32` to `u16`. `getD_accountCounts` says
  what they count: the transactions whose source has these lower 32 bits, modulo `2 ^ 16`.
  Storing and hashing the batch are left out.
-/
import DagBft.Lib.OrdMap
import DagBft.Worker.Transaction

namespace DagBft.Worker

/-- A message between workers. -/
inductive WorkerMessage
  | batch (txs : List Bytes)
  | batchRequest

/-- The source account of a transaction, if it is long enough to have one. -/
def sourceAccount (tx : Bytes) : Option ℕ :=
  if 18 ≤ tx.length then some (fromBeBytes (slice tx 10 18)) else none

/-- `as u32`. -/
def accountKey (tx : Bytes) : Option ℕ := (sourceAccount tx).map (· % 2 ^ 32)

/-- `*counts.entry(account_id).or_insert(0) += 1`, on `u16`. -/
def countTransaction (counts : OrdMap ℕ ℕ) (tx : Bytes) : OrdMap ℕ ℕ :=
  match accountKey tx with
  | some account => counts.insert account (((counts.get account).getD 0 + 1) % 2 ^ 16)
  | none => counts

/-- Compute the counts from the transactions of a batch, given what `bincode` makes of its
    bytes. In baseline mode they are not computed. -/
def accountCounts (baselineMode : Bool) (message : Option WorkerMessage) : OrdMap ℕ ℕ :=
  if baselineMode then ∅
  else
    match message with
    | some (.batch txs) => txs.foldl countTransaction ∅
    | _ => ∅

theorem accountKey_lt {tx : Bytes} {account : ℕ} (h : accountKey tx = some account) :
    account < 2 ^ 32 := by
  unfold accountKey at h
  obtain ⟨source, -, rfl⟩ := Option.map_eq_some_iff.mp h
  exact Nat.mod_lt _ (Nat.two_pow_pos 32)

/-- For a small account the lower bits are the account. -/
theorem accountKey_eq {tx : Bytes} (h : ∀ source ∈ sourceAccount tx, source < 2 ^ 32) :
    accountKey tx = sourceAccount tx := by
  unfold accountKey
  cases hs : sourceAccount tx with
  | none => rfl
  | some source => rw [Option.map_some, Nat.mod_eq_of_lt (h source hs)]

theorem getD_countTransaction (counts : OrdMap ℕ ℕ) (tx : Bytes) (account : ℕ) :
    ((countTransaction counts tx).get account).getD 0 =
      if accountKey tx = some account then ((counts.get account).getD 0 + 1) % 2 ^ 16
      else (counts.get account).getD 0 := by
  unfold countTransaction
  cases hk : accountKey tx with
  | none => rw [if_neg (by simp)]
  | some key =>
      dsimp only
      rw [OrdMap.get_insert]
      by_cases he : account = key
      · rw [if_pos he, if_pos (congrArg some he.symm), Option.getD_some, he]
      · rw [if_neg he, if_neg fun h => he (Option.some.inj h).symm]

theorem getD_foldl_countTransaction (txs : List Bytes) {counts : OrdMap ℕ ℕ} {account : ℕ}
    (h : (counts.get account).getD 0 < 2 ^ 16) :
    ((txs.foldl countTransaction counts).get account).getD 0 =
      ((counts.get account).getD 0 + txs.countP fun tx => accountKey tx = some account) %
        2 ^ 16 := by
  induction txs generalizing counts with
  | nil => exact (Nat.mod_eq_of_lt h).symm
  | cons tx txs ih =>
      have hstep := getD_countTransaction counts tx account
      have hlt : ((countTransaction counts tx).get account).getD 0 < 2 ^ 16 := by
        rw [hstep]
        split
        · exact Nat.mod_lt _ (Nat.two_pow_pos 16)
        · exact h
      rw [List.foldl_cons, ih hlt, hstep, List.countP_cons]
      by_cases hk : accountKey tx = some account
      · simp only [hk, if_true, decide_true]
        omega
      · simp only [hk, if_false, decide_false, Bool.false_eq_true, Nat.add_zero]

/-- What the counts of a batch say about an account. -/
theorem getD_accountCounts (txs : List Bytes) (account : ℕ) :
    ((accountCounts false (some (.batch txs))).get account).getD 0 =
      (txs.countP fun tx => accountKey tx = some account) % 2 ^ 16 := by
  have hzero : (((∅ : OrdMap ℕ ℕ).get account).getD 0) = 0 := rfl
  have hcount : ((txs.foldl countTransaction ∅).get account).getD 0 = _ :=
    getD_foldl_countTransaction txs (hzero ▸ Nat.two_pow_pos 16)
  rwa [hzero, Nat.zero_add] at hcount

end DagBft.Worker
