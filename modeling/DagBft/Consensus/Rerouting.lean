/-
  Load balancing in consensus (`consensus/src/lib.rs`): the trackers of the certificates
  of the last rounds, and the decision which accounts move to other validators
  (`compute_rerouting`).

  The `HashMap`s are iterated over in no particular order; see `Lib/HashMap`. The doubles
  that are computed here are finite (`Lib/Double`). Counters are `u64` of the release
  build. What is only logged is left out.
-/
import DagBft.Lib.Double
import DagBft.Lib.HashMap
import DagBft.Node.Analyze

namespace DagBft.Consensus

open Node (MigrationNotice)

/-- `u64` arithmetic of the release build. -/
def u64 (n : ℕ) : ℕ := n % 2 ^ 64

/-- The sum of two counters. -/
def addU64 (m n : ℕ) : ℕ := u64 (m + n)

theorem addU64_right_comm (a b c : ℕ) : addU64 (addU64 a b) c = addU64 (addU64 a c) b := by
  unfold addU64 u64
  rw [Nat.mod_add_mod, Nat.mod_add_mod, Nat.add_right_comm]

instance : RightCommutative addU64 := ⟨addU64_right_comm⟩

/-- How many rounds of account history and TPS data to retain for tracking. -/
def trackingWindow : ℕ := 30

/-- How often (in rounds) to evaluate rerouting decisions. -/
def rerouteInterval : ℕ := 60

/-- EMA smoothing factor for queue-delay baseline tracking. -/
def qdEmaAlpha : ℚ := Double.round (3 / 10)

/-- Minimum absolute queue delay (ms) for a validator to be classified as a donor. -/
def minDonorQdMs : ℚ := 30

/-- Safety multiplier on structural excess to cap `shed_target`. -/
def shedCapMultiplier : ℚ := 4

/-- The asserts and `expect`s of the load-balancing task. -/
inductive BalancingPanic
  /-- `latency_matrix missing entry for validator`. -/
  | latencyMatrix
  /-- `median_ts called on empty round`. -/
  | emptyRound
  /-- `get_tps returned Some but no rounds in window`. -/
  | noRound
  /-- `no certificates in last round of window`. -/
  | lastRound
  /-- `first tracked round timestamp missing despite get_tps invariant`. -/
  | firstRound
  /-- An index out of range. -/
  | index
deriving DecidableEq, Repr

/-! ## Trackers -/

/-- The rounds `[stable_round - window, stable_round]`. -/
def InWindow (stableRound r : ℕ) : Prop := stableRound - trackingWindow ≤ r ∧ r ≤ stableRound

instance (stableRound : ℕ) : DecidablePred (InWindow stableRound) := fun r =>
  inferInstanceAs (Decidable (stableRound - trackingWindow ≤ r ∧ r ≤ stableRound))

section Trackers

variable {PublicKey V : Type} [LinearOrder PublicKey]

/-- What is kept for each round and validator. -/
abbrev Rounds (PublicKey V : Type) := HashMap ℕ (HashMap PublicKey V)

namespace Rounds

/-- `self.rounds.entry(round).or_default().insert(origin, x)`. -/
def record (rounds : Rounds PublicKey V) (round : ℕ) (origin : PublicKey) (x : V) :
    Rounds PublicKey V :=
  rounds.insert round (((rounds.lookup round).getD ∅).insert origin x)

/-- Evict entries below `min_round`. -/
def evict (rounds : Rounds PublicKey V) (minRound : ℕ) : Rounds PublicKey V :=
  HashMap.retain rounds (minRound ≤ ·)

/-- What the loops over the rounds of a window come across. -/
def window (rounds : Rounds PublicKey V) (stableRound : ℕ) : Multiset (PublicKey × V) :=
  (HashMap.retain rounds (InWindow stableRound)).entries.bind fun x =>
    x.2.entries.map fun y => (y.1, y.2)

end Rounds

/-- Tracks the throughput and the queue delays that certificates report. -/
structure ValidatorThroughputTracker (PublicKey : Type) where
  /-- Per round and validator `(created_at_ms, tx_count)`. -/
  rounds : Rounds PublicKey (ℕ × ℕ)
  /-- Per round and validator, the average queue delay. -/
  quorumStats : Rounds PublicKey ℕ

/-- Tracks the account counts that certificates report. -/
structure AccountDistributionTracker (PublicKey : Type) where
  dag : Rounds PublicKey (OrdMap ℕ ℕ × ℕ)

/-- The median of some timestamps, `u64`. -/
def medianTs (validators : HashMap PublicKey (ℕ × ℕ)) : Except BalancingPanic ℕ :=
  let timestamps := sorted (· ≤ ·) (validators.entries.map fun x => x.2.1)
  let n := timestamps.length
  if n = 0 then .error .emptyRound
  else if n % 2 = 1 then .ok (timestamps.getD (n / 2) 0)
  else .ok (addU64 (timestamps.getD (n / 2 - 1) 0) (timestamps.getD (n / 2) 0) / 2)

namespace ValidatorThroughputTracker

/-- Median timestamp (ms) for a given round, or `none` if the round has no data. -/
def roundTimestampMs (t : ValidatorThroughputTracker PublicKey) (round : ℕ) :
    Except BalancingPanic (Option ℕ) :=
  match t.rounds.lookup round with
  | none => .ok none
  | some v => (medianTs v).map some

/-- Average queue delay per validator over the window. -/
def avgQueueDelay (t : ValidatorThroughputTracker PublicKey) (stableRound : ℕ) :
    HashMap PublicKey ℚ :=
  let delays : HashMap PublicKey (ℕ × ℕ) :=
    -- the sum and the number of the delays of a validator
    haveI : RightCommutative fun (d : ℕ × ℕ) ms => (addU64 d.1 ms, d.2 + 1) :=
      ⟨fun d a b => congrArg (·, d.2 + 1 + 1) (addU64_right_comm d.1 a b)⟩
    HashMap.accumulate (fun (d : ℕ × ℕ) ms => (addU64 d.1 ms, d.2 + 1)) (0, 0)
      (t.quorumStats.window stableRound) ∅
  HashMap.mapEntries delays fun _ d => Double.fdiv (Double.ofNat d.1) (Double.ofNat d.2)

/-- Per-validator TPS using the certificates of the window. -/
def getTps (t : ValidatorThroughputTracker PublicKey) (stableRound : ℕ) :
    Except BalancingPanic (Option (HashMap PublicKey ℚ)) :=
  let totals := HashMap.accumulate addU64 0
    ((t.rounds.window stableRound).map fun x => (x.1, x.2.2)) ∅
  if totals.keys = ∅ then .ok none
  else do
    let inWindow := HashMap.retain t.rounds (InWindow stableRound)
    let startTs ← match (sorted (· ≤ ·) inWindow.keys.val).head?.bind t.rounds.lookup with
      | none => .error .noRound
      | some v => medianTs v
    let endTs ← match t.rounds.lookup stableRound with
      | none => .error .lastRound
      | some v => medianTs v
    let durationMs := endTs - startTs
    if durationMs = 0 then .ok none
    else
      let durationSecs := Double.fdiv (Double.ofNat durationMs) 1000
      .ok (some (HashMap.mapEntries totals fun _ count =>
        Double.fdiv (Double.ofNat count) durationSecs))

end ValidatorThroughputTracker

/-- Aggregate per-account tx counts per validator over the window. -/
def AccountDistributionTracker.perValidatorAccountCounts
    (t : AccountDistributionTracker PublicKey) (stableRound : ℕ) :
    HashMap PublicKey (HashMap ℕ ℕ) :=
  HashMap.accumulate (fun (m : HashMap ℕ ℕ) s => HashMap.accumulate addU64 0 s m) ∅
    ((t.dag.window stableRound).map fun x => (x.1, (x.2.1.entries : Multiset (ℕ × ℕ)))) ∅

end Trackers

/-! ## Rerouting decisions -/

section Rerouting

variable (PublicKey : Type) [LinearOrder PublicKey]

/-- What `compute_rerouting` reads. -/
structure Report where
  tps : HashMap PublicKey ℚ
  capacities : PublicKey → Option ℕ
  avgQueueDelay : HashMap PublicKey ℚ
  accountLatency : ℕ → Option (OrdMap PublicKey ℕ)
  perValidatorAccountCounts : HashMap PublicKey (HashMap ℕ ℕ)
  sortedKeys : List PublicKey
  f : ℕ
  lastMigrated : HashMap ℕ ℕ
  currentRound : ℕ
  prevAvgQd : HashMap PublicKey ℚ
  deltaTSecs : ℚ

/-- What the loop over donors changes. -/
structure Plan where
  migrations : List (MigrationNotice PublicKey)
  currentAssignments : List (Finset ℕ)
  spareCapacity : PublicKey → ℚ

/-- What the loop over the accounts of a donor changes. -/
structure Shedding extends Plan PublicKey where
  shedSoFar : ℚ

variable {PublicKey}

namespace Report

variable (i : Report PublicKey)

/-- `avg_queue_delay.get(pk)`, 0 by default. -/
def queueDelay (pk : PublicKey) : ℚ := (i.avgQueueDelay.lookup pk).getD 0

/-- `tps.get(pk)`, 0 by default. -/
def tpsOf (pk : PublicKey) : ℚ := (i.tps.lookup pk).getD 0

/-- `capacities.get(pk)` as a double, 0 by default. -/
def capacity (pk : PublicKey) : ℚ := Double.ofNat ((i.capacities pk).getD 0)

/-- The median of the queue delays. -/
def threshDelay : Except BalancingPanic ℚ :=
  let delays := sorted (· ≤ ·) (i.avgQueueDelay.entries.map Sigma.snd)
  match delays[delays.length / 2]? with
  | none => .error .index
  | some d => .ok d

/-- Validators with a queue delay significantly above the median. -/
def isDonor (threshDelay : ℚ) (pk : PublicKey) : Bool :=
  decide (minDonorQdMs ≤ i.queueDelay pk ∧ Double.fmul 2 threshDelay < i.queueDelay pk)

instance : IsTrans PublicKey (Heavier i.queueDelay) := inferInstance

instance : Std.Antisymm (Heavier i.queueDelay) := inferInstance

instance : Std.Total (Heavier i.queueDelay) := inferInstance

/-- Donors, those with the longest delays first. -/
def donors (threshDelay : ℚ) : List PublicKey :=
  sorted (Heavier i.queueDelay)
    ((i.sortedKeys.filter (i.isDonor threshDelay) : List _) : Multiset _)

/-- Spare capacity before anything moves. -/
def spare (pk : PublicKey) : ℚ := Double.fsub (i.capacity pk) (i.tpsOf pk)

def receivers (threshDelay : ℚ) : List PublicKey :=
  i.sortedKeys.filter fun pk =>
    !i.isDonor threshDelay pk && decide (0 < i.spare pk) && decide (pk ∈ i.tps)

/-- Load that the donor takes in beyond what it puts out, from queue-delay growth. -/
def estimatedExcess (donor : PublicKey) : ℚ :=
  let deltaWSecs := Double.fdiv
    (Double.fsub (i.queueDelay donor) ((i.prevAvgQd.lookup donor).getD 0)) 1000
  if 0 < i.deltaTSecs then Double.fdiv (Double.fmul (i.tpsOf donor) deltaWSecs) i.deltaTSecs
  else 0

/-- How much to shed: the excess, capped. -/
def shedTarget (donor : PublicKey) : ℚ :=
  let structuralExcess := max (Double.fsub (i.tpsOf donor) (i.capacity donor)) 0
  min (max (i.estimatedExcess donor) structuralExcess)
    (Double.fmul structuralExcess shedCapMultiplier)

/-- The committed transactions of an account at the donor. -/
def committed (donor : PublicKey) (account : ℕ) : ℕ :=
  (((i.perValidatorAccountCounts.lookup donor).getD ∅).lookup account).getD 0

/-- The share of an account in the load of the donor. -/
def capLoad (donor : PublicKey) (totalCommittedTx account : ℕ) : ℚ :=
  if 0 < totalCommittedTx then
    Double.fdiv (Double.fmul (i.tpsOf donor) (Double.ofNat (i.committed donor account)))
      (Double.ofNat totalCommittedTx)
  else 0

/-- The latency from the clients of an account to a validator, `u64::MAX` if unknown. -/
def latency (account : ℕ) (pk : PublicKey) : ℕ :=
  ((i.accountLatency account).bind fun l => l.get pk).getD (2 ^ 64 - 1)

/-- `min_by`: lowest latency, then most spare capacity; the first of equals. -/
def bestReceiver (account : ℕ) (spareCapacity : PublicKey → ℚ) (eligible : List PublicKey) :
    Option PublicKey :=
  eligible.foldl (fun best r => match best with
    | none => some r
    | some b =>
        if i.latency account r < i.latency account b ∨
          i.latency account r = i.latency account b ∧ spareCapacity b < spareCapacity r
        then some r else some b) none

/-- The loop over the accounts of a donor. -/
def migrateAccounts (receivers : List PublicKey) (donorIdx : ℕ) (shedTarget incomingScale : ℚ)
    (capLoad : ℕ → ℚ) : List ℕ → Shedding PublicKey → Shedding PublicKey
  | [], s => s
  | acct :: accounts, s =>
      if shedTarget ≤ s.shedSoFar then s
      -- Skip accounts that were recently migrated to prevent bouncing
      else if ∃ r ∈ i.lastMigrated.lookup acct, i.currentRound - r < rerouteInterval * 2 then
        migrateAccounts receivers donorIdx shedTarget incomingScale capLoad accounts s
      else if capLoad acct ≤ 0 then s
      else
        let eligible := receivers.filter fun r => capLoad acct ≤ s.spareCapacity r
        let s := match i.bestReceiver acct s.spareCapacity eligible with
          | none => s
          | some recv =>
              { migrations := s.migrations ++ [⟨acct, recv⟩]
                currentAssignments :=
                  (s.currentAssignments.modify donorIdx fun a => a.erase acct).modify
                    (i.sortedKeys.idxOf recv) fun a => insert acct a
                spareCapacity := Function.update s.spareCapacity recv
                  (Double.fsub (s.spareCapacity recv) (capLoad acct))
                shedSoFar := Double.fadd s.shedSoFar (Double.fmul (capLoad acct) incomingScale) }
        migrateAccounts receivers donorIdx shedTarget incomingScale capLoad accounts s

/-- One donor: move its accounts, heaviest first. -/
def migrateDonor (receivers : List PublicKey) (plan : Plan PublicKey) (donor : PublicKey) :
    Plan PublicKey :=
  let donorIdx := i.sortedKeys.idxOf donor
  let donorAccounts := plan.currentAssignments.getD donorIdx ∅
  if i.tpsOf donor ≤ 0 ∨ donorAccounts = ∅ ∨ i.shedTarget donor ≤ 0 then plan
  else
    let totalCommittedTx := (donorAccounts.val.map (i.committed donor)).foldl addU64 0
    let incomingScale :=
      Double.fdiv (Double.fadd (i.tpsOf donor) (max (i.estimatedExcess donor) 0)) (i.tpsOf donor)
    let capLoad := i.capLoad donor totalCommittedTx
    let sortedAccounts := sorted (Heavier capLoad) donorAccounts.val
    (i.migrateAccounts receivers donorIdx (i.shedTarget donor) incomingScale capLoad
      sortedAccounts ⟨plan, 0⟩).toPlan

/-- Compute rerouting decisions: which donors should shed client load to which receivers. -/
def computeRerouting (currentAssignments : List (Finset ℕ)) :
    Except BalancingPanic (List (MigrationNotice PublicKey) × List (Finset ℕ)) :=
  if i.avgQueueDelay.keys.card < 2 * i.f then .ok ([], currentAssignments)
  -- the log of the signals indexes the assignments by validator
  else if currentAssignments.length < i.sortedKeys.length then .error .index
  else do
    let threshDelay ← i.threshDelay
    let donors := i.donors threshDelay
    let receivers := i.receivers threshDelay
    if donors = [] ∨ receivers = [] then .ok ([], currentAssignments)
    else
      let plan := donors.foldl (i.migrateDonor receivers) ⟨[], currentAssignments, i.spare⟩
      .ok (plan.migrations, plan.currentAssignments)

end Report

end Rerouting

end DagBft.Consensus
