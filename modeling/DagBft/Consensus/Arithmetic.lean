/-
  The load-balancing task of consensus with every addition, subtraction and division of
  integers checked, and no division of doubles by zero: `record`, `avg_queue_delay`, `get_tps`
  and `compute_rerouting` of `consensus/src/lib.rs`.

  Numbers that are added up one after the other overflow if and only if their sum does, in
  whatever order they come (`foldlM_addChecked`, `foldlM_tally`): the checks are on the sums.
  Saturating subtractions cannot fail.

  Each checked function is the unchecked one where the reports are `Moderate`.
-/
import DagBft.Consensus.Balancing
import DagBft.Consensus.Robust
import DagBft.Lib.Accumulate
import DagBft.Lib.Rounding

namespace DagBft.Consensus

open Node (MigrationNotice)

/-! ## Operations -/

/-- `*` on `usize`, with the check. -/
def mulChecked (m n : ℕ) : Except Trap ℕ :=
  if m * n < 2 ^ 64 then .ok (m * n) else .error .overflow

/-- `sum()` on `u64`, with the checks. -/
def sumChecked (s : Multiset ℕ) : Except Trap ℕ :=
  if s.sum < 2 ^ 64 then .ok s.sum else .error .overflow

/-- `/` on doubles. -/
def divChecked (x y : ℚ) : Except Trap ℚ :=
  if y = 0 then .error .divisionByZero else .ok (Double.fdiv x y)

section Tally

variable {K : Type} [DecidableEq K]

/-- `*entry(k).or_insert(0) += n` for some keys and numbers, with the checks. -/
def tallyChecked (s : Multiset (K × ℕ)) : Except Trap (HashMap K ℕ) :=
  if ∀ x ∈ s, (HashMap.valuesAt s x.1).sum < 2 ^ 64 then .ok (HashMap.accumulate addU64 0 s ∅)
  else .error .overflow

end Tally

/-! ## The trackers -/

section Trackers

variable {PublicKey Digest Signature : Type} [LinearOrder PublicKey] [LinearOrder Digest]

/-- `record`, where the number of transactions is added up. -/
def Trackers.recordChecked (t : Trackers PublicKey) (c : Certificate PublicKey Digest Signature) :
    Except Trap (Trackers PublicKey) := do
  let _ ← sumChecked (c.header.accountCounts.entries.map Prod.snd : List ℕ)
  .ok (t.record c)

namespace ValidatorThroughputTracker

variable (t : ValidatorThroughputTracker PublicKey) (stableRound : ℕ)

/-- Collect per-certificate average queue delays per validator over the window. -/
def getAvgQueueDelays : HashMap PublicKey (Multiset ℕ) :=
  haveI : RightCommutative fun (ms : Multiset ℕ) d => d ::ₘ ms :=
    ⟨fun ms a b => Multiset.cons_swap b a ms⟩
  HashMap.accumulate (fun (ms : Multiset ℕ) d => d ::ₘ ms) 0 (t.quorumStats.window stableRound) ∅

def avgQueueDelayChecked : Except Trap (HashMap PublicKey ℚ) :=
  let delays := HashMap.filter (t.getAvgQueueDelays stableRound) fun _ ms => 0 < ms.card
  if ∀ x ∈ delays.entries, x.2.sum < 2 ^ 64 then
    if ∀ x ∈ delays.entries, Double.ofNat x.2.card ≠ 0 then
      .ok (HashMap.mapEntries delays fun _ ms =>
        Double.fdiv (Double.ofNat ms.sum) (Double.ofNat ms.card))
    else .error .divisionByZero
  else .error .overflow

def roundTimestampMsChecked (round : ℕ) : Except Trap (Option ℕ) :=
  match t.rounds.lookup round with
  | none => .ok none
  | some v => (medianTsChecked v).map some

def getTpsChecked : Except Trap (Option (HashMap PublicKey ℚ)) := do
  let totals ← tallyChecked ((t.rounds.window stableRound).map fun x => (x.1, x.2.2))
  if totals.keys = ∅ then .ok none
  else do
    let inWindow := HashMap.retain t.rounds (InWindow stableRound)
    let startTs ← match (sorted (· ≤ ·) inWindow.keys.val).head?.bind t.rounds.lookup with
      | none => .error (.panic .noRound)
      | some v => medianTsChecked v
    let endTs ← match t.rounds.lookup stableRound with
      | none => .error (.panic .lastRound)
      | some v => medianTsChecked v
    let durationMs := endTs - startTs
    if durationMs = 0 then .ok none
    else do
      let durationSecs ← divChecked (Double.ofNat durationMs) 1000
      -- every count is divided by it
      if durationSecs = 0 then .error .divisionByZero
      else .ok (some (HashMap.mapEntries totals fun _ count =>
        Double.fdiv (Double.ofNat count) durationSecs))

end ValidatorThroughputTracker

end Trackers

/-! ## Rerouting decisions -/

namespace Report

variable {PublicKey : Type} [LinearOrder PublicKey] (i : Report PublicKey)

def estimatedExcessChecked (donor : PublicKey) : Except Trap ℚ := do
  let deltaWSecs ← divChecked
    (Double.fsub (i.queueDelay donor) ((i.prevAvgQd.lookup donor).getD 0)) 1000
  if 0 < i.deltaTSecs then divChecked (Double.fmul (i.tpsOf donor) deltaWSecs) i.deltaTSecs
  else .ok 0

def capLoadChecked (donor : PublicKey) (totalCommittedTx account : ℕ) : Except Trap ℚ :=
  if 0 < totalCommittedTx then
    divChecked (Double.fmul (i.tpsOf donor) (Double.ofNat (i.committed donor account)))
      (Double.ofNat totalCommittedTx)
  else .ok 0

def migrateDonorChecked (receivers : List PublicKey) (plan : Plan PublicKey) (donor : PublicKey) :
    Except Trap (Plan PublicKey) :=
  let donorIdx := i.sortedKeys.idxOf donor
  let donorAccounts := plan.currentAssignments.getD donorIdx ∅
  if i.tpsOf donor ≤ 0 ∨ donorAccounts = ∅ then .ok plan
  else do
    let estimatedExcess ← i.estimatedExcessChecked donor
    let structuralExcess := max (Double.fsub (i.tpsOf donor) (i.capacity donor)) 0
    let shedTarget := min (max estimatedExcess structuralExcess)
      (Double.fmul structuralExcess shedCapMultiplier)
    if shedTarget ≤ 0 then .ok plan
    else do
      let totalCommittedTx ← sumChecked (donorAccounts.val.map (i.committed donor))
      let incomingScale ←
        divChecked (Double.fadd (i.tpsOf donor) (max estimatedExcess 0)) (i.tpsOf donor)
      -- `acct_cap_load`, for every account
      if ∀ account ∈ donorAccounts, (i.capLoadChecked donor totalCommittedTx account).isOk then
        let capLoad := i.capLoad donor totalCommittedTx
        let sortedAccounts := sorted (Heavier capLoad) donorAccounts.val
        .ok (i.migrateAccounts receivers donorIdx shedTarget incomingScale capLoad
          sortedAccounts ⟨plan, 0⟩).toPlan
      else .error .divisionByZero

def computeReroutingChecked (currentAssignments : List (Finset ℕ)) :
    Except Trap (List (MigrationNotice PublicKey) × List (Finset ℕ)) := do
  let reports ← mulChecked 2 i.f
  if i.avgQueueDelay.keys.card < reports then .ok ([], currentAssignments)
  else if currentAssignments.length < i.sortedKeys.length then .error (.panic .index)
  else do
    let threshDelay ← i.threshDelay.mapError Trap.panic
    let donors := i.donors threshDelay
    let receivers := i.receivers threshDelay
    if donors = [] ∨ receivers = [] then .ok ([], currentAssignments)
    else do
      let plan ← donors.foldlM (i.migrateDonorChecked receivers) ⟨[], currentAssignments, i.spare⟩
      .ok (plan.migrations, plan.currentAssignments)

end Report

/-! ## The task -/

section Task

variable {PublicKey Digest Signature : Type} [LinearOrder PublicKey] [LinearOrder Digest]

def evaluateChecked (cfg : BalancingSettings PublicKey) (t : Trackers PublicKey)
    (m : Memory PublicKey) (round createdAt : ℕ) (tps : HashMap PublicKey ℚ) :
    Except Trap (List (MigrationNotice PublicKey) × Memory PublicKey) := do
  let stableRound := round - 2
  let avgQd ← t.throughput.avgQueueDelayChecked stableRound
  let currentTsMs := (← t.throughput.roundTimestampMsChecked stableRound).getD createdAt
  let deltaTSecs ← match m.prevEvalTsMs with
    | some prev => divChecked (Double.ofNat (currentTsMs - prev)) 1000
    | none => do
        match ← t.throughput.roundTimestampMsChecked (stableRound - trackingWindow) with
        | none => .error (.panic .firstRound)
        | some firstTs => divChecked (Double.ofNat (currentTsMs - firstTs)) 1000
  let (migrations, currentAssignments) ← Report.computeReroutingChecked
    { tps := tps
      capacities := cfg.validatorCapacities
      avgQueueDelay := avgQd
      accountLatency := cfg.accountLatency
      perValidatorAccountCounts := t.accounts.perValidatorAccountCounts stableRound
      sortedKeys := cfg.committee.keys
      f := (cfg.committee.size - 1) / 3
      lastMigrated := m.lastMigrated
      currentRound := round
      prevAvgQd := m.prevAvgQd
      deltaTSecs := deltaTSecs } m.currentAssignments
  .ok (migrations,
    { lastMigrated := migrations.foldl (fun l n => l.insert n.accountId round) m.lastMigrated
      prevAvgQd := HashMap.mapEntries avgQd (fun pk qd =>
        Double.fadd (Double.fmul qdEmaAlpha qd)
          (Double.fmul (Double.fsub 1 qdEmaAlpha) ((m.prevAvgQd.lookup pk).getD qd))) ∪ m.prevAvgQd
      prevEvalTsMs := some currentTsMs
      currentAssignments := currentAssignments })

def triggerChecked (cfg : BalancingSettings PublicKey) (t : Trackers PublicKey)
    (m : Memory PublicKey) (round createdAt : ℕ) :
    Except Trap (Evaluation PublicKey × Memory PublicKey) := do
  match ← t.throughput.getTpsChecked (round - 2) with
  | none => .ok (⟨round, none, m.currentAssignments⟩, m)
  | some tps => do
      let (migrations, m') ← evaluateChecked cfg t m round createdAt tps
      .ok (⟨round, some migrations, m'.currentAssignments⟩, m')

def onCertificateChecked (cfg : BalancingSettings PublicKey) (name : PublicKey)
    (s : Balancer PublicKey) (c : Certificate PublicKey Digest Signature) :
    Except Trap (Balancer PublicKey) := do
  let t ← s.trackers.recordChecked c
  if c.origin ≠ name then .ok { s with trackers := t }
  else do
    -- log TPS
    if c.round % trackingWindow = 0 then
      let _ ← t.throughput.getTpsChecked (c.round - 2)
    if c.round % rerouteInterval ≠ 0 then .ok { s with trackers := t }
    else do
      let (e, m) ← triggerChecked cfg t s.memory c.round c.header.createdAt
      .ok
        { trackers := t.evict (c.round - 2 - trackingWindow)
          memory := m
          evaluations := s.evaluations ++ [e] }

/-- The task after some certificates, with checks. -/
def balanceChecked (cfg : BalancingSettings PublicKey) (name : PublicKey)
    (received : List (Certificate PublicKey Digest Signature)) :
    Except Trap (Balancer PublicKey) := do
  received.foldlM (onCertificateChecked cfg name) (← cfg.initial.mapError Trap.panic)

end Task

/-! ## Sums -/

theorem u64_of_lt {n : ℕ} (h : n < 2 ^ 64) : u64 n = n := Nat.mod_eq_of_lt h

theorem foldl_addU64 (s : Multiset ℕ) (n : ℕ) : s.foldl addU64 (u64 n) = u64 (n + s.sum) := by
  induction s using Multiset.induction_on generalizing n with
  | empty => rfl
  | cons m s ih =>
      have hadd : addU64 (u64 n) m = u64 (n + m) := by
        unfold addU64 u64
        rw [Nat.mod_add_mod]
      rw [Multiset.foldl_cons, hadd, ih, Multiset.sum_cons, Nat.add_assoc]

theorem foldl_addU64_zero (s : Multiset ℕ) : s.foldl addU64 0 = u64 s.sum := by
  have := foldl_addU64 s 0
  rwa [Nat.zero_add] at this

/-- Adding one after the other, in any order, overflows if and only if the sum does. -/
theorem foldlM_addChecked (l : List ℕ) : l.foldlM addChecked 0 = sumChecked l := by
  induction l using List.reverseRecOn with
  | nil => rfl
  | append_singleton l n ih =>
      have hsum : ((l ++ [n] : List ℕ) : Multiset ℕ).sum = (l : Multiset ℕ).sum + n := by
        rw [Multiset.sum_coe, Multiset.sum_coe, List.sum_append, List.sum_singleton]
      rw [List.foldlM_append, ih]
      unfold sumChecked
      rw [hsum]
      by_cases h : (l : Multiset ℕ).sum < 2 ^ 64
      · rw [if_pos h]
        show [n].foldlM addChecked (l : Multiset ℕ).sum = _
        rw [List.foldlM_cons]
        exact bind_pure _
      · rw [if_neg h, if_neg (by omega)]
        rfl

theorem sumChecked_of_lt {s : Multiset ℕ} (h : s.sum < 2 ^ 64) : sumChecked s = .ok s.sum :=
  if_pos h

section Tally

variable {K : Type} [DecidableEq K]

theorem tallyChecked_of_lt {s : Multiset (K × ℕ)}
    (h : ∀ k, (HashMap.valuesAt s k).sum < 2 ^ 64) :
    tallyChecked s = .ok (HashMap.accumulate addU64 0 s ∅) := by
  unfold tallyChecked
  exact if_pos fun (x : K × ℕ) _ => h x.1

theorem lookup_tally (s : Multiset (K × ℕ)) (k : K) :
    ((HashMap.accumulate addU64 0 s ∅).lookup k).getD 0 = u64 (HashMap.valuesAt s k).sum := by
  rw [HashMap.lookup_accumulate, Finmap.lookup_empty, Option.getD_none, foldl_addU64_zero]
  split
  · rename_i hzero
    rw [Multiset.card_eq_zero.mp hzero]
    rfl
  · rfl

/-- So does adding to the entries of a map. -/
theorem foldlM_tally (l : List (K × ℕ)) :
    l.foldlM (fun (m : HashMap K ℕ) x =>
      (addChecked ((m.lookup x.1).getD 0) x.2).map fun n => m.insert x.1 n) ∅ =
      tallyChecked (l : Multiset (K × ℕ)) := by
  induction l using List.reverseRecOn with
  | nil => rfl
  | append_singleton l x ih =>
      have hcoe : ((l ++ [x] : List (K × ℕ)) : Multiset (K × ℕ)) = (l : Multiset (K × ℕ)) + {x} :=
        (Multiset.coe_add l [x]).symm
      have hself : (HashMap.valuesAt ((l : Multiset (K × ℕ)) + {x}) x.1).sum =
          (HashMap.valuesAt (l : Multiset (K × ℕ)) x.1).sum + x.2 := by
        rw [HashMap.valuesAt_add, ← Multiset.cons_zero x, HashMap.valuesAt_cons_self,
          HashMap.valuesAt_zero, Multiset.cons_zero, Multiset.sum_add, Multiset.sum_singleton]
      have hother : ∀ k, k ≠ x.1 → HashMap.valuesAt ((l : Multiset (K × ℕ)) + {x}) k =
          HashMap.valuesAt (l : Multiset (K × ℕ)) k := by
        intro k hk
        rw [HashMap.valuesAt_add, ← Multiset.cons_zero x,
          HashMap.valuesAt_cons_of_ne _ _ (Ne.symm hk), HashMap.valuesAt_zero, add_zero]
      have hle : ∀ k, (HashMap.valuesAt (l : Multiset (K × ℕ)) k).sum ≤
          (HashMap.valuesAt ((l : Multiset (K × ℕ)) + {x}) k).sum := by
        intro k
        rw [HashMap.valuesAt_add, Multiset.sum_add]
        exact Nat.le_add_right _ _
      rw [List.foldlM_append, ih, hcoe]
      unfold tallyChecked
      by_cases hall : ∀ y ∈ (l : Multiset (K × ℕ)),
          (HashMap.valuesAt (l : Multiset (K × ℕ)) y.1).sum < 2 ^ 64
      · have hlt : ∀ k, (HashMap.valuesAt (l : Multiset (K × ℕ)) k).sum < 2 ^ 64 := by
          intro k
          by_cases hk : ∃ y ∈ (l : Multiset (K × ℕ)), y.1 = k
          · obtain ⟨y, hy, rfl⟩ := hk
            exact hall y hy
          · push Not at hk
            rw [HashMap.valuesAt_eq_zero hk, Multiset.sum_zero]
            decide
        rw [if_pos hall]
        show [x].foldlM (fun (m : HashMap K ℕ) x =>
          (addChecked ((m.lookup x.1).getD 0) x.2).map fun n => m.insert x.1 n)
            (HashMap.accumulate addU64 0 (l : Multiset (K × ℕ)) ∅) = _
        rw [List.foldlM_cons, lookup_tally, u64_of_lt (hlt x.1)]
        unfold addChecked
        rw [← hself]
        by_cases hx : (HashMap.valuesAt ((l : Multiset (K × ℕ)) + {x}) x.1).sum < 2 ^ 64
        · have hcond : ∀ y ∈ (l : Multiset (K × ℕ)) + {x},
              (HashMap.valuesAt ((l : Multiset (K × ℕ)) + {x}) y.1).sum < 2 ^ 64 := by
            intro y _
            by_cases hy : y.1 = x.1
            · rwa [hy]
            · rw [hother _ hy]
              exact hlt y.1
          have hupdate : HashMap.accumulate addU64 0 ({x} : Multiset (K × ℕ))
              (HashMap.accumulate addU64 0 (l : Multiset (K × ℕ)) ∅) =
              (HashMap.accumulate addU64 0 (l : Multiset (K × ℕ)) ∅).insert x.1
                (HashMap.valuesAt ((l : Multiset (K × ℕ)) + {x}) x.1).sum := by
            rw [← Multiset.cons_zero x, HashMap.accumulate_cons, Multiset.cons_zero]
            unfold HashMap.update
            rw [lookup_tally, u64_of_lt (hlt x.1), hself]
            unfold addU64
            rw [u64_of_lt (hself ▸ hx)]
            rfl
          rw [if_pos hx, if_pos hcond, HashMap.accumulate_add, hupdate]
          rfl
        · rw [if_neg hx, if_neg fun h => hx (h x (Multiset.mem_add.mpr
            (Or.inr (Multiset.mem_singleton_self x))))]
          rfl
      · rw [if_neg hall, if_neg fun h => hall fun y hy => ?_]
        · rfl
        · exact (hle y.1).trans_lt (h y (Multiset.mem_add.mpr (Or.inl hy)))

end Tally

/-! ## The trackers without overflow -/

section Trackers

variable {PublicKey : Type} [LinearOrder PublicKey]

/-- The numbers of transactions over a window stay below `2 ^ 64`, and the medians are computed
    without overflow. -/
structure Moderate (t : Trackers PublicKey) (stableRound : ℕ) : Prop where
  counts : ∀ pk, (HashMap.valuesAt ((t.throughput.rounds.window stableRound).map
    fun x => (x.1, x.2.2)) pk).sum < 2 ^ 64
  medians : ∀ r, InWindow stableRound r → ∀ v, t.throughput.rounds.lookup r = some v →
    medianTsChecked v = (medianTs v).mapError Trap.panic
  committed : ∀ pk (accounts : Finset ℕ), (accounts.val.map fun account =>
    ((((t.accounts.perValidatorAccountCounts stableRound).lookup pk).getD ∅).lookup
      account).getD 0).sum < 2 ^ 64

theorem one_le_ofNat {n : ℕ} (h : 0 < n) : 1 ≤ Double.ofNat n := by
  have hone : Double.round 1 = 1 := by decide +kernel
  rw [← hone]
  exact Double.round_le_round zero_le_one (by exact_mod_cast h)

theorem ofNat_ne_zero {n : ℕ} (h : 0 < n) : Double.ofNat n ≠ 0 :=
  (zero_lt_one.trans_le (one_le_ofNat h)).ne'

/-- A duration of a millisecond or more is not rounded to zero. -/
theorem durationSecs_ne_zero {n : ℕ} (h : 0 < n) :
    Double.fdiv (Double.ofNat n) 1000 ≠ 0 := by
  have hsmall : 0 < Double.round (1 / 1000) := by decide +kernel
  have hle : Double.round (1 / 1000) ≤ Double.fdiv (Double.ofNat n) 1000 :=
    Double.round_le_round (by norm_num)
      (div_le_div_of_nonneg_right (one_le_ofNat h) (by norm_num))
  exact (hsmall.trans_le hle).ne'

theorem divChecked_of_ne {x y : ℚ} (h : y ≠ 0) : divChecked x y = .ok (Double.fdiv x y) :=
  if_neg h

namespace ValidatorThroughputTracker

variable (t : ValidatorThroughputTracker PublicKey) (stableRound : ℕ)

theorem lookup_getAvgQueueDelays (pk : PublicKey) :
    (t.getAvgQueueDelays stableRound).lookup pk =
      if (HashMap.valuesAt (t.quorumStats.window stableRound) pk).card = 0 then none
      else some (HashMap.valuesAt (t.quorumStats.window stableRound) pk) := by
  have hcons : ∀ s ms : Multiset ℕ,
      haveI : RightCommutative fun (ms : Multiset ℕ) d => d ::ₘ ms :=
        ⟨fun ms a b => Multiset.cons_swap b a ms⟩
      s.foldl (fun (ms : Multiset ℕ) d => d ::ₘ ms) ms = s + ms := by
    intro s
    induction s using Multiset.induction_on with
    | empty => exact fun ms => (zero_add ms).symm
    | cons d s ih =>
        intro ms
        rw [Multiset.foldl_cons, ih, Multiset.add_cons, Multiset.cons_add]
  unfold getAvgQueueDelays
  rw [HashMap.lookup_accumulate, hcons, Finmap.lookup_empty, Option.getD_none, add_zero]

theorem lookup_avgQueueDelay (pk : PublicKey) :
    (t.avgQueueDelay stableRound).lookup pk =
      if (HashMap.valuesAt (t.quorumStats.window stableRound) pk).card = 0 then none
      else some (Double.fdiv
        (Double.ofNat (u64 (HashMap.valuesAt (t.quorumStats.window stableRound) pk).sum))
        (Double.ofNat (HashMap.valuesAt (t.quorumStats.window stableRound) pk).card)) := by
  have hpair : ∀ (s : Multiset ℕ) (n k : ℕ),
      haveI : RightCommutative fun (d : ℕ × ℕ) ms => (addU64 d.1 ms, d.2 + 1) :=
        ⟨fun d a b => congrArg (·, d.2 + 1 + 1) (addU64_right_comm d.1 a b)⟩
      s.foldl (fun (d : ℕ × ℕ) ms => (addU64 d.1 ms, d.2 + 1)) (n, k) =
        (s.foldl addU64 n, k + s.card) := by
    intro s
    induction s using Multiset.induction_on with
    | empty => exact fun n k => rfl
    | cons d s ih =>
        intro n k
        rw [Multiset.foldl_cons, ih, Multiset.foldl_cons, Multiset.card_cons]
        exact congrArg (_, ·) (by omega)
  unfold avgQueueDelay
  dsimp only
  rw [HashMap.lookup_mapEntries, HashMap.lookup_accumulate, Finmap.lookup_empty]
  split
  · rfl
  · rw [Option.getD_none, hpair, foldl_addU64_zero, Nat.zero_add]
    rfl

variable {t stableRound}

theorem avgQueueDelayChecked_eq
    (h : ∀ pk, (HashMap.valuesAt (t.quorumStats.window stableRound) pk).sum < 2 ^ 64) :
    t.avgQueueDelayChecked stableRound = .ok (t.avgQueueDelay stableRound) := by
  have hentries : ∀ x ∈ (HashMap.filter (t.getAvgQueueDelays stableRound)
      fun _ ms => 0 < ms.card).entries,
      x.2.sum < 2 ^ 64 ∧ Double.ofNat x.2.card ≠ 0 := by
    rintro ⟨pk, ms⟩ hx
    obtain ⟨hms, hcard⟩ := HashMap.lookup_filter_eq_some.mp (Finmap.lookup_eq_some_iff.mpr hx)
    rw [lookup_getAvgQueueDelays] at hms
    split at hms
    · cases hms
    · obtain rfl := Option.some.inj hms
      exact ⟨h pk, ofNat_ne_zero hcard⟩
  unfold avgQueueDelayChecked
  dsimp only
  rw [if_pos fun x hx => (hentries x hx).1, if_pos fun x hx => (hentries x hx).2]
  refine congrArg Except.ok (Finmap.ext_lookup fun pk => ?_)
  rw [HashMap.lookup_mapEntries, lookup_avgQueueDelay, u64_of_lt (h pk)]
  cases hf : (HashMap.filter (t.getAvgQueueDelays stableRound)
      fun _ ms => 0 < ms.card).lookup pk with
  | none =>
      split
      · rfl
      · rename_i hcard
        have hlookup := t.lookup_getAvgQueueDelays stableRound pk
        rw [if_neg hcard] at hlookup
        have := HashMap.lookup_filter_eq_some (p := fun _ ms => 0 < ms.card).mpr
          ⟨hlookup, Nat.pos_of_ne_zero hcard⟩
        rw [hf] at this
        cases this
  | some ms =>
      obtain ⟨hms, hcard⟩ := HashMap.lookup_filter_eq_some.mp hf
      rw [lookup_getAvgQueueDelays] at hms
      split at hms
      · cases hms
      · rename_i hne
        obtain rfl := Option.some.inj hms
        rw [if_neg hne]
        rfl

theorem avgQueueDelayChecked_overflow {pk : PublicKey}
    (h : 2 ^ 64 ≤ (HashMap.valuesAt (t.quorumStats.window stableRound) pk).sum) :
    t.avgQueueDelayChecked stableRound = .error .overflow := by
  have hcard : (HashMap.valuesAt (t.quorumStats.window stableRound) pk).card ≠ 0 := by
    intro hzero
    rw [Multiset.card_eq_zero.mp hzero, Multiset.sum_zero] at h
    exact absurd h (by decide)
  have hlookup := t.lookup_getAvgQueueDelays stableRound pk
  rw [if_neg hcard] at hlookup
  have hentry := HashMap.lookup_filter_eq_some (p := fun _ ms => 0 < ms.card).mpr
    ⟨hlookup, Nat.pos_of_ne_zero hcard⟩
  unfold avgQueueDelayChecked
  dsimp only
  exact if_neg fun hall => absurd (hall _ (Finmap.lookup_eq_some_iff.mp hentry)) (not_lt.mpr h)

end ValidatorThroughputTracker

theorem Moderate.roundTimestampMs {t : Trackers PublicKey} {stableRound r : ℕ}
    (h : Moderate t stableRound) (hr : InWindow stableRound r) :
    t.throughput.roundTimestampMsChecked r =
      (t.throughput.roundTimestampMs r).mapError Trap.panic := by
  unfold ValidatorThroughputTracker.roundTimestampMsChecked
    ValidatorThroughputTracker.roundTimestampMs
  cases hv : t.throughput.rounds.lookup r with
  | none => rfl
  | some v =>
      show (medianTsChecked v).map some = ((medianTs v).map some).mapError Trap.panic
      rw [h.medians r hr v hv]
      cases medianTs v <;> rfl

omit [LinearOrder PublicKey] in
/-- The first tracked round of a window is in the window. -/
theorem inWindow_of_first {rounds : Rounds PublicKey (ℕ × ℕ)} {stableRound : ℕ}
    {v : HashMap PublicKey (ℕ × ℕ)}
    (h : (sorted (· ≤ ·) (HashMap.retain rounds (InWindow stableRound)).keys.val).head?.bind
      rounds.lookup = some v) :
    ∃ r, InWindow stableRound r ∧ rounds.lookup r = some v := by
  obtain ⟨r, hr, hv⟩ := Option.bind_eq_some_iff.mp h
  have hmem := List.mem_of_mem_head? (Option.mem_def.mpr hr)
  rw [mem_sorted, Finset.mem_val, Finmap.mem_keys, ← Finmap.lookup_isSome,
    HashMap.lookup_retain] at hmem
  split at hmem
  · rename_i hin
    exact ⟨r, hin, hv⟩
  · cases hmem

theorem Moderate.getTps {t : Trackers PublicKey} {stableRound : ℕ}
    (h : Moderate t stableRound) :
    t.throughput.getTpsChecked stableRound =
      (t.throughput.getTps stableRound).mapError Trap.panic := by
  unfold ValidatorThroughputTracker.getTpsChecked ValidatorThroughputTracker.getTps
  rw [tallyChecked_of_lt h.counts]
  show (if _ then _ else _) = Except.mapError Trap.panic (if _ then _ else _)
  split
  · rfl
  · dsimp only
    cases hfirst : (sorted (· ≤ ·) (HashMap.retain t.throughput.rounds
        (InWindow stableRound)).keys.val).head?.bind t.throughput.rounds.lookup with
    | none => rfl
    | some v =>
        obtain ⟨r, hr, hv⟩ := inWindow_of_first hfirst
        simp only [h.medians r hr v hv]
        cases medianTs v with
        | error e => rfl
        | ok startTs =>
            simp only [Except.mapError, bind, Except.bind]
            cases hlast : t.throughput.rounds.lookup stableRound with
            | none => rfl
            | some w =>
                have hin : InWindow stableRound stableRound := ⟨Nat.sub_le _ _, le_rfl⟩
                simp only [h.medians stableRound hin w hlast]
                cases medianTs w with
                | error e => rfl
                | ok endTs =>
                    simp only [Except.mapError]
                    by_cases hdur : endTs - startTs = 0
                    · rw [if_pos hdur, if_pos hdur]
                    · rw [if_neg hdur, if_neg hdur, divChecked_of_ne (by norm_num)]
                      dsimp only
                      rw [if_neg (durationSecs_ne_zero (Nat.pos_of_ne_zero hdur))]

/-! ## Rerouting decisions without overflow -/

namespace Report

variable {i : Report PublicKey}

theorem estimatedExcessChecked_eq (donor : PublicKey) :
    i.estimatedExcessChecked donor = .ok (i.estimatedExcess donor) := by
  unfold estimatedExcessChecked estimatedExcess
  rw [divChecked_of_ne (by norm_num)]
  show (if _ then _ else _) = Except.ok (if _ then _ else _)
  split
  · rename_i hpos
    exact divChecked_of_ne hpos.ne'
  · rfl

theorem migrateDonorChecked_eq {donor : PublicKey}
    (h : ∀ accounts : Finset ℕ, (accounts.val.map (i.committed donor)).sum < 2 ^ 64)
    (receivers : List PublicKey) (plan : Plan PublicKey) :
    i.migrateDonorChecked receivers plan donor = .ok (i.migrateDonor receivers plan donor) := by
  unfold migrateDonorChecked migrateDonor
  rw [estimatedExcessChecked_eq]
  dsimp only
  by_cases hskip : i.tpsOf donor ≤ 0 ∨
      plan.currentAssignments.getD (i.sortedKeys.idxOf donor) ∅ = ∅
  · rw [if_pos hskip, if_pos (hskip.imp_right Or.inl)]
  · rw [if_neg hskip]
    rw [not_or, not_le] at hskip
    simp only [bind, Except.bind]
    by_cases htarget : i.shedTarget donor ≤ 0
    · rw [if_pos (Or.inr (Or.inr htarget))]
      exact if_pos htarget
    · have hno : ¬ (i.tpsOf donor ≤ 0 ∨
          plan.currentAssignments.getD (i.sortedKeys.idxOf donor) ∅ = ∅ ∨
          i.shedTarget donor ≤ 0) := by
        rintro (hle | hempty | hle)
        · exact absurd hle (not_le.mpr hskip.1)
        · exact hskip.2 hempty
        · exact htarget hle
      have hsum := h (plan.currentAssignments.getD (i.sortedKeys.idxOf donor) ∅)
      have hcap : ∀ (n account : ℕ), (i.capLoadChecked donor n account).isOk = true := by
        intro n account
        unfold capLoadChecked
        split
        · rename_i hpos
          rw [divChecked_of_ne (ofNat_ne_zero hpos)]
          rfl
        · rfl
      rw [if_neg hno]
      refine (if_neg htarget).trans ?_
      rw [sumChecked_of_lt hsum, divChecked_of_ne hskip.1.ne', foldl_addU64_zero, u64_of_lt hsum]
      dsimp only
      rw [if_pos fun account _ => hcap _ account]
      rfl

theorem computeReroutingChecked_eq (hf : 2 * i.f < 2 ^ 64)
    (h : ∀ donor (accounts : Finset ℕ),
      (accounts.val.map (i.committed donor)).sum < 2 ^ 64)
    (currentAssignments : List (Finset ℕ)) :
    i.computeReroutingChecked currentAssignments =
      (i.computeRerouting currentAssignments).mapError Trap.panic := by
  have hdonors : ∀ (receivers donors : List PublicKey) (plan : Plan PublicKey),
      donors.foldlM (i.migrateDonorChecked receivers) plan =
        .ok (donors.foldl (i.migrateDonor receivers) plan) := by
    intro receivers donors
    induction donors with
    | nil => exact fun plan => rfl
    | cons donor donors ih =>
        intro plan
        rw [List.foldlM_cons, migrateDonorChecked_eq (h donor)]
        exact ih _
  unfold computeReroutingChecked computeRerouting mulChecked
  rw [if_pos hf]
  show (if _ then _ else _) = Except.mapError Trap.panic (if _ then _ else _)
  split
  · rfl
  · split
    · rfl
    · cases i.threshDelay with
      | error e => rfl
      | ok threshDelay =>
          simp only [Except.mapError, bind, Except.bind]
          split
          · rfl
          · rw [hdonors]

end Report

/-! ## The task without overflow -/

variable {Digest Signature : Type} [LinearOrder Digest] {cfg : BalancingSettings PublicKey}
  {t : Trackers PublicKey} {c : Certificate PublicKey Digest Signature} {name : PublicKey}
  {s : Balancer PublicKey}

/-- The delays that a validator reports in a window can be added up. -/
def SummableDelays (t : Trackers PublicKey) (stableRound : ℕ) : Prop :=
  ∀ pk, (HashMap.valuesAt (t.throughput.quorumStats.window stableRound) pk).sum < 2 ^ 64

theorem evaluateChecked_eq {round : ℕ} (hsize : cfg.committee.size < 2 ^ 64)
    (h : Moderate t (round - 2)) (hdelays : SummableDelays t (round - 2)) (m : Memory PublicKey)
    (createdAt : ℕ) (tps : HashMap PublicKey ℚ) :
    evaluateChecked cfg t m round createdAt tps =
      (evaluate cfg t m round createdAt tps).mapError Trap.panic := by
  have hstable := h.roundTimestampMs (r := round - 2) ⟨Nat.sub_le _ _, le_rfl⟩
  have hfirst := h.roundTimestampMs (r := round - 2 - trackingWindow) ⟨le_rfl, Nat.sub_le _ _⟩
  have hdiv : ∀ x : ℚ, divChecked x 1000 = .ok (Double.fdiv x 1000) :=
    fun x => divChecked_of_ne (by norm_num)
  have hreroute : ∀ (avgQd : HashMap PublicKey ℚ) (deltaTSecs : ℚ),
      Report.computeReroutingChecked
        { tps := tps
          capacities := cfg.validatorCapacities
          avgQueueDelay := avgQd
          accountLatency := cfg.accountLatency
          perValidatorAccountCounts := t.accounts.perValidatorAccountCounts (round - 2)
          sortedKeys := cfg.committee.keys
          f := (cfg.committee.size - 1) / 3
          lastMigrated := m.lastMigrated
          currentRound := round
          prevAvgQd := m.prevAvgQd
          deltaTSecs := deltaTSecs } m.currentAssignments =
      (Report.computeRerouting
        { tps := tps
          capacities := cfg.validatorCapacities
          avgQueueDelay := avgQd
          accountLatency := cfg.accountLatency
          perValidatorAccountCounts := t.accounts.perValidatorAccountCounts (round - 2)
          sortedKeys := cfg.committee.keys
          f := (cfg.committee.size - 1) / 3
          lastMigrated := m.lastMigrated
          currentRound := round
          prevAvgQd := m.prevAvgQd
          deltaTSecs := deltaTSecs } m.currentAssignments).mapError Trap.panic := by
    intro avgQd deltaTSecs
    refine Report.computeReroutingChecked_eq ?_ (fun donor accounts => ?_) _
    · show 2 * ((cfg.committee.size - 1) / 3) < 2 ^ 64
      omega
    · exact h.committed donor accounts
  unfold evaluateChecked evaluate
  simp only [ValidatorThroughputTracker.avgQueueDelayChecked_eq hdelays, hstable, hfirst, hdiv,
    hreroute]
  cases t.throughput.roundTimestampMs (round - 2) with
  | error e => rfl
  | ok ts =>
      simp only [Except.mapError, bind, Except.bind]
      cases m.prevEvalTsMs with
      | some prev =>
          dsimp only
          generalize (Report.computeRerouting (_ : Report PublicKey) _) = x
          cases x <;> rfl
      | none =>
          cases t.throughput.roundTimestampMs (round - 2 - trackingWindow) with
          | error e => rfl
          | ok first =>
              cases first with
              | none => rfl
              | some firstTs =>
                  dsimp only
                  generalize (Report.computeRerouting (_ : Report PublicKey) _) = x
                  cases x <;> rfl

theorem triggerChecked_eq {round : ℕ} (hsize : cfg.committee.size < 2 ^ 64)
    (h : Moderate t (round - 2))
    (hdelays : ∀ tps, t.throughput.getTps (round - 2) = .ok (some tps) →
      SummableDelays t (round - 2)) (m : Memory PublicKey) (createdAt : ℕ) :
    triggerChecked cfg t m round createdAt =
      (trigger cfg t m round createdAt).mapError Trap.panic := by
  unfold triggerChecked trigger
  rw [h.getTps]
  cases htps : t.throughput.getTps (round - 2) with
  | error e => rfl
  | ok tps =>
      cases tps with
      | none => rfl
      | some tps =>
          simp only [Except.mapError, bind, Except.bind,
            evaluateChecked_eq hsize h (hdelays tps htps)]
          cases evaluate cfg t m round createdAt tps <;> rfl

theorem recordChecked_eq (h : (c.header.accountCounts.entries.map Prod.snd).sum < 2 ^ 64) :
    t.recordChecked c = .ok (t.record c) := by
  unfold Trackers.recordChecked
  rw [sumChecked_of_lt (by rwa [Multiset.sum_coe])]
  rfl

theorem onCertificateChecked_eq (hsize : cfg.committee.size < 2 ^ 64)
    (hcounts : (c.header.accountCounts.entries.map Prod.snd).sum < 2 ^ 64)
    (h : c.origin = name → c.round % trackingWindow = 0 →
      Moderate (s.trackers.record c) (c.round - 2))
    (hdelays : Triggers name c →
      ∀ tps, (s.trackers.record c).throughput.getTps (c.round - 2) = .ok (some tps) →
      SummableDelays (s.trackers.record c) (c.round - 2)) :
    onCertificateChecked cfg name s c = (onCertificate cfg name s c).mapError Trap.panic := by
  unfold onCertificateChecked onCertificate
  rw [recordChecked_eq hcounts]
  show (if _ then _ else _) = Except.mapError Trap.panic (if _ then _ else _)
  by_cases hown : c.origin = name
  · rw [if_neg (not_not.mpr hown), if_neg (not_not.mpr hown)]
    by_cases hlog : c.round % trackingWindow = 0
    · have hm := h hown hlog
      simp only [if_pos hlog, hm.getTps]
      cases (s.trackers.record c).throughput.getTps (c.round - 2) with
      | error e => rfl
      | ok tps =>
          simp only [Except.mapError, bind, Except.bind]
          by_cases hround : c.round % rerouteInterval = 0
          · rw [if_neg (not_not.mpr hround), if_neg (not_not.mpr hround),
              triggerChecked_eq hsize hm (hdelays ⟨hown, hround⟩)]
            cases trigger cfg (s.trackers.record c) s.memory c.round c.header.createdAt <;> rfl
          · rw [if_pos hround, if_pos hround]
    · have hround : ¬ c.round % rerouteInterval = 0 := by
        unfold trackingWindow rerouteInterval at *
        omega
      simp only [if_neg hlog]
      rw [if_pos hround, if_pos hround]
      rfl
  · rw [if_pos hown, if_pos hown]
    rfl

/-- An evaluation with delays that cannot be added up. -/
theorem onCertificateChecked_overflow {tps : HashMap PublicKey ℚ}
    (hcounts : (c.header.accountCounts.entries.map Prod.snd).sum < 2 ^ 64)
    (h : Moderate (s.trackers.record c) (c.round - 2)) (htriggers : Triggers name c)
    (htps : (s.trackers.record c).throughput.getTps (c.round - 2) = .ok (some tps))
    (hdelays : ¬ SummableDelays (s.trackers.record c) (c.round - 2)) :
    onCertificateChecked cfg name s c = .error .overflow := by
  unfold SummableDelays at hdelays
  push Not at hdelays
  obtain ⟨pk, hpk⟩ := hdelays
  have hevaluate : triggerChecked cfg (s.trackers.record c) s.memory c.round
      c.header.createdAt = .error .overflow := by
    unfold triggerChecked evaluateChecked
    rw [h.getTps, htps]
    simp only [Except.mapError, bind, Except.bind,
      ValidatorThroughputTracker.avgQueueDelayChecked_overflow hpk]
  have hlog : c.round % trackingWindow = 0 := by
    have hround := htriggers.2
    unfold trackingWindow
    unfold rerouteInterval at hround
    omega
  unfold onCertificateChecked
  rw [recordChecked_eq hcounts]
  show (if _ then _ else _) = _
  rw [if_neg (not_not.mpr htriggers.1)]
  simp only [if_pos hlog, h.getTps, htps, Except.mapError, bind, Except.bind,
    if_neg (not_not.mpr htriggers.2), hevaluate]

end Trackers

end DagBft.Consensus
