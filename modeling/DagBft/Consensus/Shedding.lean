/-
  `compute_rerouting` with any rounding of the results of floating-point operations: with
  that of the doubles it is `Report.computeRerouting` (`computeReroutingBy_round`), with
  none it computes with the exact rationals.

  The loops are characterised once: the notices of a donor are a list of moves, each
  admissible in the state before it (`Sheds`, `sheds_migrateAccountsBy`), and the donors
  follow one another (`Donations`). What the call does to the assignments is in
  `Consensus/Partition`; here are the bounds on the loads. With the exact rationals no
  receiver gets more than its capacity leaves it, and no donor sheds more than its target
  and one account (`exact_rerouting_bounds`).
-/
import DagBft.Consensus.Rerouting

namespace DagBft.Consensus

open Node (MigrationNotice)

variable {PublicKey : Type} [LinearOrder PublicKey]

namespace Report

/-! ## The decision, by rounding -/

section Definitions

variable (rnd : ℚ → ℚ) (i : Report PublicKey)

def capacityBy (pk : PublicKey) : ℚ := rnd ((i.capacities pk).getD 0)

def isDonorBy (threshDelay : ℚ) (pk : PublicKey) : Bool :=
  decide (minDonorQdMs ≤ i.queueDelay pk ∧ rnd (2 * threshDelay) < i.queueDelay pk)

def donorsBy (threshDelay : ℚ) : List PublicKey :=
  sorted (Heavier i.queueDelay)
    ((i.sortedKeys.filter (i.isDonorBy rnd threshDelay) : List _) : Multiset _)

def spareBy (pk : PublicKey) : ℚ := rnd (i.capacityBy rnd pk - i.tpsOf pk)

def receiversBy (threshDelay : ℚ) : List PublicKey :=
  i.sortedKeys.filter fun pk =>
    !i.isDonorBy rnd threshDelay pk && decide (0 < i.spareBy rnd pk) && decide (pk ∈ i.tps)

def estimatedExcessBy (donor : PublicKey) : ℚ :=
  let deltaWSecs := rnd (rnd (i.queueDelay donor - (i.prevAvgQd.lookup donor).getD 0) / 1000)
  if 0 < i.deltaTSecs then rnd (rnd (i.tpsOf donor * deltaWSecs) / i.deltaTSecs) else 0

def shedTargetBy (donor : PublicKey) : ℚ :=
  let structuralExcess := max (rnd (i.tpsOf donor - i.capacityBy rnd donor)) 0
  min (max (i.estimatedExcessBy rnd donor) structuralExcess)
    (rnd (structuralExcess * shedCapMultiplier))

def incomingScaleBy (donor : PublicKey) : ℚ :=
  rnd (rnd (i.tpsOf donor + max (i.estimatedExcessBy rnd donor) 0) / i.tpsOf donor)

/-- What the donor committed of the accounts that it has. -/
def totalCommittedTx (donor : PublicKey) (accounts : Finset ℕ) : ℕ :=
  (accounts.val.map (i.committed donor)).foldl addU64 0

def capLoadBy (donor : PublicKey) (totalCommittedTx account : ℕ) : ℚ :=
  if 0 < totalCommittedTx then
    rnd (rnd (i.tpsOf donor * rnd (i.committed donor account)) / rnd totalCommittedTx)
  else 0

end Definitions

end Report

/-- What the loop over the accounts of a donor reads. -/
structure Donation where
  donorIdx : ℕ
  shedTarget : ℚ
  incomingScale : ℚ
  capLoad : ℕ → ℚ

namespace Donation

/-- The load of the notices for a receiver, as the receiver will see it. -/
def received (d : Donation) (notices : List (MigrationNotice PublicKey))
    (r : PublicKey) : ℚ :=
  ((notices.filter fun n => n.newTarget = r).map fun n => d.capLoad n.accountId).sum

/-- The load that the donor is rid of, in the units of `shed_so_far`. -/
def shed (d : Donation) (notices : List (MigrationNotice PublicKey)) : ℚ :=
  (notices.map fun n => d.capLoad n.accountId * d.incomingScale).sum

end Donation

namespace Report

section Definitions

variable (rnd : ℚ → ℚ) (i : Report PublicKey)

/-- A migration of an account of the donor. -/
def move (d : Donation) (s : Shedding PublicKey) (n : MigrationNotice PublicKey) :
    Shedding PublicKey where
  migrations := s.migrations ++ [n]
  currentAssignments :=
    (s.currentAssignments.modify d.donorIdx fun a => a.erase n.accountId).modify
      (i.sortedKeys.idxOf n.newTarget) fun a => insert n.accountId a
  spareCapacity := Function.update s.spareCapacity n.newTarget
    (rnd (s.spareCapacity n.newTarget - d.capLoad n.accountId))
  shedSoFar := rnd (s.shedSoFar + rnd (d.capLoad n.accountId * d.incomingScale))

def migrateAccountsBy (receivers : List PublicKey) (d : Donation) :
    List ℕ → Shedding PublicKey → Shedding PublicKey
  | [], s => s
  | acct :: accounts, s =>
      if d.shedTarget ≤ s.shedSoFar then s
      else if ∃ r ∈ i.lastMigrated.lookup acct, i.currentRound - r < rerouteInterval * 2 then
        migrateAccountsBy receivers d accounts s
      else if d.capLoad acct ≤ 0 then s
      else
        let eligible := receivers.filter fun r => d.capLoad acct ≤ s.spareCapacity r
        let s := match i.bestReceiver acct s.spareCapacity eligible with
          | none => s
          | some recv => i.move rnd d s ⟨acct, recv⟩
        migrateAccountsBy receivers d accounts s

/-- The accounts of a donor. -/
def accountsOf (assignments : List (Finset ℕ)) (donor : PublicKey) : Finset ℕ :=
  assignments.getD (i.sortedKeys.idxOf donor) ∅

def donationBy (assignments : List (Finset ℕ)) (donor : PublicKey) : Donation where
  donorIdx := i.sortedKeys.idxOf donor
  shedTarget := i.shedTargetBy rnd donor
  incomingScale := i.incomingScaleBy rnd donor
  capLoad := i.capLoadBy rnd donor (i.totalCommittedTx donor (i.accountsOf assignments donor))

def migrateDonorBy (receivers : List PublicKey) (plan : Plan PublicKey) (donor : PublicKey) :
    Plan PublicKey :=
  let donorAccounts := i.accountsOf plan.currentAssignments donor
  if i.tpsOf donor ≤ 0 ∨ donorAccounts = ∅ ∨ i.shedTargetBy rnd donor ≤ 0 then plan
  else
    let d := i.donationBy rnd plan.currentAssignments donor
    (i.migrateAccountsBy rnd receivers d (sorted (Heavier d.capLoad) donorAccounts.val)
      ⟨plan, 0⟩).toPlan

def computeReroutingBy (currentAssignments : List (Finset ℕ)) :
    Except BalancingPanic (List (MigrationNotice PublicKey) × List (Finset ℕ)) :=
  if i.avgQueueDelay.keys.card < 2 * i.f then .ok ([], currentAssignments)
  else if currentAssignments.length < i.sortedKeys.length then .error .index
  else do
    let threshDelay ← i.threshDelay
    let donors := i.donorsBy rnd threshDelay
    let receivers := i.receiversBy rnd threshDelay
    if donors = [] ∨ receivers = [] then .ok ([], currentAssignments)
    else
      let plan := donors.foldl (i.migrateDonorBy rnd receivers)
        ⟨[], currentAssignments, i.spareBy rnd⟩
      .ok (plan.migrations, plan.currentAssignments)

end Definitions

variable {i : Report PublicKey}

theorem migrateAccountsBy_round (receivers : List PublicKey) (d : Donation) (accounts : List ℕ)
    (s : Shedding PublicKey) :
    i.migrateAccountsBy Double.round receivers d accounts s =
      i.migrateAccounts receivers d.donorIdx d.shedTarget d.incomingScale d.capLoad accounts s := by
  induction accounts generalizing s with
  | nil => rfl
  | cons acct accounts ih =>
      unfold migrateAccountsBy migrateAccounts
      simp only [ih]
      rfl

theorem migrateDonorBy_round (receivers : List PublicKey) (plan : Plan PublicKey)
    (donor : PublicKey) :
    i.migrateDonorBy Double.round receivers plan donor = i.migrateDonor receivers plan donor := by
  unfold migrateDonorBy migrateDonor
  simp only [migrateAccountsBy_round]
  rfl

/-- With the rounding of the doubles it is the decision that the task takes. -/
theorem computeReroutingBy_round (currentAssignments : List (Finset ℕ)) :
    i.computeReroutingBy Double.round currentAssignments =
      i.computeRerouting currentAssignments := by
  have hdonor : i.migrateDonorBy Double.round = i.migrateDonor := by
    funext receivers plan donor
    exact migrateDonorBy_round receivers plan donor
  unfold computeReroutingBy computeRerouting
  rw [hdonor]
  rfl

/-! ## The loop over the accounts of a donor -/

section Sheds

variable (rnd : ℚ → ℚ) (i : Report PublicKey) (receivers : List PublicKey) (d : Donation)

/-- When an account of the donor is migrated. -/
structure Admits (s : Shedding PublicKey) (n : MigrationNotice PublicKey) : Prop where
  below : s.shedSoFar < d.shedTarget
  cooled : ∀ r ∈ i.lastMigrated.lookup n.accountId, rerouteInterval * 2 ≤ i.currentRound - r
  pos : 0 < d.capLoad n.accountId
  receiver : n.newTarget ∈ receivers
  fits : d.capLoad n.accountId ≤ s.spareCapacity n.newTarget

/-- Migrations one after the other, each admitted. -/
inductive Sheds : Shedding PublicKey → List (MigrationNotice PublicKey) → Shedding PublicKey → Prop
  | done (s : Shedding PublicKey) : Sheds s [] s
  | move {s s' : Shedding PublicKey} {n : MigrationNotice PublicKey}
      {notices : List (MigrationNotice PublicKey)} (admits : Admits i receivers d s n)
      (rest : Sheds (i.move rnd d s n) notices s') : Sheds s (n :: notices) s'

variable {rnd i receivers d} {s s' : Shedding PublicKey}
  {notices notices' : List (MigrationNotice PublicKey)} {n : MigrationNotice PublicKey}

theorem mem_of_bestReceiver {acct : ℕ} {spareCapacity : PublicKey → ℚ} {eligible : List PublicKey}
    {recv : PublicKey} (h : i.bestReceiver acct spareCapacity eligible = some recv) :
    recv ∈ eligible := by
  have key : ∀ (l : List PublicKey) (best : Option PublicKey),
      (∀ r ∈ best, r ∈ eligible) → (∀ r ∈ l, r ∈ eligible) →
      ∀ r ∈ l.foldl (fun best r => match best with
        | none => some r
        | some b =>
            if i.latency acct r < i.latency acct b ∨
              i.latency acct r = i.latency acct b ∧ spareCapacity b < spareCapacity r
            then some r else some b) best, r ∈ eligible := by
    intro l
    induction l with
    | nil => exact fun best hbest _ => hbest
    | cons x l ih =>
        intro best hbest hl
        rw [List.foldl_cons]
        apply ih _ ?_ fun r hr => hl r (List.mem_cons_of_mem _ hr)
        intro r hr
        cases best with
        | none =>
            obtain rfl := Option.some.inj hr
            exact hl _ List.mem_cons_self
        | some b =>
            dsimp only at hr
            split at hr
            · obtain rfl := Option.some.inj hr
              exact hl _ List.mem_cons_self
            · obtain rfl := Option.some.inj hr
              exact hbest _ rfl
  exact key eligible none (by simp) (fun r hr => hr) recv h

/-- The loop makes some of the moves, in the order of the accounts. -/
theorem sheds_migrateAccountsBy (rnd : ℚ → ℚ) (i : Report PublicKey) (receivers : List PublicKey)
    (d : Donation) (accounts : List ℕ) (s : Shedding PublicKey) :
    ∃ notices, Sheds rnd i receivers d s notices (i.migrateAccountsBy rnd receivers d accounts s) ∧
      (notices.map fun n => n.accountId).Sublist accounts := by
  induction accounts generalizing s with
  | nil => exact ⟨[], Sheds.done s, List.Sublist.slnil⟩
  | cons acct accounts ih =>
      unfold migrateAccountsBy
      split
      · exact ⟨[], Sheds.done s, List.nil_sublist _⟩
      · rename_i hbelow
        split
        · obtain ⟨notices, hsheds, hsub⟩ := ih s
          exact ⟨notices, hsheds, hsub.cons _⟩
        · rename_i hcool
          split
          · exact ⟨[], Sheds.done s, List.nil_sublist _⟩
          · rename_i hpos
            dsimp only
            cases hbest : i.bestReceiver acct s.spareCapacity
                (receivers.filter fun r => d.capLoad acct ≤ s.spareCapacity r) with
            | none =>
                obtain ⟨notices, hsheds, hsub⟩ := ih s
                exact ⟨notices, hsheds, hsub.cons _⟩
            | some recv =>
                obtain ⟨notices, hsheds, hsub⟩ := ih (i.move rnd d s ⟨acct, recv⟩)
                obtain ⟨hrecv, hfits⟩ := List.mem_filter.mp (mem_of_bestReceiver hbest)
                push Not at hbelow hcool hpos
                refine ⟨⟨acct, recv⟩ :: notices, Sheds.move ?_ hsheds, hsub.cons_cons _⟩
                exact ⟨hbelow, hcool, hpos, hrecv, of_decide_eq_true hfits⟩

theorem Sheds.migrations (h : Sheds rnd i receivers d s notices s') :
    s'.migrations = s.migrations ++ notices := by
  induction h with
  | done s => exact (List.append_nil _).symm
  | move admits rest ih =>
      rw [ih]
      exact List.append_assoc _ [_] _

/-- The moves up to one of them. -/
theorem Sheds.split (h : Sheds rnd i receivers d s (notices ++ notices') s') :
    ∃ s₁, Sheds rnd i receivers d s notices s₁ ∧ Sheds rnd i receivers d s₁ notices' s' := by
  induction notices generalizing s with
  | nil => exact ⟨s, Sheds.done s, h⟩
  | cons n notices ih =>
      cases h with
      | move admits rest =>
          obtain ⟨s₁, h₁, h₂⟩ := ih rest
          exact ⟨s₁, Sheds.move admits h₁, h₂⟩

theorem Sheds.receiver (h : Sheds rnd i receivers d s notices s') :
    ∀ n ∈ notices, n.newTarget ∈ receivers := by
  induction h with
  | done s => simp
  | move admits rest ih => exact List.forall_mem_cons.mpr ⟨admits.receiver, ih⟩

theorem Sheds.cooled (h : Sheds rnd i receivers d s notices s') :
    ∀ n ∈ notices, ∀ r ∈ i.lastMigrated.lookup n.accountId,
      rerouteInterval * 2 ≤ i.currentRound - r := by
  induction h with
  | done s => simp
  | move admits rest ih => exact List.forall_mem_cons.mpr ⟨admits.cooled, ih⟩

end Sheds

/-! ## The loop over the donors -/

section Donations

variable (rnd : ℚ → ℚ) (i : Report PublicKey) (receivers : List PublicKey)

/-- What an iteration for a donor does. -/
def Donates (plan : Plan PublicKey) (donor : PublicKey)
    (notices : List (MigrationNotice PublicKey)) (plan' : Plan PublicKey) : Prop :=
  (∃ s, Sheds rnd i receivers (i.donationBy rnd plan.currentAssignments donor) ⟨plan, 0⟩ notices s ∧
      s.toPlan = plan') ∧
    (notices.map fun n => n.accountId).Nodup ∧
    ∀ n ∈ notices, n.accountId ∈ i.accountsOf plan.currentAssignments donor

/-- The iterations, each with its notices. -/
inductive Donations :
    Plan PublicKey → List (PublicKey × List (MigrationNotice PublicKey)) → Plan PublicKey → Prop
  | done (plan : Plan PublicKey) : Donations plan [] plan
  | donor {plan plan₁ plan' : Plan PublicKey} {x : PublicKey × List (MigrationNotice PublicKey)}
      {sheds : List (PublicKey × List (MigrationNotice PublicKey))}
      (donates : Donates rnd i receivers plan x.1 x.2 plan₁) (rest : Donations plan₁ sheds plan') :
      Donations plan (x :: sheds) plan'

theorem donates_migrateDonorBy (plan : Plan PublicKey) (donor : PublicKey) :
    ∃ notices, Donates rnd i receivers plan donor notices
      (i.migrateDonorBy rnd receivers plan donor) := by
  unfold migrateDonorBy
  dsimp only
  split
  · exact ⟨[], ⟨_, Sheds.done _, rfl⟩, List.nodup_nil, by simp⟩
  · obtain ⟨notices, hsheds, hsub⟩ := sheds_migrateAccountsBy rnd i receivers
      (i.donationBy rnd plan.currentAssignments donor)
      (sorted (Heavier (i.donationBy rnd plan.currentAssignments donor).capLoad)
        (i.accountsOf plan.currentAssignments donor).val) ⟨plan, 0⟩
    refine ⟨notices, ⟨_, hsheds, rfl⟩, hsub.nodup (nodup_sorted (Finset.nodup _)), fun n hn => ?_⟩
    exact mem_sorted.mp (hsub.subset (List.mem_map_of_mem hn))

theorem donations_foldl (donors : List PublicKey) (plan : Plan PublicKey) :
    ∃ sheds, sheds.map Prod.fst = donors ∧
      Donations rnd i receivers plan sheds
        (donors.foldl (i.migrateDonorBy rnd receivers) plan) := by
  induction donors generalizing plan with
  | nil => exact ⟨[], rfl, Donations.done plan⟩
  | cons donor donors ih =>
      obtain ⟨notices, hdonates⟩ :=
        donates_migrateDonorBy rnd i receivers plan donor
      obtain ⟨sheds, hfst, hrest⟩ := ih (i.migrateDonorBy rnd receivers plan donor)
      refine ⟨(donor, notices) :: sheds, ?_, Donations.donor hdonates hrest⟩
      rw [List.map_cons, hfst]

variable {rnd i receivers} {plan plan' : Plan PublicKey}
  {sheds : List (PublicKey × List (MigrationNotice PublicKey))}

theorem Donations.migrations (h : Donations rnd i receivers plan sheds plan') :
    plan'.migrations = plan.migrations ++ sheds.flatMap Prod.snd := by
  induction h with
  | done plan => simp
  | donor donates rest ih =>
      obtain ⟨⟨s, hsheds, rfl⟩, -, -⟩ := donates
      rw [ih, hsheds.migrations, List.flatMap_cons, List.append_assoc]

end Donations

/-! ## What the moves of other donors leave as it is -/

section Frame

variable {rnd : ℚ → ℚ} {receivers : List PublicKey} {d : Donation} {s s' : Shedding PublicKey}
  {n : MigrationNotice PublicKey} {notices : List (MigrationNotice PublicKey)} {donor : PublicKey}

theorem accountsOf_move (hdonor : d.donorIdx ≠ i.sortedKeys.idxOf donor)
    (htarget : i.sortedKeys.idxOf n.newTarget ≠ i.sortedKeys.idxOf donor) :
    i.accountsOf (i.move rnd d s n).currentAssignments donor =
      i.accountsOf s.currentAssignments donor := by
  unfold accountsOf move
  rw [List.getD_eq_getElem?_getD, List.getD_eq_getElem?_getD, List.getElem?_modify_ne _ _ htarget,
    List.getElem?_modify_ne _ _ hdonor]

theorem Sheds.accountsOf (h : Sheds rnd i receivers d s notices s')
    (hdonor : d.donorIdx ≠ i.sortedKeys.idxOf donor)
    (hreceivers : ∀ r ∈ receivers, i.sortedKeys.idxOf r ≠ i.sortedKeys.idxOf donor) :
    i.accountsOf s'.currentAssignments donor = i.accountsOf s.currentAssignments donor := by
  induction h with
  | done s => rfl
  | move admits rest ih => rw [ih, accountsOf_move hdonor (hreceivers _ admits.receiver)]

variable {plan plan' : Plan PublicKey}
  {sheds : List (PublicKey × List (MigrationNotice PublicKey))}

theorem Donations.accountsOf (h : Donations rnd i receivers plan sheds plan')
    (hdonors : ∀ x ∈ sheds, i.sortedKeys.idxOf x.1 ≠ i.sortedKeys.idxOf donor)
    (hreceivers : ∀ r ∈ receivers, i.sortedKeys.idxOf r ≠ i.sortedKeys.idxOf donor) :
    i.accountsOf plan'.currentAssignments donor = i.accountsOf plan.currentAssignments donor := by
  induction h with
  | done plan => rfl
  | donor donates rest ih =>
      obtain ⟨⟨s, hsheds, rfl⟩, -, -⟩ := donates
      obtain ⟨hdonor, hrest⟩ := List.forall_mem_cons.mp hdonors
      rw [ih hrest]
      exact hsheds.accountsOf hdonor hreceivers

end Frame

/-! ## Bounds -/

section Bounds

variable {receivers : List PublicKey} {d : Donation} {s s' : Shedding PublicKey}
  {notices : List (MigrationNotice PublicKey)} {r : PublicKey}

theorem Sheds.spareCapacity (h : Sheds id i receivers d s notices s') :
    s'.spareCapacity r = s.spareCapacity r - d.received notices r := by
  induction h with
  | done s => simp [Donation.received]
  | @move s s' n notices admits rest ih =>
      rw [ih]
      unfold Donation.received
      by_cases hr : n.newTarget = r
      · subst hr
        simp only [Report.move, Function.update_self, id_eq, List.filter_cons, decide_true, if_true,
          List.map_cons, List.sum_cons]
        ring
      · simp only [Report.move, Function.update_of_ne (Ne.symm hr), List.filter_cons, hr,
          decide_false, Bool.false_eq_true, if_false]

theorem Sheds.spareCapacity_nonneg (h : Sheds id i receivers d s notices s')
    (hs : 0 ≤ s.spareCapacity r) : 0 ≤ s'.spareCapacity r := by
  induction h with
  | done s => exact hs
  | @move s s' n notices admits rest ih =>
      apply ih
      by_cases hr : r = n.newTarget
      · subst hr
        simp only [Report.move, Function.update_self, id_eq]
        exact sub_nonneg.mpr admits.fits
      · simpa only [Report.move, Function.update_of_ne hr] using hs

theorem Sheds.shedSoFar (h : Sheds id i receivers d s notices s') :
    s'.shedSoFar = s.shedSoFar + d.shed notices := by
  induction h with
  | done s => simp [Donation.shed]
  | move admits rest ih =>
      rw [ih]
      simp only [Report.move, id_eq, Donation.shed, List.map_cons, List.sum_cons]
      ring

/-- Before the last account was moved the target was not reached. -/
theorem Sheds.shed_lt {n : MigrationNotice PublicKey}
    (h : Sheds id i receivers d s (notices ++ [n]) s') (hs : s.shedSoFar = 0) :
    d.shed (notices ++ [n]) < d.shedTarget + d.capLoad n.accountId * d.incomingScale := by
  obtain ⟨s₁, h₁, h₂⟩ := h.split
  have hbelow : s₁.shedSoFar < d.shedTarget := by
    cases h₂ with
    | move admits rest => exact admits.below
  rw [h₁.shedSoFar, hs, zero_add] at hbelow
  simp only [Donation.shed, List.map_append, List.sum_append, List.map_cons, List.map_nil,
    List.sum_cons, List.sum_nil, add_zero]
  exact add_lt_add_left hbelow _

theorem Sheds.shedTarget_pos (h : Sheds id i receivers d s notices s') (hs : s.shedSoFar = 0)
    (hne : notices ≠ []) : 0 < d.shedTarget := by
  cases h with
  | done s => exact absurd rfl hne
  | move admits rest => exact hs ▸ admits.below

/-- The target is at most four times the excess over the capacity. -/
theorem shedTargetBy_le (donor : PublicKey) :
    i.shedTargetBy id donor ≤ 4 * max (i.tpsOf donor - i.capacityBy id donor) 0 := by
  unfold shedTargetBy
  refine (min_le_right _ _).trans (le_of_eq ?_)
  simp only [id_eq, shedCapMultiplier]
  ring

end Bounds

/-! ## One call -/

section Call

variable {rnd : ℚ → ℚ} {receivers : List PublicKey} {threshDelay : ℚ} {pk : PublicKey}
  {plan plan' : Plan PublicKey} {sheds : List (PublicKey × List (MigrationNotice PublicKey))}
  {assignments assignments' : List (Finset ℕ)} {migrations : List (MigrationNotice PublicKey)}

theorem mem_donorsBy : pk ∈ i.donorsBy rnd threshDelay ↔
    pk ∈ i.sortedKeys ∧ i.isDonorBy rnd threshDelay pk = true := by
  unfold donorsBy
  rw [mem_sorted, Multiset.mem_coe, List.mem_filter]

theorem nodup_donorsBy (hkeys : i.sortedKeys.Nodup) : (i.donorsBy rnd threshDelay).Nodup :=
  nodup_sorted (Multiset.coe_nodup.mpr (hkeys.filter _))

theorem mem_receiversBy : pk ∈ i.receiversBy rnd threshDelay ↔
    pk ∈ i.sortedKeys ∧ i.isDonorBy rnd threshDelay pk = false ∧ 0 < i.spareBy rnd pk ∧
      pk ∈ i.tps := by
  unfold receiversBy
  simp [List.mem_filter, and_assoc]

theorem ne_of_mem_receiversBy {donor : PublicKey} (hdonor : donor ∈ i.donorsBy rnd threshDelay)
    (hpk : pk ∈ i.receiversBy rnd threshDelay) :
    i.sortedKeys.idxOf pk ≠ i.sortedKeys.idxOf donor := by
  obtain ⟨-, hyes⟩ := mem_donorsBy.mp hdonor
  obtain ⟨hmem, hno, -⟩ := mem_receiversBy.mp hpk
  rw [Ne, List.idxOf_inj hmem]
  rintro rfl
  rw [hyes] at hno
  cases hno

theorem donationBy_congr
    (h : i.accountsOf assignments' pk = i.accountsOf assignments pk) :
    i.donationBy rnd assignments' pk = i.donationBy rnd assignments pk := by
  unfold donationBy
  rw [h]

/-- The donors of a call are different and not among its receivers. -/
structure Separate (i : Report PublicKey) (receivers : List PublicKey)
    (sheds : List (PublicKey × List (MigrationNotice PublicKey))) : Prop where
  donors : sheds.Pairwise fun x y => i.sortedKeys.idxOf x.1 ≠ i.sortedKeys.idxOf y.1
  receivers : ∀ x ∈ sheds, ∀ r ∈ receivers, i.sortedKeys.idxOf r ≠ i.sortedKeys.idxOf x.1

theorem separate_call (hkeys : i.sortedKeys.Nodup)
    (hdonors : sheds.map Prod.fst = i.donorsBy rnd threshDelay) :
    Separate i (i.receiversBy rnd threshDelay) sheds where
  donors := by
    have hnodup : (sheds.map Prod.fst).Nodup := hdonors ▸ nodup_donorsBy hkeys
    have hmem : ∀ x ∈ sheds, x.1 ∈ i.sortedKeys := fun x hx =>
      (mem_donorsBy.mp (hdonors ▸ List.mem_map_of_mem hx)).1
    refine (List.pairwise_map.mp hnodup).imp_of_mem fun {x y} hx _ hne => ?_
    rwa [Ne, List.idxOf_inj (hmem x hx)]
  receivers x hx r hr := ne_of_mem_receiversBy (hdonors ▸ List.mem_map_of_mem hx) hr

/-- Every donor starts from the accounts that it had before the call. -/
theorem Donations.donation (h : Donations rnd i receivers plan sheds plan')
    (hsep : Separate i receivers sheds) : ∀ x ∈ sheds,
      (∃ s s', s.shedSoFar = 0 ∧
        Sheds rnd i receivers (i.donationBy rnd plan.currentAssignments x.1) s x.2 s') ∧
      ∀ n ∈ x.2, n.accountId ∈ i.accountsOf plan.currentAssignments x.1 := by
  induction h with
  | done plan => simp
  | @donor plan plan₁ plan' x sheds donates rest ih =>
      obtain ⟨⟨s, hsheds, rfl⟩, -, howned⟩ := donates
      obtain ⟨hne, hdonors⟩ := List.pairwise_cons.mp hsep.donors
      obtain ⟨-, hreceivers⟩ := List.forall_mem_cons.mp hsep.receivers
      refine List.forall_mem_cons.mpr ⟨⟨⟨_, s, rfl, hsheds⟩, howned⟩, fun y hy => ?_⟩
      have hsame : i.accountsOf s.currentAssignments y.1 =
          i.accountsOf plan.currentAssignments y.1 :=
        hsheds.accountsOf (hne y hy) (hreceivers y hy)
      have key := ih ⟨hdonors, hreceivers⟩ y hy
      rwa [donationBy_congr hsame, hsame] at key

/-- What is left of the spare capacity after a call. -/
theorem Donations.spareCapacity (h : Donations id i receivers plan sheds plan')
    (hsep : Separate i receivers sheds) {r : PublicKey} (hr : 0 ≤ plan.spareCapacity r) :
    0 ≤ plan'.spareCapacity r ∧ plan'.spareCapacity r = plan.spareCapacity r -
      (sheds.map fun x =>
        (i.donationBy id plan.currentAssignments x.1).received x.2 r).sum := by
  induction h with
  | done plan => exact ⟨hr, by simp⟩
  | @donor plan plan₁ plan' x sheds donates rest ih =>
      obtain ⟨⟨s, hsheds, rfl⟩, -, -⟩ := donates
      obtain ⟨hne, hdonors⟩ := List.pairwise_cons.mp hsep.donors
      obtain ⟨-, hreceivers⟩ := List.forall_mem_cons.mp hsep.receivers
      obtain ⟨hnonneg, hspare⟩ := ih ⟨hdonors, hreceivers⟩ (hsheds.spareCapacity_nonneg hr)
      refine ⟨hnonneg, ?_⟩
      have hsame : ∀ y ∈ sheds, i.donationBy id s.currentAssignments y.1 =
          i.donationBy id plan.currentAssignments y.1 := fun y hy =>
        donationBy_congr (hsheds.accountsOf (hne y hy) (hreceivers y hy))
      have hsum : (sheds.map fun y => (i.donationBy id s.currentAssignments y.1).received y.2 r) =
          sheds.map fun y => (i.donationBy id plan.currentAssignments y.1).received y.2 r :=
        List.map_congr_left fun y hy => by rw [hsame y hy]
      rw [hspare, hsum, hsheds.spareCapacity, List.map_cons, List.sum_cons]
      ring

/-- A call either changes nothing or goes through the donors. -/
theorem computeReroutingBy_cases
    (h : i.computeReroutingBy rnd assignments = .ok (migrations, assignments')) :
    (migrations = [] ∧ assignments' = assignments) ∨
      ∃ threshDelay sheds plan, i.threshDelay = .ok threshDelay ∧
        i.sortedKeys.length ≤ assignments.length ∧
        sheds.map Prod.fst = i.donorsBy rnd threshDelay ∧
        Donations rnd i (i.receiversBy rnd threshDelay) ⟨[], assignments, i.spareBy rnd⟩ sheds
          plan ∧
        migrations = sheds.flatMap Prod.snd ∧ assignments' = plan.currentAssignments := by
  have hsame : ∀ {m : List (MigrationNotice PublicKey)} {a : List (Finset ℕ)},
      (Except.ok ([], assignments) : Except BalancingPanic _) = .ok (m, a) →
        m = [] ∧ a = assignments := by
    rintro m a he
    obtain ⟨rfl, rfl⟩ := Prod.mk.inj (Except.ok.inj he)
    exact ⟨rfl, rfl⟩
  unfold computeReroutingBy at h
  split at h
  · exact Or.inl (hsame h)
  · split at h
    · cases h
    · rename_i hlen
      cases ht : i.threshDelay with
      | error e => simp [ht, bind, Except.bind] at h
      | ok threshDelay =>
          simp only [ht, bind, Except.bind] at h
          split at h
          · exact Or.inl (hsame h)
          · obtain ⟨rfl, rfl⟩ := Prod.mk.inj (Except.ok.inj h)
            obtain ⟨sheds, hfst, hdonations⟩ := donations_foldl rnd i
              (i.receiversBy rnd threshDelay) (i.donorsBy rnd threshDelay)
              ⟨[], assignments, i.spareBy rnd⟩
            refine Or.inr ⟨threshDelay, sheds, _, rfl, not_lt.mp hlen, hfst, hdonations, ?_, rfl⟩
            rw [hdonations.migrations, List.nil_append]

end Call

end Report

/-- The bounds on the loads that the notices of a call move, by donor, with exact rationals.
    Where no account has two owners, that of an account is its donor. -/
structure ShedBounds (i : Report PublicKey) (assignments : List (Finset ℕ))
    (sheds : List (PublicKey × List (MigrationNotice PublicKey))) : Prop where
  donors : (sheds.map Prod.fst).Nodup
  owned : ∀ x ∈ sheds, ∀ n ∈ x.2, n.accountId ∈ i.accountsOf assignments x.1
  targets : ∀ x ∈ sheds, ∀ n ∈ x.2, ∃ t, i.threshDelay = .ok t ∧ n.newTarget ∈ i.receiversBy id t
  /-- A receiver gets no more than its capacity leaves it. -/
  capacity : ∀ t, i.threshDelay = .ok t → ∀ r ∈ i.receiversBy id t,
    (sheds.map fun x => (i.donationBy id assignments x.1).received x.2 r).sum ≤
      i.capacityBy id r - i.tpsOf r
  /-- A donor within its capacity sheds nothing. -/
  healthy : ∀ x ∈ sheds, i.tpsOf x.1 ≤ i.capacityBy id x.1 → x.2 = []
  /-- The others shed less than their target and the last account moved. -/
  shed : ∀ x ∈ sheds, ∀ notices n, x.2 = notices ++ [n] →
    (i.donationBy id assignments x.1).shed x.2 < i.shedTargetBy id x.1 +
      (i.donationBy id assignments x.1).capLoad n.accountId * i.incomingScaleBy id x.1
  target : ∀ x ∈ sheds, x.2 ≠ [] →
    i.shedTargetBy id x.1 ≤ 4 * (i.tpsOf x.1 - i.capacityBy id x.1)

/-- Whatever is reported, one call keeps the bounds. -/
theorem exact_rerouting_bounds (i : Report PublicKey) (hkeys : i.sortedKeys.Nodup)
    (assignments assignments' : List (Finset ℕ)) (migrations : List (MigrationNotice PublicKey))
    (h : i.computeReroutingBy id assignments = .ok (migrations, assignments')) :
    ∃ sheds, migrations = sheds.flatMap Prod.snd ∧ ShedBounds i assignments sheds := by
  rcases Report.computeReroutingBy_cases h with ⟨rfl, -⟩ |
    ⟨threshDelay, sheds, plan, ht, -, hfst, hdonations, rfl, -⟩
  · refine ⟨[], rfl, List.nodup_nil, by simp, by simp, fun t _ r hr => ?_, by simp, by simp,
      by simp⟩
    exact (Report.mem_receiversBy.mp hr).2.2.1.le
  · have hsep := Report.separate_call hkeys hfst
    have hdonation := hdonations.donation hsep
    have hpos : ∀ x ∈ sheds, x.2 ≠ [] → 0 < i.tpsOf x.1 - i.capacityBy id x.1 := by
      intro x hx hne
      obtain ⟨⟨s, s', hs, hsheds⟩, -⟩ := hdonation x hx
      have htarget : 0 < i.shedTargetBy id x.1 := hsheds.shedTarget_pos hs hne
      by_contra hexcess
      have hle := Report.shedTargetBy_le (i := i) x.1
      rw [max_eq_right (not_lt.mp hexcess), mul_zero] at hle
      exact absurd htarget hle.not_gt
    refine ⟨sheds, rfl, ?_⟩
    exact {
      donors := hfst ▸ Report.nodup_donorsBy hkeys
      owned := fun x hx => (hdonation x hx).2
      targets := by
        intro x hx n hn
        obtain ⟨⟨s, s', -, hsheds⟩, -⟩ := hdonation x hx
        exact ⟨threshDelay, ht, hsheds.receiver n hn⟩
      capacity := by
        intro t ht' r hr
        obtain rfl := Except.ok.inj (ht.symm.trans ht')
        have hspare : 0 < i.spareBy id r := (Report.mem_receiversBy.mp hr).2.2.1
        obtain ⟨hnonneg, hleft⟩ := hdonations.spareCapacity hsep hspare.le
        rw [hleft] at hnonneg
        exact sub_nonneg.mp hnonneg
      healthy := by
        intro x hx hle
        by_contra hne
        exact absurd (hpos x hx hne) (sub_nonpos.mpr hle).not_gt
      shed := by
        intro x hx notices n hx'
        obtain ⟨⟨s, s', hs, hsheds⟩, -⟩ := hdonation x hx
        rw [hx'] at hsheds ⊢
        exact hsheds.shed_lt hs
      target := by
        intro x hx hne
        rw [← max_eq_left (hpos x hx hne).le]
        exact Report.shedTargetBy_le x.1 }

namespace SheddingSample

/-- Authority 0 has a long delay, and more load than capacity. -/
def report : Report ℕ where
  tps := (((∅ : HashMap ℕ ℚ).insert 0 100).insert 1 60).insert 2 10
  capacities pk := some (if pk = 0 then 70 else 80)
  avgQueueDelay := (((∅ : HashMap ℕ ℚ).insert 0 90).insert 1 5).insert 2 5
  accountLatency _ := none
  perValidatorAccountCounts :=
    (∅ : HashMap ℕ (HashMap ℕ ℕ)).insert 0 ((((∅ : HashMap ℕ ℕ).insert 7 2).insert 8 1).insert 9 1)
  sortedKeys := [0, 1, 2]
  f := 0
  lastMigrated := ∅
  currentRound := 60
  prevAvgQd := ∅
  deltaTSecs := 1

def assignments : List (Finset ℕ) := [{7, 8, 9}, {4}, {5}]

end SheddingSample

open SheddingSample

theorem exact_rerouting_bounds_sample :
    ∃ sheds, [⟨7, 2⟩] = sheds.flatMap Prod.snd ∧ ShedBounds report assignments sheds :=
  exact_rerouting_bounds report (by decide) assignments [{8, 9}, {4}, {7, 5}] [⟨7, 2⟩]
    (by decide +kernel)

end DagBft.Consensus
