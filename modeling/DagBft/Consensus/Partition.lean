/-
  Rerouting keeps the assignment of the accounts a partition (`rerouting_keeps_partition`).

  `PlanInv` is the invariant of the loops of `compute_rerouting`: the notices so far say
  what became of the assignment. A move keeps it (`PlanInv.move`), since an account that
  its donor still has was not moved before. Over the evaluations, `last_migrated` knows a
  round at least as late as that of every migration (`LedgerInv`).
-/
import DagBft.Consensus.Balancing
import DagBft.Consensus.Shedding

namespace DagBft.Consensus

open Node (MigrationNotice)

variable {PublicKey : Type} [LinearOrder PublicKey]

/-- No account is in two of the sets. -/
def Unshared (assignments : List (Finset ℕ)) : Prop :=
  ∀ j k a, a ∈ assignments.getD j ∅ → a ∈ assignments.getD k ∅ → j = k

/-- What the notices say of the difference of two assignments: an account with a notice is
    with the new target, the others are where they were. -/
def Describes (keys : List PublicKey) (before after : List (Finset ℕ))
    (notices : List (MigrationNotice PublicKey)) : Prop :=
  ∀ k a, a ∈ after.getD k ∅ ↔
    (∃ n ∈ notices, n.accountId = a ∧ keys.idxOf n.newTarget = k) ∨
      a ∈ before.getD k ∅ ∧ ∀ n ∈ notices, n.accountId ≠ a

theorem describes_nil (keys : List PublicKey) (assignments : List (Finset ℕ)) :
    Describes keys assignments assignments [] := by
  intro k a
  simp

namespace Report

/-! ## One move -/

variable {rnd : ℚ → ℚ} {i : Report PublicKey} {donors receivers : List PublicKey} {d : Donation}
  {s s' : Shedding PublicKey} {n : MigrationNotice PublicKey}
  {notices : List (MigrationNotice PublicKey)} {donor : PublicKey}
  {before : List (Finset ℕ)} {plan plan' : Plan PublicKey}

theorem mem_modify {l : List (Finset ℕ)} {f : Finset ℕ → Finset ℕ} {j k a : ℕ}
    (hj : j < l.length) :
    a ∈ (l.modify j f).getD k ∅ ↔ if j = k then a ∈ f (l.getD k ∅) else a ∈ l.getD k ∅ := by
  rw [List.getD_eq_getElem?_getD, List.getD_eq_getElem?_getD, List.getElem?_modify]
  split
  · rename_i hjk
    subst hjk
    rw [List.getElem?_eq_getElem hj]
    rfl
  · rw [id_map']

/-- Who has what after a move from one validator to another. -/
theorem mem_move (hdonor : d.donorIdx < s.currentAssignments.length)
    (htarget : i.sortedKeys.idxOf n.newTarget < s.currentAssignments.length)
    (hne : i.sortedKeys.idxOf n.newTarget ≠ d.donorIdx) (k a : ℕ) :
    a ∈ (i.move rnd d s n).currentAssignments.getD k ∅ ↔
      (a = n.accountId ∧ i.sortedKeys.idxOf n.newTarget = k) ∨
        a ∈ s.currentAssignments.getD k ∅ ∧ (a = n.accountId → k ≠ d.donorIdx) := by
  unfold move
  rw [mem_modify (by rwa [List.length_modify]), mem_modify hdonor]
  by_cases hk : i.sortedKeys.idxOf n.newTarget = k
  · subst hk
    rw [if_pos rfl, Finset.mem_insert, mem_modify hdonor, if_neg (Ne.symm hne)]
    tauto
  · rw [if_neg hk]
    by_cases hd : d.donorIdx = k
    · subst hd
      rw [if_pos rfl, Finset.mem_erase]
      tauto
    · rw [if_neg hd]
      have hd' : k ≠ d.donorIdx := fun h => hd h.symm
      tauto

/-! ## One call -/

/-- The invariant of the loops: what the notices so far mean for the assignment `before`
    the call, and for the current one. -/
structure PlanInv (i : Report PublicKey) (donors receivers : List PublicKey)
    (before : List (Finset ℕ)) (plan : Plan PublicKey) : Prop where
  length : plan.currentAssignments.length = before.length
  unshared : Unshared plan.currentAssignments
  fresh : (plan.migrations.map fun n => n.accountId).Nodup
  describes : Describes i.sortedKeys before plan.currentAssignments plan.migrations
  owner : ∀ n ∈ plan.migrations, ∃ donor ∈ donors, n.accountId ∈ i.accountsOf before donor
  receiver : ∀ n ∈ plan.migrations, n.newTarget ∈ receivers

/-- The validators of a call: their indices are in range, and no receiver is a donor. -/
structure Roles (i : Report PublicKey) (donors receivers : List PublicKey)
    (before : List (Finset ℕ)) : Prop where
  donor_lt : ∀ donor ∈ donors, i.sortedKeys.idxOf donor < before.length
  receiver_lt : ∀ r ∈ receivers, i.sortedKeys.idxOf r < before.length
  separate : ∀ donor ∈ donors, ∀ r ∈ receivers, i.sortedKeys.idxOf r ≠ i.sortedKeys.idxOf donor

/-- What a donor still has was not moved before. -/
theorem PlanInv.notMem (hi : PlanInv i donors receivers before plan)
    (hroles : Roles i donors receivers before) (hdonor : donor ∈ donors) {a : ℕ}
    (ha : a ∈ i.accountsOf plan.currentAssignments donor) :
    a ∈ i.accountsOf before donor ∧ ∀ n ∈ plan.migrations, n.accountId ≠ a := by
  rcases (hi.describes _ a).mp ha with ⟨n, hn, -, hidx⟩ | hold
  · exact absurd hidx (hroles.separate donor hdonor _ (hi.receiver n hn))
  · exact hold

theorem PlanInv.move (hi : PlanInv i donors receivers before s.toPlan)
    (hroles : Roles i donors receivers before) (hdonor : donor ∈ donors)
    (hidx : d.donorIdx = i.sortedKeys.idxOf donor) (hn : n.newTarget ∈ receivers)
    (howned : n.accountId ∈ i.accountsOf s.currentAssignments donor) :
    PlanInv i donors receivers before (i.move rnd d s n).toPlan := by
  have hne := hroles.separate donor hdonor _ hn
  obtain ⟨hbefore, hnot⟩ := hi.notMem hroles hdonor howned
  have hlt : d.donorIdx < s.currentAssignments.length := by
    rw [hidx, hi.length]
    exact hroles.donor_lt donor hdonor
  have hlt' : i.sortedKeys.idxOf n.newTarget < s.currentAssignments.length := by
    rw [hi.length]
    exact hroles.receiver_lt _ hn
  have hmem : ∀ k a, a ∈ (i.move rnd d s n).currentAssignments.getD k ∅ ↔
      (a = n.accountId ∧ i.sortedKeys.idxOf n.newTarget = k) ∨
        a ∈ s.currentAssignments.getD k ∅ ∧ (a = n.accountId → k ≠ d.donorIdx) :=
    mem_move hlt hlt' (hidx ▸ hne)
  -- only the donor has the account
  have hshare : ∀ k, n.accountId ∈ s.currentAssignments.getD k ∅ → k = d.donorIdx := by
    intro k hk
    exact hi.unshared k d.donorIdx _ hk (hidx ▸ howned)
  exact {
    length := by
      rw [← hi.length]
      unfold Report.move
      rw [List.length_modify, List.length_modify]
    unshared := by
      intro j k a hj hk
      rcases (hmem j a).mp hj with ⟨rfl, htarget⟩ | ⟨hold, hnej⟩
      · rcases (hmem k _).mp hk with ⟨-, htarget'⟩ | ⟨hold', hnek⟩
        · exact htarget.symm.trans htarget'
        · exact absurd (hshare k hold') (hnek rfl)
      · rcases (hmem k a).mp hk with ⟨rfl, -⟩ | ⟨hold', -⟩
        · exact absurd (hshare j hold) (hnej rfl)
        · exact hi.unshared j k a hold hold'
    fresh := by
      unfold Report.move
      rw [List.map_append, List.map_singleton, List.nodup_append]
      refine ⟨hi.fresh, List.nodup_singleton _, ?_⟩
      rintro a ha b hb
      obtain ⟨n', hn', rfl⟩ := List.mem_map.mp ha
      rw [List.mem_singleton.mp hb]
      exact hnot n' hn'
    describes := by
      intro k a
      have hnotices : (i.move rnd d s n).migrations = s.migrations ++ [n] := rfl
      rw [hmem k a, hnotices]
      by_cases ha : a = n.accountId
      · subst ha
        constructor
        · rintro (⟨-, htarget⟩ | ⟨hk, hnek⟩)
          · exact Or.inl ⟨n, List.mem_append_right _ List.mem_cons_self, rfl, htarget⟩
          · exact absurd (hshare k hk) (hnek rfl)
        · rintro (⟨n', hn', hacct, htarget⟩ | ⟨-, hnone⟩)
          · rcases List.mem_append.mp hn' with hold | hnew
            · exact absurd hacct (hnot n' hold)
            · rw [List.mem_singleton.mp hnew] at htarget
              exact Or.inl ⟨rfl, htarget⟩
          · exact absurd rfl (hnone n (List.mem_append_right _ List.mem_cons_self))
      · rw [hi.describes k a]
        have hne' : n.accountId ≠ a := fun h => ha h.symm
        simp [ha, hne', or_and_right, exists_or, or_imp, forall_and]
    owner := by
      intro n' hn'
      rcases List.mem_append.mp hn' with hold | hnew
      · exact hi.owner n' hold
      · rw [List.mem_singleton.mp hnew]
        exact ⟨donor, hdonor, hbefore⟩
    receiver := by
      intro n' hn'
      rcases List.mem_append.mp hn' with hold | hnew
      · exact hi.receiver n' hold
      · rw [List.mem_singleton.mp hnew]
        exact hn }

/-- After a move the donor has the rest. -/
theorem accountsOf_move_donor (hlt : d.donorIdx < s.currentAssignments.length)
    (hidx : d.donorIdx = i.sortedKeys.idxOf donor)
    (htarget : i.sortedKeys.idxOf n.newTarget ≠ i.sortedKeys.idxOf donor) :
    i.accountsOf (i.move rnd d s n).currentAssignments donor =
      (i.accountsOf s.currentAssignments donor).erase n.accountId := by
  unfold accountsOf move
  rw [List.getD_eq_getElem?_getD, List.getElem?_modify_ne _ _ htarget, ← hidx,
    List.getElem?_modify_eq, List.getD_eq_getElem?_getD, List.getElem?_eq_getElem hlt]
  rfl

theorem Sheds.planInv (h : Sheds rnd i receivers d s notices s')
    (hi : PlanInv i donors receivers before s.toPlan) (hroles : Roles i donors receivers before)
    (hdonor : donor ∈ donors) (hidx : d.donorIdx = i.sortedKeys.idxOf donor)
    (hnodup : (notices.map fun n => n.accountId).Nodup)
    (howned : ∀ n ∈ notices, n.accountId ∈ i.accountsOf s.currentAssignments donor) :
    PlanInv i donors receivers before s'.toPlan := by
  induction h with
  | done s => exact hi
  | @move s s' n notices admits rest ih =>
      obtain ⟨hn, hrest⟩ := List.forall_mem_cons.mp howned
      rw [List.map_cons, List.nodup_cons] at hnodup
      refine ih (hi.move hroles hdonor hidx admits.receiver hn) hnodup.2 fun n' hn' => ?_
      have hlt : d.donorIdx < s.currentAssignments.length := by
        rw [hidx, hi.length]
        exact hroles.donor_lt donor hdonor
      rw [accountsOf_move_donor hlt hidx (hroles.separate donor hdonor _ admits.receiver),
        Finset.mem_erase]
      refine ⟨fun he => hnodup.1 ?_, hrest n' hn'⟩
      exact List.mem_map.mpr ⟨n', hn', he⟩

variable {sheds : List (PublicKey × List (MigrationNotice PublicKey))}

theorem Donations.planInv (h : Donations rnd i receivers plan sheds plan')
    (hi : PlanInv i donors receivers before plan) (hroles : Roles i donors receivers before)
    (hdonors : ∀ x ∈ sheds, x.1 ∈ donors) : PlanInv i donors receivers before plan' := by
  induction h with
  | done plan => exact hi
  | donor donates rest ih =>
      obtain ⟨⟨s, hsheds, rfl⟩, hnodup, howned⟩ := donates
      obtain ⟨hdonor, hrest⟩ := List.forall_mem_cons.mp hdonors
      exact ih (hsheds.planInv hi hroles hdonor rfl hnodup howned) hrest

theorem Donations.cooled (h : Donations rnd i receivers plan sheds plan') :
    ∀ x ∈ sheds, ∀ n ∈ x.2, ∀ r ∈ i.lastMigrated.lookup n.accountId,
      rerouteInterval * 2 ≤ i.currentRound - r := by
  induction h with
  | done plan => simp
  | donor donates rest ih =>
      obtain ⟨⟨s, hsheds, -⟩, -, -⟩ := donates
      exact List.forall_mem_cons.mpr ⟨hsheds.cooled, ih⟩

end Report

/-- What is known of an evaluation: its notices are the difference of the assignments, one
    for an account, from a donor to a receiver that is not one. -/
structure Exact (i : Report PublicKey) (before after : List (Finset ℕ))
    (migrations : List (MigrationNotice PublicKey)) : Prop where
  describes : Describes i.sortedKeys before after migrations
  once : (migrations.map fun n => n.accountId).Nodup
  roles : ∀ n ∈ migrations, ∃ t, i.threshDelay = .ok t ∧
    (∃ donor ∈ i.donors t, n.accountId ∈ i.accountsOf before donor) ∧
    n.newTarget ∈ i.receivers t ∧ n.newTarget ∉ i.donors t

theorem Report.computeRerouting_spec {i : Report PublicKey} {before after : List (Finset ℕ)}
    {migrations : List (MigrationNotice PublicKey)} (hbefore : Unshared before)
    (h : i.computeRerouting before = .ok (migrations, after)) :
    Exact i before after migrations ∧ Unshared after ∧
      ∀ n ∈ migrations, ∀ r ∈ i.lastMigrated.lookup n.accountId,
        rerouteInterval * 2 ≤ i.currentRound - r := by
  rw [← Report.computeReroutingBy_round] at h
  rcases Report.computeReroutingBy_cases h with ⟨rfl, rfl⟩ |
    ⟨t, sheds, plan, ht, hlen, hfst, hdonations, rfl, rfl⟩
  · exact ⟨⟨describes_nil _ _, List.nodup_nil, by simp⟩, hbefore, by simp⟩
  · have hroles : Report.Roles i (i.donorsBy Double.round t) (i.receiversBy Double.round t)
        before := by
      exact {
        donor_lt := fun donor hd =>
          (List.idxOf_lt_length_of_mem (Report.mem_donorsBy.mp hd).1).trans_le hlen
        receiver_lt := fun r hr =>
          (List.idxOf_lt_length_of_mem (Report.mem_receiversBy.mp hr).1).trans_le hlen
        separate := fun donor hd r hr => Report.ne_of_mem_receiversBy hd hr }
    have hinitial : Report.PlanInv i (i.donorsBy Double.round t) (i.receiversBy Double.round t)
        before ⟨[], before, i.spareBy Double.round⟩ :=
      ⟨rfl, hbefore, List.nodup_nil, describes_nil _ _, by simp, by simp⟩
    have hi := hdonations.planInv hinitial hroles fun x hx => hfst ▸ List.mem_map_of_mem hx
    have hmigrations : plan.migrations = sheds.flatMap Prod.snd := by
      rw [hdonations.migrations, List.nil_append]
    rw [← hmigrations]
    refine ⟨⟨hi.describes, hi.fresh, fun n hn => ?_⟩, hi.unshared, ?_⟩
    · have hrecv := hi.receiver n hn
      refine ⟨t, ht, hi.owner n hn, hrecv, fun hdonor => ?_⟩
      exact hroles.separate _ hdonor _ hrecv rfl
    · rw [hmigrations]
      intro n hn
      obtain ⟨x, hx, hnx⟩ := List.mem_flatMap.mp hn
      exact hdonations.cooled x hx n hnx

/-! ## The calls of the task -/

/-- One call of `compute_rerouting`. -/
structure Call (PublicKey : Type) [LinearOrder PublicKey] where
  report : Report PublicKey
  before : List (Finset ℕ)
  after : List (Finset ℕ)
  migrations : List (MigrationNotice PublicKey)

/-- What the task keeps of the migrations from one call to the next. -/
structure Ledger where
  lastMigrated : HashMap ℕ ℕ
  currentAssignments : List (Finset ℕ)

/-- `last_migrated` after a call. -/
def recordMigrations (lastMigrated : HashMap ℕ ℕ) (round : ℕ)
    (migrations : List (MigrationNotice PublicKey)) : HashMap ℕ ℕ :=
  migrations.foldl (fun l n => l.insert n.accountId round) lastMigrated

variable {cfg : BalancingSettings PublicKey}

variable (cfg) in
def Ledger.initial : Ledger :=
  ⟨∅, cfg.accountRanges.entries.map fun x => BalancingSettings.accounts x.2⟩

variable (cfg) in
/-- Calls in increasing rounds, whatever is reported of the validators. -/
inductive Calls : List (Call PublicKey) → Ledger → Prop
  | initial : Calls [] (Ledger.initial cfg)
  | call {calls : List (Call PublicKey)} {l : Ledger} (run : Calls calls l)
      (i : Report PublicKey) (keys : i.sortedKeys = cfg.committee.keys)
      (lastMigrated : i.lastMigrated = l.lastMigrated)
      (increasing : ∀ x ∈ calls, x.report.currentRound < i.currentRound)
      {migrations : List (MigrationNotice PublicKey)} {after : List (Finset ℕ)}
      (rerouted : i.computeRerouting l.currentAssignments = .ok (migrations, after)) :
      Calls (calls ++ [⟨i, l.currentAssignments, after, migrations⟩])
        ⟨recordMigrations l.lastMigrated i.currentRound migrations, after⟩

/-- The sets are disjoint and hold the accounts of the ranges. -/
def Partitioned (cfg : BalancingSettings PublicKey) (assignments : List (Finset ℕ)) : Prop :=
  assignments.Pairwise Disjoint ∧ ∀ a, (∃ x ∈ assignments, a ∈ x) ↔
    ∃ x ∈ cfg.accountRanges.entries, a ∈ BalancingSettings.accounts x.2

/-- A later call that moves the same account is a cool-down later. -/
def Cooled (x y : Call PublicKey) : Prop :=
  ∀ n ∈ x.migrations, ∀ n' ∈ y.migrations, n.accountId = n'.accountId →
    x.report.currentRound + rerouteInterval * 2 ≤ y.report.currentRound

theorem unshared_iff {assignments : List (Finset ℕ)} :
    Unshared assignments ↔ assignments.Pairwise Disjoint := by
  rw [List.pairwise_iff_getElem]
  constructor
  · intro h j k hj hk hlt
    rw [Finset.disjoint_left]
    intro a haj hak
    refine hlt.ne (h j k a ?_ ?_)
    · rwa [List.getD_eq_getElem _ _ hj]
    · rwa [List.getD_eq_getElem _ _ hk]
  · intro h j k a haj hak
    have hin : ∀ m, a ∈ assignments.getD m ∅ → m < assignments.length := by
      intro m hm
      by_contra hlt
      rw [List.getD_eq_default _ _ (not_lt.mp hlt)] at hm
      exact absurd hm (Finset.notMem_empty a)
    have hj := hin j haj
    have hk := hin k hak
    rw [List.getD_eq_getElem _ _ hj] at haj
    rw [List.getD_eq_getElem _ _ hk] at hak
    rcases lt_trichotomy j k with hlt | heq | hlt
    · exact absurd hak (Finset.disjoint_left.mp (h j k hj hk hlt) haj)
    · exact heq
    · exact absurd haj (Finset.disjoint_left.mp (h k j hk hj hlt) hak)

theorem exists_mem_iff {assignments : List (Finset ℕ)} {a : ℕ} :
    (∃ x ∈ assignments, a ∈ x) ↔ ∃ k, a ∈ assignments.getD k ∅ := by
  constructor
  · rintro ⟨x, hx, ha⟩
    obtain ⟨k, hk, rfl⟩ := List.mem_iff_getElem.mp hx
    exact ⟨k, by rwa [List.getD_eq_getElem _ _ hk]⟩
  · rintro ⟨k, ha⟩
    by_cases hk : k < assignments.length
    · rw [List.getD_eq_getElem _ _ hk] at ha
      exact ⟨_, List.getElem_mem hk, ha⟩
    · rw [List.getD_eq_default _ _ (not_lt.mp hk)] at ha
      exact absurd ha (Finset.notMem_empty a)

/-- The accounts are the same before and after. -/
theorem Exact.accounts {i : Report PublicKey} {before after : List (Finset ℕ)}
    {migrations : List (MigrationNotice PublicKey)} (h : Exact i before after migrations) (a : ℕ) :
    (∃ x ∈ after, a ∈ x) ↔ ∃ x ∈ before, a ∈ x := by
  rw [exists_mem_iff, exists_mem_iff]
  constructor
  · rintro ⟨k, hk⟩
    rcases (h.describes k a).mp hk with ⟨n, hn, rfl, -⟩ | ⟨hold, -⟩
    · obtain ⟨t, -, ⟨donor, -, howned⟩, -⟩ := h.roles n hn
      exact ⟨_, howned⟩
    · exact ⟨k, hold⟩
  · rintro ⟨k, hk⟩
    by_cases hmoved : ∃ n ∈ migrations, n.accountId = a
    · obtain ⟨n, hn, hacct⟩ := hmoved
      exact ⟨_, (h.describes _ a).mpr (Or.inl ⟨n, hn, hacct, rfl⟩)⟩
    · push Not at hmoved
      exact ⟨k, (h.describes k a).mpr (Or.inr ⟨hk, hmoved⟩)⟩

omit [LinearOrder PublicKey] in
theorem lookup_recordMigrations (lastMigrated : HashMap ℕ ℕ) (round : ℕ)
    (migrations : List (MigrationNotice PublicKey)) (a : ℕ) :
    (recordMigrations lastMigrated round migrations).lookup a =
      if ∃ n ∈ migrations, n.accountId = a then some round else lastMigrated.lookup a := by
  induction migrations generalizing lastMigrated with
  | nil => simp [recordMigrations]
  | cons n migrations ih =>
      have hcons : recordMigrations lastMigrated round (n :: migrations) =
          recordMigrations (lastMigrated.insert n.accountId round) round migrations := rfl
      rw [hcons, ih, HashMap.lookup_insert_eq]
      simp only [List.exists_mem_cons_iff]
      by_cases hrest : ∃ n ∈ migrations, n.accountId = a
      · rw [if_pos hrest, if_pos (Or.inr hrest)]
      · rw [if_neg hrest]
        by_cases ha : n.accountId = a
        · rw [if_pos ha.symm, if_pos (Or.inl ha)]
        · rw [if_neg (Ne.symm ha), if_neg (not_or.mpr ⟨ha, hrest⟩)]

/-- The invariant of the calls. -/
structure LedgerInv (cfg : BalancingSettings PublicKey) (calls : List (Call PublicKey))
    (l : Ledger) : Prop where
  partitioned : Partitioned cfg l.currentAssignments
  exact : ∀ x ∈ calls, Exact x.report x.before x.after x.migrations
  cooled : calls.Pairwise Cooled
  /-- `last_migrated` is not before any migration of the account. -/
  last : ∀ x ∈ calls, ∀ n ∈ x.migrations,
    ∃ r ∈ l.lastMigrated.lookup n.accountId, x.report.currentRound ≤ r

theorem ledgerInv_initial (hranges : cfg.accountRanges.entries.Pairwise fun x y =>
      Disjoint (BalancingSettings.accounts x.2) (BalancingSettings.accounts y.2)) :
    LedgerInv cfg [] (Ledger.initial cfg) where
  partitioned := by
    refine ⟨List.pairwise_map.mpr hranges, fun a => ?_⟩
    simp [Ledger.initial]
  exact := by simp
  cooled := List.Pairwise.nil
  last := by simp

theorem LedgerInv.call {calls : List (Call PublicKey)} {l : Ledger} (hi : LedgerInv cfg calls l)
    {i : Report PublicKey} (hlast : i.lastMigrated = l.lastMigrated)
    (hincreasing : ∀ x ∈ calls, x.report.currentRound < i.currentRound)
    {migrations : List (MigrationNotice PublicKey)} {after : List (Finset ℕ)}
    (h : i.computeRerouting l.currentAssignments = .ok (migrations, after)) :
    LedgerInv cfg (calls ++ [⟨i, l.currentAssignments, after, migrations⟩])
      ⟨recordMigrations l.lastMigrated i.currentRound migrations, after⟩ := by
  obtain ⟨hexact, hunshared, hcool⟩ :=
    Report.computeRerouting_spec (unshared_iff.mpr hi.partitioned.1) h
  exact {
    partitioned := by
      refine ⟨unshared_iff.mp hunshared, fun a => ?_⟩
      rw [hexact.accounts a]
      exact hi.partitioned.2 a
    exact := by
      intro x hx
      rcases List.mem_append.mp hx with hold | hnew
      · exact hi.exact x hold
      · rw [List.mem_singleton.mp hnew]
        exact hexact
    cooled := by
      rw [List.pairwise_append]
      refine ⟨hi.cooled, List.pairwise_singleton _ _, fun x hx y hy => ?_⟩
      rw [List.mem_singleton.mp hy]
      intro n hn n' hn' hacct
      obtain ⟨r, hr, hle⟩ := hi.last x hx n hn
      have hwait := hcool n' hn' r (by rwa [hlast, ← hacct])
      have hpos : 0 < rerouteInterval * 2 := by decide
      dsimp only
      omega
    last := by
      intro x hx n hn
      rw [lookup_recordMigrations]
      rcases List.mem_append.mp hx with hold | hnew
      · split
        · exact ⟨i.currentRound, rfl, (hincreasing x hold).le⟩
        · exact hi.last x hold n hn
      · rw [List.mem_singleton.mp hnew] at hn ⊢
        rw [if_pos ⟨n, hn, rfl⟩]
        exact ⟨i.currentRound, rfl, le_rfl⟩ }

theorem ledgerInv_of_calls (hranges : cfg.accountRanges.entries.Pairwise fun x y =>
      Disjoint (BalancingSettings.accounts x.2) (BalancingSettings.accounts y.2))
    {calls : List (Call PublicKey)} {l : Ledger} (hrun : Calls cfg calls l) :
    LedgerInv cfg calls l := by
  induction hrun with
  | initial => exact ledgerInv_initial hranges
  | call run i keys lastMigrated increasing rerouted ih =>
      exact ih.call lastMigrated increasing rerouted

/-! ## The task makes such calls -/

section Task

variable {Digest Signature : Type} [LinearOrder Digest] {name : PublicKey}
  {received : List (Certificate PublicKey Digest Signature)} {s : Balancer PublicKey}
  {t : Trackers PublicKey} {m m' : Memory PublicKey} {round createdAt : ℕ}
  {migrations : List (MigrationNotice PublicKey)}

/-- What the task keeps of the migrations. -/
def Memory.ledger (m : Memory PublicKey) : Ledger := ⟨m.lastMigrated, m.currentAssignments⟩

variable (cfg) in
/-- A call in this round makes these migrations, and the task keeps them. -/
def CallsOnce (round : ℕ) (m m' : Memory PublicKey)
    (migrations : List (MigrationNotice PublicKey)) : Prop :=
  ∃ i : Report PublicKey, i.sortedKeys = cfg.committee.keys ∧
    i.lastMigrated = m.lastMigrated ∧ i.currentRound = round ∧
    i.computeRerouting m.currentAssignments = .ok (migrations, m'.currentAssignments) ∧
    m'.lastMigrated = recordMigrations m.lastMigrated round migrations

theorem evaluate_call {tps : HashMap PublicKey ℚ}
    (h : evaluate cfg t m round createdAt tps = .ok (migrations, m')) :
    CallsOnce cfg round m m' migrations := by
  have key : ∀ {i : Report PublicKey} {f : List (MigrationNotice PublicKey) × List (Finset ℕ) →
      List (MigrationNotice PublicKey) × Memory PublicKey},
      i.sortedKeys = cfg.committee.keys → i.lastMigrated = m.lastMigrated → i.currentRound = round →
      (∀ x, (f x).1 = x.1 ∧ (f x).2.currentAssignments = x.2 ∧
        (f x).2.lastMigrated = recordMigrations m.lastMigrated round x.1) →
      (i.computeRerouting m.currentAssignments >>= fun x => .ok (f x)) = .ok (migrations, m') →
      CallsOnce cfg round m m' migrations := by
    intro i f hkeys hlast hround hf h
    obtain ⟨⟨migrations', after⟩, hrerouted, h⟩ := bind_eq_ok.mp h
    obtain ⟨h₁, h₂, h₃⟩ := hf (migrations', after)
    rw [Except.ok.inj h] at h₁ h₂ h₃
    obtain rfl : migrations = migrations' := h₁
    exact ⟨i, hkeys, hlast, hround, h₂ ▸ hrerouted, h₃⟩
  unfold evaluate at h
  obtain ⟨ts, -, h⟩ := bind_eq_ok.mp h
  cases hp : m.prevEvalTsMs with
  | some prev =>
      rw [hp] at h
      exact key rfl rfl rfl (fun _ => ⟨rfl, rfl, rfl⟩) h
  | none =>
      rw [hp] at h
      obtain ⟨first, -, h⟩ := bind_eq_ok.mp h
      cases first with
      | none => cases h
      | some first => exact key rfl rfl rfl (fun _ => ⟨rfl, rfl, rfl⟩) h

/-- The evaluations of the task are calls in increasing rounds. -/
theorem calls_of_balance (hincreasing : Increasing name received)
    (h : balance cfg name received = .ok s) :
    ∃ calls, Calls cfg calls s.memory.ledger ∧
      (∀ x ∈ calls, ∃ c ∈ received, c.origin = name ∧ c.round = x.report.currentRound) ∧
      s.evaluations.filterMap
          (fun e => e.migrations.map fun m => (e.round, m, e.currentAssignments)) =
        calls.map fun x => (x.report.currentRound, x.migrations, x.after) := by
  induction received using List.reverseRecOn generalizing s with
  | nil =>
      refine ⟨[], ?_, by simp, ?_⟩
      · unfold balance BalancingSettings.initial at h
        split at h
        · cases h
        · rw [← Except.ok.inj h]
          exact Calls.initial
      · unfold balance BalancingSettings.initial at h
        split at h
        · cases h
        · rw [← Except.ok.inj h]
          rfl
  | append_singleton received c ih =>
      obtain ⟨s₁, hrun, hstep⟩ := balance_append.mp h
      obtain ⟨calls, hcalls, hrounds, hevaluations⟩ := ih hincreasing.of_append hrun
      have hrounds' : ∀ x ∈ calls, ∃ c' ∈ received ++ [c], c'.origin = name ∧
          c'.round = x.report.currentRound := fun x hx =>
        (hrounds x hx).imp fun _ ⟨hmem, h⟩ => ⟨List.mem_append_left _ hmem, h⟩
      rcases onCertificate_cases hstep with ⟨-, rfl⟩ | ⟨⟨hown, -⟩, e, m, htrigger, rfl⟩
      · exact ⟨calls, hcalls, hrounds', hevaluations⟩
      · unfold trigger at htrigger
        obtain ⟨tps, -, htrigger⟩ := bind_eq_ok.mp htrigger
        cases tps with
        | none =>
            obtain ⟨rfl, rfl⟩ := Prod.mk.inj (Except.ok.inj htrigger)
            refine ⟨calls, hcalls, hrounds', ?_⟩
            rw [List.filterMap_append, hevaluations]
            simp
        | some tps =>
            obtain ⟨⟨migrations, m'⟩, hevaluate, htrigger⟩ := bind_eq_ok.mp htrigger
            obtain ⟨rfl, rfl⟩ := Prod.mk.inj (Except.ok.inj htrigger)
            obtain ⟨i, hkeys, hlast, hround, hrerouted, hmemory⟩ := evaluate_call hevaluate
            have hlater : ∀ x ∈ calls, x.report.currentRound < i.currentRound := by
              intro x hx
              obtain ⟨o, ho, horigin, hox⟩ := hrounds x hx
              rw [← hox, hround]
              exact hincreasing.lt hown ho horigin
            have hcall := hcalls.call i hkeys hlast hlater hrerouted
            refine ⟨calls ++ [⟨i, s₁.memory.currentAssignments, m'.currentAssignments, migrations⟩],
              ?_, fun x hx => ?_, ?_⟩
            · have hledger : m'.ledger = ⟨recordMigrations s₁.memory.lastMigrated i.currentRound
                  migrations, m'.currentAssignments⟩ := by
                unfold Memory.ledger
                rw [hmemory, hround]
              rw [hledger]
              exact hcall
            · rcases List.mem_append.mp hx with hold | hnew
              · exact hrounds' x hold
              · rw [List.mem_singleton.mp hnew]
                exact ⟨c, by simp, hown, hround.symm⟩
            · rw [List.filterMap_append, hevaluations, List.map_append]
              simp [hround]

end Task

/-- Where the account ranges are disjoint the assignment stays a partition of their
    accounts, the notices of a call are exactly what changes, and an account moves again
    only after the cool-down. -/
theorem rerouting_keeps_partition (cfg : BalancingSettings PublicKey)
    (hranges : cfg.accountRanges.entries.Pairwise fun x y =>
      Disjoint (BalancingSettings.accounts x.2) (BalancingSettings.accounts y.2))
    (calls : List (Call PublicKey)) (l : Ledger) (hrun : Calls cfg calls l) :
    Partitioned cfg l.currentAssignments ∧
      (∀ x ∈ calls, Exact x.report x.before x.after x.migrations) ∧ calls.Pairwise Cooled := by
  have hi := ledgerInv_of_calls hranges hrun
  exact ⟨hi.partitioned, hi.exact, hi.cooled⟩

namespace PartitionSample

def committee : Committee ℕ := ⟨⟨[(0, ⟨1, []⟩), (1, ⟨1, []⟩), (2, ⟨1, []⟩)], by decide⟩⟩

def settings : BalancingSettings ℕ where
  committee := committee
  capacityByBw pk := if pk = 0 then 70 else 80
  latencyMatrix := ⟨[], by decide⟩
  accountRanges := ⟨[(0, (7, 3)), (1, (4, 1)), (2, (5, 1))], by decide⟩

/-- Later authority 2 is the one with a long delay. -/
def laterReport : Report ℕ :=
  { SheddingSample.report with
    tps := (((∅ : HashMap ℕ ℚ).insert 0 10).insert 1 60).insert 2 100
    avgQueueDelay := (((∅ : HashMap ℕ ℚ).insert 0 5).insert 1 5).insert 2 90
    perValidatorAccountCounts :=
      (∅ : HashMap ℕ (HashMap ℕ ℕ)).insert 2 (((∅ : HashMap ℕ ℕ).insert 5 3).insert 7 1)
    lastMigrated := (∅ : HashMap ℕ ℕ).insert 7 60
    currentRound := 180 }

/-- Account 7 goes to authority 2 and comes back. -/
def calls : List (Call ℕ) :=
  [⟨SheddingSample.report, [{7, 8, 9}, {4}, {5}], [{8, 9}, {4}, {7, 5}], [⟨7, 2⟩]⟩,
    ⟨laterReport, [{8, 9}, {4}, {7, 5}], [{7, 8, 9}, {4}, {5}], [⟨7, 0⟩]⟩]

theorem calls_calls : Calls settings calls
    ⟨((∅ : HashMap ℕ ℕ).insert 7 60).insert 7 180, [{7, 8, 9}, {4}, {5}]⟩ :=
  Calls.call (Calls.call Calls.initial SheddingSample.report rfl rfl (by simp)
      (by decide +kernel)) laterReport rfl rfl (by decide) (by decide +kernel)

end PartitionSample

theorem rerouting_keeps_partition_sample :
    Partitioned PartitionSample.settings [{7, 8, 9}, {4}, {5}] ∧
      (∀ x ∈ PartitionSample.calls, Exact x.report x.before x.after x.migrations) ∧
      PartitionSample.calls.Pairwise Cooled :=
  rerouting_keeps_partition PartitionSample.settings (by decide) PartitionSample.calls _
    PartitionSample.calls_calls

end DagBft.Consensus
