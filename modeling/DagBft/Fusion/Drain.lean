/-
  `drain_pending_queues` of the data-fusion design (`worker/src/batch_executor.rs`), whatever
  has happened to the executor before.

  `work` gives the pending transactions the discipline of `Lib/LockQueues`: a drain deals with
  them one by one, and the accounts that it looks at are those that are awake.
  `drainPendingQueues_ends` follows the two loops: enough fuel being given, the drain gets to
  where nothing is left to do, or it panics at a `MigrateOut` that names an account twice.
  `drain_confluent` concludes for every state that an executor can reach (`Reached`) with
  transactions of different ids, and any two orders of the worklist. Where an id comes twice, an
  executor takes one transaction for the other, and the order decides whether it panics
  (`not_drain_confluent`).
-/
import DagBft.Fusion.Pending

namespace DagBft.Fusion

open Worker LockQueues

/-! ## The pending transactions as jobs -/

/-- The store with these accounts only. -/
def onlyOn (accounts : List ℕ) (store : AccountStore) : AccountStore := fun a =>
  if a ∈ accounts then store a else none

namespace PendingTransaction

variable (p : PendingTransaction)

/-- Its accounts after it. -/
def after (store : AccountStore) : AccountStore :=
  match p.locality with
  | .local => effect p.sbTx store
  | _ => fun _ => none

/-- What it sends. -/
def requests (store : AccountStore) : List StateTransferRequest :=
  match p.locality with
  | .migrateOut owned _ dest =>
      owned.map fun a => ⟨⟨p.txHeader.id, a, (store a).getD ⟨0, 0⟩⟩, dest⟩
  | _ => []

/-- It sends no account twice. -/
def SendsOnce : Prop :=
  ∀ owned others dest, p.locality = .migrateOut owned others dest → owned.Nodup

end PendingTransaction

/-- What is sent comes with the transactions that have been dealt with. -/
def work : Discipline ℕ (Option AccountState) PendingTransaction
    (Multiset StateTransferRequest × Multiset PendingTransaction) where
  keys := PendingTransaction.enqueuedOn
  ready p store := p.Drainable ∧ ∀ a ∈ p.enqueuedOn, (store a).isSome
  act p store a :=
    if a ∈ p.enqueuedOn then p.after (onlyOn p.enqueuedOn store) a else store a
  emit p store := (p.requests (onlyOn p.enqueuedOn store), {p})
  wakes p := p.locality = .local
  act_frame p store a ha := if_neg ha
  act_congr p store store' h a ha := by
    have heq : onlyOn p.enqueuedOn store = onlyOn p.enqueuedOn store' := by
      funext b
      exact if_ctx_congr Iff.rfl (fun hb => h b hb) fun _ => rfl
    rw [if_pos ha, if_pos ha, heq]
  ready_congr p store store' h hready :=
    ⟨hready.1, fun a ha => (congrArg Option.isSome (h a ha)) ▸ hready.2 a ha⟩
  emit_congr p store store' h := by
    have heq : onlyOn p.enqueuedOn store = onlyOn p.enqueuedOn store' := by
      funext b
      exact if_ctx_congr Iff.rfl (fun hb => h b hb) fun _ => rfl
    rw [heq]

/-- The jobs that are left, what has been dealt with, and the accounts looked at. -/
abbrev Progress := State ℕ (Option AccountState) PendingTransaction
  (Multiset StateTransferRequest × Multiset PendingTransaction)

/-- The executor stands there, with these buffers. -/
structure Shows (b : TransferMap × TransferMap) (t : Progress) (s : Executor) : Prop where
  buffers : s.buffers = b
  holds : Holds t.jobs s
  store : s.accountStore = t.store
  sent : (s.txSendState : Multiset StateTransferRequest) = t.sent.1
  once : ∀ p ∈ t.sent.2, p.SendsOnce

/-- It has come to a transaction that sends an account twice. -/
def Fails (t : Progress) : Prop :=
  ∃ t' p, work.Steps t t' ∧ p ∈ t'.sent.2 ∧ ¬ p.SendsOnce

section Deal

variable {cfg : Settings} {b : TransferMap × TransferMap} {t : Progress} {s : Executor}
  {p : PendingTransaction}

theorem executeMigrateOut_absent (txId : TxID) (dest : ℕ) {accounts : List ℕ}
    (h : ∃ a ∈ accounts, s.accountStore a = none) :
    Executor.executeMigrateOut txId dest accounts s = .error .accountNotFound := by
  induction accounts generalizing s with
  | nil => simp at h
  | cons account accounts ih =>
      unfold Executor.executeMigrateOut
      cases hv : s.accountStore account with
      | none => rfl
      | some v =>
          obtain ⟨a, ha, hnone⟩ := h
          refine ih ⟨a, ?_, ?_⟩
          · refine (List.mem_cons.mp ha).resolve_left fun heq => ?_
            rw [heq, hv] at hnone
            cases hnone
          · by_cases haa : a = account
            · simp [haa]
            · simp [haa, hnone]

/-- An account cannot be sent twice. -/
theorem executeMigrateOut_twice (txId : TxID) (dest : ℕ) {accounts : List ℕ}
    (h : ¬ accounts.Nodup) :
    Executor.executeMigrateOut txId dest accounts s = .error .accountNotFound := by
  induction accounts generalizing s with
  | nil => simp at h
  | cons account accounts ih =>
      unfold Executor.executeMigrateOut
      cases hv : s.accountStore account with
      | none => rfl
      | some v =>
          by_cases hmem : account ∈ accounts
          · exact executeMigrateOut_absent txId dest ⟨account, hmem, by simp⟩
          · refine ih fun hnodup => h ?_
            exact List.nodup_cons.mpr ⟨hmem, hnodup⟩

theorem Shows.popped (hs : Shows b t s) (hp : work.Enabled t p) :
    s.popTransactionFromAccounts p.enqueuedOn p.txHeader.id =
      .ok (p, { s with pendingQueues := queuesOf (t.jobs.erase p) }) := by
  obtain ⟨a, ha, -⟩ := hp.awake
  exact hs.holds.pop hp.mem hp.head (List.ne_nil_of_mem ha)

/-- A `Local` transaction at its heads is executed. -/
theorem Shows.executeLocal (cfg : Settings) (hs : Shows b t s) (hp : work.Enabled t p)
    (hl : p.locality = .local) :
    ∃ s', Executor.executeSingleLocalTransaction cfg
        { s with pendingQueues := queuesOf (t.jobs.erase p) } p.batchDigest p.txBytes p.txHeader =
          .ok s' ∧ Shows b (work.deal t p) s' := by
  have hproper := hs.holds.proper p hp.mem
  have hparse := hproper.payload
  have hreq := hproper.required hl
  have hon : p.enqueuedOn = p.sbTx.requiredAccounts := by
    rw [← hreq]
    simp only [PendingTransaction.enqueuedOn, hl]
  have honly : ∀ a ∈ p.sbTx.requiredAccounts,
      s.accountStore a = onlyOn p.enqueuedOn s.accountStore a := by
    intro a ha
    unfold onlyOn
    rw [if_pos (hon ▸ ha)]
  have hsome : ∀ a ∈ p.sbTx.requiredAccounts,
      (onlyOn p.enqueuedOn s.accountStore a).isSome := by
    intro a ha
    rw [← honly a ha, hs.store]
    exact hp.ready.2 a (hon ▸ ha)
  obtain ⟨replies, hok⟩ := @Executor.executeSingleLocalTransaction_eq cfg
    { s with pendingQueues := queuesOf (t.jobs.erase p) } _ _ p.batchDigest p.txHeader _ hparse
    hsome honly
  refine ⟨_, hok, hs.buffers, hs.holds.erase rfl, ?_, ?_, ?_⟩
  · funext a
    show (if a ∈ p.sbTx.requiredAccounts then _ else s.accountStore a) =
      if a ∈ p.enqueuedOn then p.after (onlyOn p.enqueuedOn t.store) a else t.store a
    rw [hon, hs.store]
    simp only [PendingTransaction.after, hl]
  · show (s.txSendState : Multiset StateTransferRequest) = t.sent.1 + _
    rw [hs.sent]
    simp [work, PendingTransaction.requests, hl]
  · intro q hq
    rcases Multiset.mem_add.mp hq with hq | hq
    · exact hs.once q hq
    · rw [Multiset.mem_singleton.mp hq]
      exact fun owned others dest hl' => by simp [hl] at hl'

/-- A `MigrateOut` at its heads sends its accounts, unless it names one twice. -/
theorem Shows.executeMigrateOut {owned others : List ℕ} {dest : ℕ} (hs : Shows b t s)
    (hp : work.Enabled t p) (hl : p.locality = .migrateOut owned others dest) :
    (∃ s', Executor.executeMigrateOut p.txHeader.id dest owned
        { s with pendingQueues := queuesOf (t.jobs.erase p) } = .ok s' ∧
          Shows b (work.deal t p) s') ∨
    Executor.executeMigrateOut p.txHeader.id dest owned
      { s with pendingQueues := queuesOf (t.jobs.erase p) } = .error .accountNotFound ∧
        ¬ p.SendsOnce := by
  have hon : p.enqueuedOn = owned := by simp only [PendingTransaction.enqueuedOn, hl]
  by_cases hnodup : owned.Nodup
  · left
    have hv : ∀ a ∈ owned, s.accountStore a =
        some ((onlyOn p.enqueuedOn s.accountStore a).getD ⟨0, 0⟩) := by
      intro a ha
      obtain ⟨v, hv⟩ := Option.isSome_iff_exists.mp (hp.ready.2 a (hon ▸ ha))
      unfold onlyOn
      rw [if_pos (hon ▸ ha), hs.store, hv]
      rfl
    have hok := Executor.executeMigrateOut_eq
      (s := { s with pendingQueues := queuesOf (t.jobs.erase p) }) p.txHeader.id dest hnodup hv
    refine ⟨_, hok, hs.buffers, hs.holds.erase rfl, ?_, ?_, ?_⟩
    · funext a
      show (if a ∈ owned then none else s.accountStore a) =
        if a ∈ p.enqueuedOn then p.after (onlyOn p.enqueuedOn t.store) a else t.store a
      rw [hon, hs.store]
      simp only [PendingTransaction.after, hl]
    · show ((s.txSendState ++ _ : List _) : Multiset StateTransferRequest) = t.sent.1 + _
      rw [← Multiset.coe_add, hs.sent, hs.store]
      simp [work, PendingTransaction.requests, hl]
    · intro q hq
      rcases Multiset.mem_add.mp hq with hq | hq
      · exact hs.once q hq
      · rw [Multiset.mem_singleton.mp hq]
        intro owned' others' dest' hl'
        rw [hl] at hl'
        obtain ⟨rfl, -, -⟩ := TransactionLocality.migrateOut.inj hl'
        exact hnodup
  · right
    exact ⟨executeMigrateOut_twice _ _ hnodup, fun h => hnodup (h _ _ _ hl)⟩

end Deal

/-! ## The loops -/

section Loops

variable {cfg : Settings} {b : TransferMap × TransferMap} {t u : Progress} {s : Executor}
  {p q : PendingTransaction}

theorem length_deal (hp : work.Enabled t p) :
    (work.deal t p).jobs.length + 1 = t.jobs.length := by
  have hpos := List.length_pos_of_mem hp.mem
  have hlen : (work.deal t p).jobs.length = t.jobs.length - 1 := List.length_erase_of_mem hp.mem
  omega

theorem length_enqueuedOn (hp : p.Proper) (hl : p.locality = .local) :
    p.enqueuedOn.length ≤ 2 := by
  have hon : p.enqueuedOn = p.sbTx.requiredAccounts := by
    rw [← hp.required hl]
    simp only [PendingTransaction.enqueuedOn, hl]
  rw [hon]
  unfold SmallBankTransaction.requiredAccounts
  split
  · simp
  · simp

/-- After a `MigrateOut` nothing is ready on its accounts. -/
theorem disjoint_of_sent (hl : p.locality ≠ .local) (hq : work.Enabled (work.deal t p) q) :
    ∀ a ∈ q.enqueuedOn, a ∉ p.enqueuedOn := by
  intro a ha hap
  have hsome := hq.ready.2 a ha
  have hgone : (work.deal t p).store a = none := by
    show (if a ∈ p.enqueuedOn then p.after (onlyOn p.enqueuedOn t.store) a else t.store a) = none
    rw [if_pos hap]
    unfold PendingTransaction.after
    cases hl' : p.locality with
    | «local» => exact absurd hl' hl
    | _ => rfl
  rw [hgone] at hsome
  cases hsome

/-- What may be dealt with is on one of these accounts. -/
def Within (t : Progress) (cells : ℕ → Prop) : Prop :=
  ∀ p, work.Enabled t p → ∃ a ∈ p.enqueuedOn, cells a

theorem Within.deal {cells : ℕ → Prop} (h : Within t cells) :
    Within (work.deal t p) fun a => cells a ∨ p.locality = .local ∧ a ∈ p.enqueuedOn := by
  intro q hq
  by_cases hcommon : ∃ a ∈ q.enqueuedOn, a ∈ p.enqueuedOn
  · obtain ⟨a, haq, hap⟩ := hcommon
    by_cases hl : p.locality = .local
    · exact ⟨a, haq, Or.inr ⟨hl, hap⟩⟩
    · exact absurd hap (disjoint_of_sent hl hq a haq)
  · push Not at hcommon
    obtain ⟨a, ha, hc⟩ := h q (hq.of_deal hcommon)
    exact ⟨a, ha, Or.inl hc⟩

theorem Fails.head (hstep : work.Step t u) (h : Fails u) : Fails t := by
  obtain ⟨t', p, hsteps, hp⟩ := h
  exact ⟨t', p, .head hstep hsteps, hp⟩

/-- What the inner loop leaves: nothing to do but on the accounts of the new worklist. -/
structure Left (b : TransferMap × TransferMap) (t : Progress) (bound : ℕ)
    (worklist : List ℕ) (s : Executor) (u : Progress) : Prop where
  steps : work.Steps t u
  shows : Shows b u s
  awake : ∀ a ∈ worklist, u.awake a
  within : Within u (· ∈ worklist)
  le : worklist.length + 2 * u.jobs.length ≤ bound
  length : u.jobs.length ≤ t.jobs.length

theorem drainAccount_ends (cfg : Settings) (account fuel : ℕ) (worklist : List ℕ)
    (hs : Shows b t s)
    (hawake : t.awake account) (hsub : ∀ a ∈ worklist, t.awake a)
    (hwithin : Within t fun a => a ∈ worklist ∨ a = account) :
    (∃ worklist' s' u, Executor.drainAccount cfg account fuel worklist s = .ok (worklist', s') ∧
      Left b t (worklist.length + 2 * t.jobs.length) worklist' s' u) ∨
    Executor.drainAccount cfg account fuel worklist s = .error .accountNotFound ∧ Fails t ∨
    Executor.drainAccount cfg account fuel worklist s = .error .fuel ∧
      fuel ≤ t.jobs.length := by
  induction fuel generalizing t s worklist with
  | zero => exact Or.inr (Or.inr ⟨rfl, Nat.zero_le _⟩)
  | succ fuel ih =>
      unfold Executor.drainAccount
      rcases hs.holds.getExecutableQueueHead_spec account with
        ⟨hhead, hnone⟩ | ⟨p, hmem, hfirst, hdrain, hstore, haccount, hhead⟩
      · -- nothing to do on this account
        left
        rw [hhead]
        refine ⟨worklist, s, t, rfl, .refl, hs, hsub, fun q hq => ?_, le_rfl, le_rfl⟩
        obtain ⟨a, ha, hor⟩ := hwithin q hq
        refine ⟨a, ha, hor.resolve_right ?_⟩
        rintro rfl
        rw [hs.store] at hnone
        exact hnone q hq.mem hq.head hq.ready.1 hq.ready.2 ha
      · rw [hs.store] at hstore
        have hp : work.Enabled t p := ⟨hmem, hfirst, ⟨hdrain, hstore⟩, account, haccount, hawake⟩
        have hlen := length_deal hp
        have hpop := hs.popped hp
        have hwithin' := hwithin.deal (p := p)
        rw [hhead]
        simp only [bind, Except.bind]
        cases hl : p.locality with
        | «local» =>
            have hon : p.enqueuedOn = p.requiredAccounts := by
              simp only [PendingTransaction.enqueuedOn, hl]
            obtain ⟨s', hok, hs'⟩ := hs.executeLocal cfg hp hl
            rw [hon] at hpop
            dsimp only
            rw [hpop]
            dsimp only
            rw [hok]
            dsimp only
            -- its accounts join the worklist
            have hext := Course.length_extendSet worklist p.requiredAccounts
            have htwo := length_enqueuedOn (hs.holds.proper p hmem) hl
            rw [hon] at htwo
            have hsub' : ∀ a ∈ Executor.extendSet worklist p.requiredAccounts,
                (work.deal t p).awake a := by
              intro a ha
              rcases Course.mem_extendSet.mp ha with ha | ha
              · exact Or.inl (hsub a ha)
              · refine Or.inr ⟨hl, ?_⟩
                show a ∈ p.enqueuedOn
                rwa [hon]
            have hcover : Within (work.deal t p) fun a =>
                a ∈ Executor.extendSet worklist p.requiredAccounts ∨ a = account := by
              intro q hq
              obtain ⟨a, ha, (ha' | rfl) | ⟨-, hap⟩⟩ := hwithin' q hq
              · exact ⟨a, ha, Or.inl (Course.mem_extendSet.mpr (Or.inl ha'))⟩
              · exact ⟨a, ha, Or.inr rfl⟩
              · exact ⟨a, ha, Or.inl (Course.mem_extendSet.mpr (Or.inr (hon ▸ hap)))⟩
            rcases ih (Executor.extendSet worklist p.requiredAccounts) hs' (Or.inl hawake) hsub'
              hcover with ⟨worklist', s'', u, hrun, hleft⟩ | ⟨hrun, hfails⟩ | ⟨hrun, hle⟩
            · refine Or.inl ⟨worklist', s'', u, hrun, .head ⟨p, hp, rfl⟩ hleft.steps, hleft.shows,
                hleft.awake, hleft.within, ?_, ?_⟩
              · have := hleft.le
                omega
              · have := hleft.length
                omega
            · exact Or.inr (Or.inl ⟨hrun, hfails.head ⟨p, hp, rfl⟩⟩)
            · exact Or.inr (Or.inr ⟨hrun, by omega⟩)
        | migrateOut owned others dest =>
            have hon : p.enqueuedOn = owned := by
              simp only [PendingTransaction.enqueuedOn, hl]
            rw [hon] at hpop
            dsimp only
            rw [hpop]
            dsimp only
            have hcover : Within (work.deal t p) fun a => a ∈ worklist ∨ a = account := by
              intro q hq
              obtain ⟨a, ha, hor | ⟨hl', -⟩⟩ := hwithin' q hq
              · exact ⟨a, ha, hor⟩
              · rw [hl] at hl'
                cases hl'
            rcases hs.executeMigrateOut hp hl with ⟨s', hok, hs'⟩ | ⟨herror, htwice⟩
            · rw [hok]
              dsimp only
              rcases ih worklist hs' (Or.inl hawake) (fun a ha => Or.inl (hsub a ha))
                hcover with ⟨worklist', s'', u, hrun, hleft⟩ | ⟨hrun, hfails⟩ | ⟨hrun, hle⟩
              · refine Or.inl ⟨worklist', s'', u, hrun, .head ⟨p, hp, rfl⟩ hleft.steps,
                  hleft.shows, hleft.awake, hleft.within, ?_, ?_⟩
                · have := hleft.le
                  omega
                · have := hleft.length
                  omega
              · exact Or.inr (Or.inl ⟨hrun, hfails.head ⟨p, hp, rfl⟩⟩)
              · exact Or.inr (Or.inr ⟨hrun, by omega⟩)
            · rw [herror]
              refine Or.inr (Or.inl ⟨rfl, work.deal t p, p, .single ⟨p, hp, rfl⟩, ?_, htwice⟩)
              exact Multiset.mem_add.mpr (Or.inr (Multiset.mem_singleton_self p))
        | _ => simp [PendingTransaction.Drainable, hl] at hdrain

theorem removeEmpty_queuesOf (held : List PendingTransaction) (accounts : List ℕ) :
    Executor.removeEmpty (queuesOf held) accounts = queuesOf held := by
  funext a
  unfold Executor.removeEmpty queuesOf
  by_cases hq : queue PendingTransaction.enqueuedOn held a = []
  · simp [hq]
  · simp [hq]

theorem Within.idle (h : Within t (· ∈ [])) : work.Idle t := by
  intro p hp
  obtain ⟨a, -, hmem⟩ := h p hp
  cases hmem

theorem drainPendingQueues_ends (cfg : Settings) (iter : Iteration) (fuel i : ℕ)
    (worklist : List ℕ) (hs : Shows b t s) (hsub : ∀ a ∈ worklist, t.awake a)
    (hwithin : Within t (· ∈ worklist)) :
    (∃ s' u, Executor.drainPendingQueues cfg iter fuel i worklist s = .ok s' ∧
      work.Steps t u ∧ Shows b u s' ∧ work.Idle u) ∨
    Executor.drainPendingQueues cfg iter fuel i worklist s = .error .accountNotFound ∧ Fails t ∨
    Executor.drainPendingQueues cfg iter fuel i worklist s = .error .fuel ∧
      (iter.fuel ≤ t.jobs.length ∨ fuel < worklist.length + 2 * t.jobs.length) := by
  induction fuel generalizing t s i worklist with
  | zero =>
      cases worklist with
      | nil => exact Or.inl ⟨s, t, rfl, .refl, hs, hwithin.idle⟩
      | cons account worklist => exact Or.inr (Or.inr ⟨rfl, Or.inr (by simp)⟩)
  | succ fuel ih =>
      cases worklist with
      | nil =>
          refine Or.inl ⟨s, t, ?_, .refl, hs, hwithin.idle⟩
          unfold Executor.drainPendingQueues
          rfl
      | cons account worklist =>
          unfold Executor.drainPendingQueues
          -- the account that is taken from the worklist
          have hlt : iter.picks i % (worklist.length + 1) < (account :: worklist).length :=
            Nat.mod_lt _ (Nat.succ_pos _)
          have hnext : (account :: worklist).getD (iter.picks i % (worklist.length + 1)) account ∈
              account :: worklist := by
            rw [List.getD_eq_getElem _ _ hlt]
            exact List.getElem_mem hlt
          generalize (account :: worklist).getD (iter.picks i % (worklist.length + 1)) account
            = next at hnext
          have hlen : ((account :: worklist).erase next).length = worklist.length := by
            rw [List.length_erase_of_mem hnext]
            rfl
          have hcover : Within t fun a => a ∈ (account :: worklist).erase next ∨ a = next := by
            intro p hp
            obtain ⟨a, ha, hmem⟩ := hwithin p hp
            by_cases hane : a = next
            · exact ⟨a, ha, Or.inr hane⟩
            · exact ⟨a, ha, Or.inl ((List.mem_erase_of_ne hane).mpr hmem)⟩
          have hlength : (account :: worklist).length = worklist.length + 1 := rfl
          rcases drainAccount_ends cfg next iter.fuel ((account :: worklist).erase next) hs
            (hsub next hnext) (fun a ha => hsub a (List.mem_of_mem_erase ha)) hcover with
            ⟨worklist', s', u, hrun, hleft⟩ | ⟨hrun, hfails⟩ | ⟨hrun, hle⟩
          · have hsame : { s' with
                pendingQueues := Executor.removeEmpty s'.pendingQueues [next] } = s' := by
              rw [hleft.shows.holds.queues, removeEmpty_queuesOf, ← hleft.shows.holds.queues]
            simp only [bind, Except.bind, hrun]
            rw [hsame]
            rcases ih (i + 1) worklist' hleft.shows hleft.awake hleft.within with
              ⟨s'', v, hok, hsteps, hs'', hidle⟩ | ⟨hok, t', q, hsteps, hq⟩ | ⟨hok, hshort⟩
            · exact Or.inl ⟨s'', v, hok, hleft.steps.trans hsteps, hs'', hidle⟩
            · exact Or.inr (Or.inl ⟨hok, t', q, hleft.steps.trans hsteps, hq⟩)
            · have hle := hleft.le
              have hjobs := hleft.length
              exact Or.inr (Or.inr ⟨hok, by omega⟩)
          · refine Or.inr (Or.inl ⟨?_, hfails⟩)
            simp only [bind, Except.bind, hrun]
          · refine Or.inr (Or.inr ⟨?_, Or.inl hle⟩)
            simp only [bind, Except.bind, hrun]

end Loops

/-! ## What an executor can reach -/

/-- What has happened to an executor so far, call by call: batches of any transactions, any
    transfers received, and the parts of `process_incoming_transfers` in any order. The
    transactions are those of the batches. -/
inductive Reached (cfg : Settings) : List Bytes → Executor → Prop
  | start (e : ℕ) (store : AccountStore) (partition : Partition) :
      Reached cfg [] ⟨e, store, partition, fun _ => none, ∅, ∅, [], [], []⟩
  | batch {txs transactions : List Bytes} {s s₁ s₂ : Executor} {iter : Iteration} {digest : Bytes}
      {localities : List (Scheduled × TransactionLocality)} (h : Reached cfg txs s)
      (hbegin : s.beginBatch cfg iter transactions = .ok (localities, s₁))
      (hhandle : Executor.handleAll cfg digest localities s₁ = .ok s₂) :
      Reached cfg (txs ++ transactions) s₂
  | receive {txs : List Bytes} {s : Executor} (t : StateTransfer) (h : Reached cfg txs s) :
      Reached cfg txs { s with incomingTransfers := s.incomingTransfers.push t }
  | send {txs : List Bytes} {s : Executor} {r : StateTransferRequest}
      {requests : List StateTransferRequest} (h : Reached cfg txs s)
      (hsend : s.txSendState = r :: requests) :
      Reached cfg txs { s with txSendState := requests }
  | take {txs : List Bytes} {s : Executor} (h : Reached cfg txs s) :
      Reached cfg txs { s with
        incomingTransfers := ∅
        drainedIncomingTransfers := s.drainedIncomingTransfers.extend s.incomingTransfers }
  | transfers {txs : List Bytes} {s s' : Executor} {txId : TxID} {unlocked unlocked' : List ℕ}
      (h : Reached cfg txs s)
      (hprocess : Executor.processTransfers cfg txId unlocked s = .ok (unlocked', s')) :
      Reached cfg txs s'
  | drain {txs : List Bytes} {s s' : Executor} {iter : Iteration} {worklist : List ℕ}
      (h : Reached cfg txs s)
      (hdrain : Executor.drainPendingQueues cfg iter iter.fuel 0 worklist s = .ok s') :
      Reached cfg txs s'

namespace Reached

variable {cfg : Settings} {txs : List Bytes} {s s' : Executor}

theorem processAllTransfers {txIds : List TxID} {unlocked unlocked' : List ℕ}
    (h : Reached cfg txs s)
    (hok : Executor.processAllTransfers cfg txIds unlocked s = .ok (unlocked', s')) :
    Reached cfg txs s' := by
  induction txIds generalizing unlocked s with
  | nil =>
      cases hok
      exact h
  | cons txId txIds ih =>
      unfold Executor.processAllTransfers at hok
      obtain ⟨⟨unlocked₁, s₁⟩, hfirst, hok⟩ := bind_eq_ok.mp hok
      exact ih (h.transfers hfirst) hok

theorem processIncomingTransfers {iter : Iteration} (h : Reached cfg txs s)
    (hok : s.processIncomingTransfers cfg iter = .ok s') : Reached cfg txs s' := by
  unfold Executor.processIncomingTransfers at hok
  obtain ⟨⟨unlocked, s₁⟩, hall, hok⟩ := bind_eq_ok.mp hok
  have h₁ := h.take.processAllTransfers hall
  dsimp only at hok
  split at hok
  · cases hok
    exact h₁
  · exact h₁.drain hok

end Reached

section System

variable {cfg : Settings} {batches : List Batch} {sys sys' : System}

/-- Every executor of the system. -/
def AllReached (cfg : Settings) (batches : List Batch) (sys : System) : Prop :=
  ∀ e, Reached cfg (sequenceOf (batches.take (sys.taken e))) (sys.executors e)

theorem AllReached.set {e : ℕ} {s : Executor} (h : AllReached cfg batches sys)
    (hs : Reached cfg (sequenceOf (batches.take (sys.taken e))) s) :
    AllReached cfg batches (sys.setExecutor e s) := by
  intro e'
  by_cases he : e' = e
  · subst he
    simpa [System.setExecutor] using hs
  · simpa [System.setExecutor, he] using h e'

theorem AllReached.step {event : Event} (h : AllReached cfg batches sys)
    (hok : System.step cfg batches sys event = .ok sys') : AllReached cfg batches sys' := by
  cases event with
  | batch e iter =>
      unfold System.step at hok
      dsimp only at hok
      split at hok
      · split at hok
        · cases hok
          exact h
        · rename_i b hb
          obtain ⟨⟨localities, s₁⟩, hbegin, hok⟩ := bind_eq_ok.mp hok
          obtain ⟨s₂, hhandle, hok⟩ := bind_eq_ok.mp hok
          cases hok
          intro e'
          by_cases he : e' = e
          · subst he
            have hseq : sequenceOf (batches.take (sys.taken e' + 1)) =
                sequenceOf (batches.take (sys.taken e')) ++ b.transactions := by
              unfold sequenceOf
              rw [List.take_add_one, hb, List.flatMap_append]
              simp
            simpa [System.setExecutor, hseq] using (h e').batch hbegin hhandle
          · simpa [System.setExecutor, he] using h e'
      · cases hok
        exact h
  | process e iter =>
      unfold System.step at hok
      dsimp only at hok
      split at hok
      · obtain ⟨s, hprocess, hok⟩ := bind_eq_ok.mp hok
        cases hok
        exact h.set ((h e).processIncomingTransfers hprocess)
      · cases hok
        exact h
  | send e =>
      unfold System.step at hok
      dsimp only at hok
      split at hok
      · split at hok
        · cases hok
          exact h
        · rename_i request requests hq
          split at hok
          · cases hok
            exact h.set ((h e).send hq)
          · cases hok
      · cases hok
        exact h
  | deliver i =>
      unfold System.step at hok
      dsimp only at hok
      split at hok
      · cases hok
        exact h
      · rename_i message hm
        cases hok
        exact h.set ((h message.destExecutorId).receive message.stateTransfer)

/-- In every run of the system the executors are reached call by call. -/
theorem allReached_of_run {partition : Partition} {stores : ℕ → AccountStore}
    {events : List Event}
    (h : System.run cfg batches (System.initial partition stores) events = .ok sys) :
    AllReached cfg batches sys := by
  have hinit : AllReached cfg batches (System.initial partition stores) := fun e =>
    .start e (stores e) partition
  generalize System.initial partition stores = sys₀ at h hinit
  induction events generalizing sys₀ with
  | nil =>
      cases h
      exact hinit
  | cons event events ih =>
      unfold System.run at h ih
      rw [List.foldlM_cons] at h
      obtain ⟨sys₁, hstep, h⟩ := bind_eq_ok.mp h
      exact ih sys₁ h (hinit.step hstep)

end System

section Main

variable {cfg : Settings} {b : TransferMap × TransferMap} {t u : Progress} {s : Executor}
  {p : PendingTransaction}

/-- What has been dealt with was pending, and nothing else comes to be. -/
theorem steps_subset (h : work.Steps t u) :
    (∀ p ∈ u.jobs, p ∈ t.jobs) ∧ ∀ p ∈ u.sent.2, p ∈ t.sent.2 ∨ p ∈ t.jobs := by
  induction h with
  | refl => exact ⟨fun _ => id, fun _ => Or.inl⟩
  | tail _ hstep ih =>
      obtain ⟨q, hq, rfl⟩ := hstep
      refine ⟨fun p hp => ih.1 p (List.mem_of_mem_erase hp), fun p hp => ?_⟩
      rcases Multiset.mem_add.mp hp with hp | hp
      · exact ih.2 p hp
      · rw [Multiset.mem_singleton.mp hp]
        exact Or.inr (ih.1 q hq.mem)

/-- Where a drain begins. -/
def begin (held : List PendingTransaction) (worklist : List ℕ) (s : Executor) : Progress where
  jobs := held
  store := s.accountStore
  sent := (s.txSendState, 0)
  awake a := a ∈ worklist

theorem shows_begin {held : List PendingTransaction} (worklist : List ℕ) (hh : Holds held s) :
    Shows s.buffers (begin held worklist s) s :=
  ⟨rfl, hh, rfl, rfl, fun p hp => absurd hp (Multiset.notMem_zero p)⟩

theorem drain_ends (cfg : Settings) {held : List PendingTransaction} (iter : Iteration)
    (worklist : List ℕ) (hh : Holds held s) :
    (∃ s' u, Executor.drainPendingQueues cfg iter iter.fuel 0 worklist s = .ok s' ∧
      work.Steps (begin held worklist s) u ∧ Shows s.buffers u s' ∧ work.Idle u) ∨
    Executor.drainPendingQueues cfg iter iter.fuel 0 worklist s = .error .accountNotFound ∧
      Fails (begin held worklist s) ∨
    Executor.drainPendingQueues cfg iter iter.fuel 0 worklist s = .error .fuel ∧
      iter.fuel ≤ worklist.length + 2 * held.length := by
  rcases drainPendingQueues_ends cfg iter iter.fuel 0 worklist
    (shows_begin worklist hh) (fun _ => id) (fun p hp => hp.awake) with hok | herror | ⟨herror, hle⟩
  · exact Or.inl hok
  · exact Or.inr (Or.inl herror)
  · refine Or.inr (Or.inr ⟨herror, ?_⟩)
    have hjobs : (begin held worklist s).jobs = held := rfl
    rw [hjobs] at hle
    omega

/-- Different ids are pending, those of transactions that there were. -/
theorem Reached.exists_holds {txs : List Bytes} (h : Reached cfg txs s)
    (hids : (txs.filterMap txIdOf).Nodup) : ∃ held, Holds held s ∧ ∀ p ∈ held, p.Of txs := by
  induction h with
  | start e store partition =>
      refine ⟨[], ⟨?_, by simp, List.nodup_nil⟩, by simp⟩
      funext a
      exact (queuesOf_of_none rfl).symm
  | @batch txs transactions s s₁ s₂ iter digest localities h hbegin hhandle ih =>
      rw [List.filterMap_append, List.nodup_append] at hids
      obtain ⟨held, hh, hmem⟩ := ih hids.1
      obtain ⟨held', hh', hmem'⟩ := hh.batch hids.2.1
        (fun p hp hid => hids.2.2 _ (hmem p hp).id_mem _ hid rfl) hbegin hhandle
      refine ⟨held', hh', fun p hp => ?_⟩
      rcases hmem' p hp with hp' | hp'
      · exact (hmem p hp').mono (List.subset_append_left _ _)
      · exact hp'.mono (List.subset_append_right _ _)
  | receive t h ih =>
      obtain ⟨held, hh, hmem⟩ := ih hids
      exact ⟨held, hh.of_queues rfl, hmem⟩
  | send h hsend ih =>
      obtain ⟨held, hh, hmem⟩ := ih hids
      exact ⟨held, hh.of_queues rfl, hmem⟩
  | take h ih =>
      obtain ⟨held, hh, hmem⟩ := ih hids
      exact ⟨held, hh.of_queues rfl, hmem⟩
  | transfers h hprocess ih =>
      obtain ⟨held, hh, hmem⟩ := ih hids
      rcases hh.processTransfers hprocess with heq | ⟨q, -, -, -, -, hh', -⟩
      · obtain ⟨-, rfl⟩ := Prod.mk.inj heq
        exact ⟨held, hh, hmem⟩
      · exact ⟨held.erase q, hh', fun p hp => hmem p (List.mem_of_mem_erase hp)⟩
  | @drain txs s s' iter worklist h hdrain ih =>
      obtain ⟨held, hh, hmem⟩ := ih hids
      rcases drain_ends cfg iter worklist hh with
        ⟨s'', u, hok, hsteps, hs, -⟩ | ⟨herror, -⟩ | ⟨herror, -⟩
      · rw [hdrain] at hok
        obtain rfl := Except.ok.inj hok
        exact ⟨u.jobs, hs.holds, fun p hp => hmem p ((steps_subset hsteps).1 p hp)⟩
      · rw [hdrain] at herror
        cases herror
      · rw [hdrain] at herror
        cases herror

theorem Holds.queueOf_eq {held : List PendingTransaction} (hh : Holds held s) (a : ℕ) :
    s.queueOf a = queue PendingTransaction.enqueuedOn held a := by
  unfold Executor.queueOf
  rw [hh.queues, queuesOf]
  split
  · rename_i hnil
    rw [hnil]
    rfl
  · rfl

/-- What a complete drain has dealt with sends no account twice, so no other drain fails. -/
theorem Shows.not_fails {s' : Executor} (hs : Shows b u s') (hsteps : work.Steps t u)
    (hidle : work.Idle u) : ¬ Fails t := by
  rintro ⟨t', p, hsteps', hp, htwice⟩
  obtain ⟨x, hx⟩ := Discipline.Steps.exists_sent (Discipline.steps_of_idle hsteps' hsteps hidle)
  refine htwice (hs.once p ?_)
  rw [hx]
  exact Multiset.mem_add.mpr (Or.inl hp)

end Main

/-- What a drain leaves: the store, the queues and, in whatever order, what is sent. -/
def Executor.outcome (s : Executor) :
    AccountStore × PendingQueues × Multiset StateTransferRequest :=
  (s.accountStore, s.pendingQueues, s.txSendState)

section Confluence

variable (cfg : Settings) {txs : List Bytes} {s : Executor} {held : List PendingTransaction}

/-- A drain comes to a transaction that sends an account twice only if one is pending. -/
theorem Fails.exists_pending (hh : Holds held s) {worklist : List ℕ}
    (h : Fails (begin held worklist s)) : ∃ a, ∃ p ∈ s.queueOf a, ¬ p.SendsOnce := by
  obtain ⟨t', p, hsteps, hp, htwice⟩ := h
  have hpending : p ∈ held :=
    ((steps_subset hsteps).2 p hp).resolve_left (Multiset.notMem_zero p)
  have hsends : ∃ owned others dest, p.locality = .migrateOut owned others dest ∧
      ¬ owned.Nodup := by
    unfold PendingTransaction.SendsOnce at htwice
    push Not at htwice
    exact htwice
  obtain ⟨owned, others, dest, hl, hdup⟩ := hsends
  obtain ⟨a, ha⟩ := List.exists_mem_of_ne_nil owned fun hnil => hdup (hnil ▸ List.nodup_nil)
  refine ⟨a, p, ?_, htwice⟩
  rw [hh.queueOf_eq]
  refine mem_queue.mpr ⟨hpending, ?_⟩
  simpa only [PendingTransaction.enqueuedOn, hl] using ha

/-- Two drains of different orders end the same, also where they panic. -/
theorem drain_outcome_eq (h : Reached cfg txs s) (hids : (txs.filterMap txIdOf).Nodup)
    (worklist : List ℕ) (iter iter' : Iteration)
    (hfuel : worklist.length + 2 * txs.length < iter.fuel)
    (hfuel' : worklist.length + 2 * txs.length < iter'.fuel) :
    (s.drainPendingQueues cfg iter iter.fuel 0 worklist).map Executor.outcome =
      (s.drainPendingQueues cfg iter' iter'.fuel 0 worklist).map Executor.outcome := by
  obtain ⟨held, hh, hmem⟩ := h.exists_holds hids
  have hle := (hh.length_le fun p hp => (hmem p hp).id_mem).trans (List.length_filterMap_le _ _)
  have hterminates : ¬ iter.fuel ≤ worklist.length + 2 * held.length := by omega
  have hterminates' : ¬ iter'.fuel ≤ worklist.length + 2 * held.length := by omega
  rcases drain_ends cfg iter worklist hh with
    ⟨s₁, u, hok, hsteps, hs, hidle⟩ | ⟨herror, hfails⟩ | ⟨-, hshort⟩
  · rcases drain_ends cfg iter' worklist hh with
      ⟨s₂, u', hok', hsteps', hs', hidle'⟩ | ⟨-, hfails⟩ | ⟨-, hshort⟩
    · obtain rfl := Discipline.confluent hsteps hsteps' hidle hidle'
      have hsame : s₁.outcome = s₂.outcome := by
        unfold Executor.outcome
        rw [hs.store, hs'.store, hs.holds.queues, hs'.holds.queues, hs.sent, hs'.sent]
      rw [hok, hok']
      exact congrArg Except.ok hsame
    · exact absurd hfails (hs.not_fails hsteps hidle)
    · exact absurd hshort hterminates'
  · rcases drain_ends cfg iter' worklist hh with
      ⟨s₂, u', -, hsteps', hs', hidle'⟩ | ⟨herror', -⟩ | ⟨-, hshort⟩
    · exact absurd hfails (hs'.not_fails hsteps' hidle')
    · rw [herror, herror']
    · exact absurd hshort hterminates'
  · exact absurd hshort hterminates

/-- A drain ends if no pending transaction is to send an account twice. -/
theorem exists_drain (h : Reached cfg txs s) (hids : (txs.filterMap txIdOf).Nodup)
    (honce : ∀ a, ∀ p ∈ s.queueOf a, p.SendsOnce) (worklist : List ℕ) (iter : Iteration)
    (hfuel : worklist.length + 2 * txs.length < iter.fuel) :
    ∃ s', s.drainPendingQueues cfg iter iter.fuel 0 worklist = .ok s' := by
  obtain ⟨held, hh, hmem⟩ := h.exists_holds hids
  have hle := (hh.length_le fun p hp => (hmem p hp).id_mem).trans (List.length_filterMap_le _ _)
  rcases drain_ends cfg iter worklist hh with ⟨s', u, hok, -⟩ | ⟨-, hfails⟩ | ⟨-, hshort⟩
  · exact ⟨s', hok⟩
  · obtain ⟨a, p, hp, htwice⟩ := hfails.exists_pending hh
    exact absurd (honce a p hp) htwice
  · omega

/-- Where no transaction names an account twice, none is to send one twice. -/
theorem Reached.sendsOnce (h : Reached cfg txs s) (hids : (txs.filterMap txIdOf).Nodup)
    (hnodup : ∀ txBytes ∈ txs, ∀ sbTx, parseSmallbankPayload txBytes = some sbTx →
      sbTx.requiredAccounts.Nodup) : ∀ a, ∀ p ∈ s.queueOf a, p.SendsOnce := by
  obtain ⟨held, hh, hmem⟩ := h.exists_holds hids
  intro a p hp owned others dest hl
  rw [hh.queueOf_eq] at hp
  have hheld := (mem_queue.mp hp).1
  have hproper := hh.proper p hheld
  exact (hnodup _ (hmem p hheld).bytes _ hproper.payload).sublist (hproper.owned _ _ _ hl)

/-- From every state that an executor can reach with transactions of different ids, no pending
    one of which is to send an account twice, and for any two orders in which accounts are taken
    from the worklist, a drain ends, with the same store, queues and transfers. -/
theorem drain_confluent (h : Reached cfg txs s) (hids : (txs.filterMap txIdOf).Nodup)
    (honce : ∀ a, ∀ p ∈ s.queueOf a, p.SendsOnce) (worklist : List ℕ) (iter iter' : Iteration)
    (hfuel : worklist.length + 2 * txs.length < iter.fuel)
    (hfuel' : worklist.length + 2 * txs.length < iter'.fuel) :
    ∃ s₁ s₂, s.drainPendingQueues cfg iter iter.fuel 0 worklist = .ok s₁ ∧
      s.drainPendingQueues cfg iter' iter'.fuel 0 worklist = .ok s₂ ∧
      s₁.outcome = s₂.outcome := by
  obtain ⟨s₁, hok₁⟩ := exists_drain cfg h hids honce worklist iter hfuel
  obtain ⟨s₂, hok₂⟩ := exists_drain cfg h hids honce worklist iter' hfuel'
  have hsame := drain_outcome_eq cfg h hids worklist iter iter' hfuel hfuel'
  rw [hok₁, hok₂] at hsame
  exact ⟨s₁, s₂, hok₁, hok₂, Except.ok.inj hsame⟩

end Confluence

namespace DrainSample

open AgreementSample

/-- A deposit to an account, as transaction `counter`. -/
def deposit (counter account : UInt8) : Bytes :=
  List.replicate 9 0 ++ [counter] ++ List.replicate 7 0 ++ [account] ++ List.replicate 8 0 ++ [1] ++
    List.replicate 8 0

/-- Account 0 pays account 1, and then there is a deposit to each. -/
def transactions : List Bytes := [payment, deposit 1 0, deposit 2 1]

def iteration (pick : ℕ) : Iteration :=
  { (default : Iteration) with picks := fun _ => pick, fuel := 9 }

/-- The executor after a batch that comes after the arrival of account 1 for the payment. -/
def afterTransfer (s : Executor) : Except Panic Executor := do
  let s := { s with incomingTransfers := s.incomingTransfers.push ⟨⟨0, 0⟩, 1, ⟨100, 100⟩⟩ }
  let s := { s with
    incomingTransfers := ∅
    drainedIncomingTransfers := s.drainedIncomingTransfers.extend s.incomingTransfers }
  let (_, s) ← s.processTransfers settings ⟨0, 0⟩ []
  return s

def afterBatch (s : Executor) (digest : Bytes) (transactions : List Bytes) :
    Except Panic Executor := do
  let (localities, s) ← s.beginBatch settings default transactions
  Executor.handleAll settings digest localities s

/-- Executor 0 after the batch and the arrival of account 1. -/
def afterPayment : Except Panic Executor := do
  let s ← afterBatch (executor 0) [7] transactions
  afterTransfer s

theorem reached_afterBatch {txs transactions : List Bytes} {digest : Bytes} {s s' : Executor}
    (h : Reached settings txs s) (hok : afterBatch s digest transactions = .ok s') :
    Reached settings (txs ++ transactions) s' := by
  obtain ⟨⟨localities, s₁⟩, hbegin, hhandle⟩ := bind_eq_ok.mp hok
  exact h.batch hbegin hhandle

theorem reached_afterTransfer {txs : List Bytes} {s s' : Executor} (h : Reached settings txs s)
    (hok : afterTransfer s = .ok s') : Reached settings txs s' := by
  obtain ⟨⟨unlocked, s₁⟩, hprocess, hok⟩ := bind_eq_ok.mp hok
  obtain rfl := Except.ok.inj hok
  exact ((h.receive _).take).transfers hprocess

theorem reached_start : Reached settings [] (executor 0) :=
  .start 0 _ partition

theorem reached {s : Executor} (h : afterPayment = .ok s) : Reached settings transactions s := by
  obtain ⟨s₁, hbatch, htransfer⟩ := bind_eq_ok.mp h
  exact reached_afterTransfer (reached_afterBatch reached_start hbatch) htransfer

/-- The deposit to account 0 and the departure of account 1 are pending. -/
theorem pending :
    (afterPayment.map fun s => ((s.queueOf 0).length, (s.queueOf 1).length)).toOption =
      some (1, 1) := by
  decide +kernel

theorem nodup_transactions : ∀ txBytes ∈ transactions, ∀ sbTx,
    parseSmallbankPayload txBytes = some sbTx → sbTx.requiredAccounts.Nodup := by
  have hall : ∀ txBytes ∈ transactions,
      ((parseSmallbankPayload txBytes).map fun sbTx => decide sbTx.requiredAccounts.Nodup) =
        some true := by
    decide
  intro txBytes htx sbTx hparse
  have hone := hall txBytes htx
  rw [hparse] at hone
  exact of_decide_eq_true (Option.some.inj hone)

/-- From account 0 to account 1 once more, as transaction 1. -/
def again : Bytes :=
  List.replicate 9 0 ++ [1] ++ List.replicate 15 0 ++ [1, 4] ++ List.replicate 8 0

/-- After the payment comes a batch with a deposit to account 1 and, under the same id, a second
    payment. -/
def afterRepeat : Except Panic Executor := do
  let s ← afterBatch (executor 0) [7] [payment]
  let s ← afterBatch s [8] [deposit 1 1, again]
  afterTransfer s

theorem reached_repeat {s : Executor} (h : afterRepeat = .ok s) :
    Reached settings [payment, deposit 1 1, again] s := by
  obtain ⟨s₁, hfirst, h⟩ := bind_eq_ok.mp h
  obtain ⟨s₂, hsecond, htransfer⟩ := bind_eq_ok.mp h
  exact reached_afterTransfer
    (reached_afterBatch (reached_afterBatch reached_start hfirst) hsecond) htransfer

def panicOf : Except Panic Executor → Option Panic
  | .ok _ => none
  | .error panic => some panic

/-- With account 0 first the second payment is taken for ready, and the deposit, which is at the
    head of the queue of account 1, is popped in its place; with account 1 first the deposit is
    dealt with before. -/
theorem panics_repeat :
    (afterRepeat.map fun s =>
      (panicOf (s.drainPendingQueues settings (iteration 0) 9 0 [0, 1]),
        panicOf (s.drainPendingQueues settings (iteration 1) 9 0 [0, 1]))).toOption =
      some (some .noQueue, none) := by
  decide +kernel

end DrainSample

open AgreementSample DrainSample

theorem drain_confluent_sample : ∃ s s₁ s₂, afterPayment = .ok s ∧ (s.queueOf 0).length = 1 ∧
    s.drainPendingQueues settings (iteration 0) 9 0 [0, 1] = .ok s₁ ∧
    s.drainPendingQueues settings (iteration 1) 9 0 [0, 1] = .ok s₂ ∧
    s₁.outcome = s₂.outcome := by
  have hpending := pending
  cases hs : afterPayment with
  | error panic =>
      rw [hs] at hpending
      cases hpending
  | ok s =>
      rw [hs] at hpending
      have hlengths := Prod.mk.inj (Option.some.inj hpending)
      have hids : (transactions.filterMap txIdOf).Nodup := by decide
      obtain ⟨s₁, s₂, hok₁, hok₂, hsame⟩ := drain_confluent settings (reached hs) hids
        ((reached hs).sendsOnce settings hids nodup_transactions) [0, 1] (iteration 0)
        (iteration 1) (by decide) (by decide)
      exact ⟨s, s₁, s₂, rfl, hlengths.1, hok₁, hok₂, hsame⟩

/-- With an id that comes twice, one order of the worklist ends in a panic and another does
    not. -/
theorem not_drain_confluent : ¬ ∀ (cfg : Settings) (txs : List Bytes) (s : Executor),
    Reached cfg txs s → ∀ (worklist : List ℕ) (iter iter' : Iteration),
      worklist.length + 2 * txs.length < iter.fuel →
      worklist.length + 2 * txs.length < iter'.fuel →
      ∃ s₁ s₂, s.drainPendingQueues cfg iter iter.fuel 0 worklist = .ok s₁ ∧
        s.drainPendingQueues cfg iter' iter'.fuel 0 worklist = .ok s₂ ∧
        s₁.outcome = s₂.outcome := by
  intro hall
  have hpanics := panics_repeat
  cases hs : afterRepeat with
  | error panic =>
      rw [hs] at hpanics
      cases hpanics
  | ok s =>
      rw [hs] at hpanics
      have hfirst := (Prod.mk.inj (Option.some.inj hpanics)).1
      obtain ⟨s₁, s₂, hok, -⟩ := hall settings _ s (reached_repeat hs) [0, 1] (iteration 0)
        (iteration 1) (by decide) (by decide)
      have hfuel : (iteration 0).fuel = 9 := rfl
      rw [hfuel] at hok
      rw [hok] at hfirst
      cases hfirst

end DagBft.Fusion
