/-
  The loop of `execute_batch` as steps of the site (`Writeback/Site`), and when it takes the
  lock of a transaction that waits for it: `KeepsLocks` excludes this.
-/
import DagBft.Writeback.Arrivals

namespace DagBft.Writeback

open Worker Fusion Loan

namespace Executor

/-- The transaction is not enqueued on an account where a `Local` one is the first. -/
def KeepsLocks (s : Executor) (txBytes : Bytes) : Prop :=
  ∀ requiredAccounts, extractRequiredAccounts txBytes = .ok requiredAccounts →
    ∀ locality, determineLocality s.executorId s.statesPartition requiredAccounts = .ok locality →
      ∀ a ∈ localAccounts requiredAccounts locality,
        ∀ head queue, s.pendingQueues a = some (head :: queue) → head.locality ≠ .local

/-- None of these transactions is. -/
def Considerate (clientReplyAddress : ℕ → Option SocketAddr) (digest : Bytes) :
    List Bytes → Executor → Prop
  | [], _ => True
  | txBytes :: transactions, s => s.KeepsLocks txBytes ∧
      ∀ s', executeTransaction clientReplyAddress digest s txBytes = .ok s' →
        Considerate clientReplyAddress digest transactions s'

end Executor

namespace Course

variable {partition : Partition} {σ : Course partition} {h h' : State ℕ ℕ} {e i j a : ℕ}
  {s s' : Executor} {restTransfers : Multiset StateTransferRequest}
  {restWritebacks : Multiset StateWritebackRequest} {txId : TxID}
  {clientReplyAddress : ℕ → Option SocketAddr}

/-! ## Batches -/

theorem extractRequiredAccounts_eq (hj : j < σ.tasks.length) :
    extractRequiredAccounts (σ.task j).txBytes = .ok (σ.accounts j) := by
  unfold extractRequiredAccounts
  rw [σ.payload _ (task_mem hj), accounts_of_lt hj]

theorem alone_iff : Alone σ.plan i ↔ ¬ σ.Split i := by
  constructor
  · intro halone hs
    exact hs.2 (halone _ (part_of_split hs))
  · intro hs e' hpart'
    exact (part_local hs hpart').2.symm

theorem locality_eq_local_iff (hj : j < σ.tasks.length) :
    σ.locality e j = .local ↔ ¬ σ.Split j := by
  refine ⟨fun hl hs => ?_, fun hs => locality_of_local hs hj⟩
  unfold locality at hl
  rw [if_neg hs.2] at hl
  split at hl
  · cases hl
  · cases hl

/-- The condition on the next transaction is the one of `Loan`. -/
theorem Running.keepsLocks_iff (hr : σ.Running h e restTransfers restWritebacks s)
    (hpart : part σ.plan e (h.taken e) ≠ []) :
    s.KeepsLocks (σ.task (h.taken e)).txBytes ↔ h.Careful σ.plan e := by
  have hlt := lt_of_part hpart
  have hacc := extractRequiredAccounts_eq hlt
  have hloc : determineLocality s.executorId s.statesPartition (σ.accounts (h.taken e)) =
      .ok (σ.locality e (h.taken e)) := by
    rw [hr.site.executorId, hr.site.statesPartition]
    exact determineLocality_eq hpart
  have hlocal := localAccounts_eq hpart
  have hfirst : ∀ a ∈ part σ.plan e (h.taken e), ∀ i,
      h.First σ.plan a i ↔ (h.queue σ.plan e a).head? = some i := by
    intro a ha i
    obtain ⟨-, rfl⟩ := mem_part.mp ha
    exact State.first_iff hr.inv
  unfold Executor.KeepsLocks State.Careful
  constructor
  · intro hkeep a ha i hi halone
    obtain ⟨rest, hq⟩ := List.head?_eq_some_iff.mp ((hfirst a ha i).mp hi)
    rcases hr.head_cases a with hnone | ⟨i', rest', hq', hheld, -, hsome⟩
    · rw [hr.site.queues, queues, if_neg (by rw [hq]; exact List.cons_ne_nil _ _)] at hnone
      cases hnone
    obtain ⟨rfl, rfl⟩ := List.cons.inj (hq.symm.trans hq')
    have hparti := hr.inv.part e i hheld
    refine hkeep _ hacc _ hloc a (hlocal.symm ▸ ha) _ _ hsome ?_
    exact locality_of_local (alone_iff.mp halone) (lt_of_part hparti)
  · intro hcareful required hrequired locality hlocality a ha head queue hsome hl
    obtain rfl := Except.ok.inj (hacc.symm.trans hrequired)
    obtain rfl := Except.ok.inj (hloc.symm.trans hlocality)
    rw [hlocal] at ha
    rcases hr.head_cases a with hnone | ⟨i, rest, hq, hheld, -, hsome'⟩
    · rw [hnone] at hsome
      cases hsome
    rw [hsome] at hsome'
    obtain ⟨rfl, -⟩ := List.cons.inj (Option.some.inj hsome')
    have hparti := hr.inv.part e i hheld
    refine hcareful a ha i ((hfirst a ha i).mpr (by rw [hq]; rfl)) ?_
    exact alone_iff.mpr ((locality_eq_local_iff (lt_of_part hparti)).mp hl)

/-- The next transaction is executed at once. -/
theorem Running.execute_now (clientReplyAddress : ℕ → Option SocketAddr)
    (hr : σ.Running h e restTransfers restWritebacks s)
    (hpart : part σ.plan e (h.taken e) ≠ []) (hs : ¬ σ.Split (h.taken e))
    (hready : s.isReadyToExecute (σ.id (h.taken e)) (σ.accounts (h.taken e)) = true) :
    ∃ s', s.executeSingleLocalTransaction clientReplyAddress (σ.task (h.taken e)).digest
        (σ.task (h.taken e)).txBytes (σ.task (h.taken e)).header = .ok s' ∧
      h.Careful σ.plan e ∧ (h.hold σ.plan e).Head σ.plan e (h.taken e) ∧
      (h.hold σ.plan e).Free σ.plan (h.taken e) ∧
      σ.Running ((h.hold σ.plan e).finish σ.plan e (h.taken e)) e restTransfers restWritebacks
        s' := by
  have hlt := lt_of_part hpart
  obtain ⟨hall, ht⟩ := part_local hs hpart
  have hhome : ∀ a ∈ σ.accounts (h.taken e), σ.home a = e := fun a ha =>
    (mem_part_iff.mp (hall.symm ▸ ha)).2.2
  obtain ⟨hfree, hheads⟩ := (hr.isReady_iff hlt hhome).mp hready
  have hnot : h.taken e ∉ h.held e := fun hmem => absurd (hr.inv.lt e _ hmem) (lt_irrefl _)
  -- nothing is held back on its accounts
  have hempty : ∀ a ∈ σ.accounts (h.taken e), h.queue σ.plan e a = [] := by
    intro a ha
    cases hq : h.queue σ.plan e a with
    | nil => rfl
    | cons i rest =>
        have hmem : i ∈ h.queue σ.plan e a := by
          rw [hq]
          exact List.mem_cons_self
        have hi := hheads a ha i (by rw [hq]; rfl)
        exact absurd (hi ▸ (State.mem_queue.mp hmem).1) hnot
  have hlock : ∀ a ∈ σ.accounts (h.taken e), h.lock a = none := by
    intro a ha
    refine (hfree a ha).resolve_right fun hl => hnot ?_
    have := (hr.inv.lock a _ hl).1
    rwa [home_plan, hhome a ha] at this
  have hr₁ := hr.hold hpart
  have hj₁ : h.taken e ∈ (h.hold σ.plan e).held e := State.mem_held_hold.mpr (Or.inr ⟨rfl, rfl⟩)
  have hhead₁ : (h.hold σ.plan e).Head σ.plan e (h.taken e) := by
    intro i hi hij a ha hai
    rcases State.mem_held_hold.mp hi with hi | ⟨-, rfl⟩
    · have hmem : i ∈ h.queue σ.plan e a := State.mem_queue.mpr ⟨hi, hai⟩
      rw [hempty a (hall ▸ ha)] at hmem
      cases hmem
    · exact lt_irrefl _ hij
  have hstore : ∀ a ∈ σ.accounts (h.taken e), s.accountStore a = σ.value (h.taken e) a := by
    intro a ha
    have := hr₁.store_eq hj₁ hhead₁ (hall.symm ▸ ha)
    rw [Executor.enqueue_eq nodup_part] at this
    rw [value_eq_state _ ha]
    exact this
  obtain ⟨replies, hok⟩ := executeSingleLocalTransaction_eq clientReplyAddress hlt hs hstore
    (σ.task (h.taken e)).digest
  refine ⟨_, hok, ?_, hhead₁, ?_, ?_⟩
  · intro a ha i hi
    obtain ⟨-, rfl⟩ := mem_part.mp ha
    rw [State.first_iff hr.inv, home_plan] at hi
    rw [home_plan] at hempty hall
    rw [hempty a (hall ▸ ha)] at hi
    cases hi
  · intro a ha
    right
    exact if_pos (hall.symm ▸ ha)
  · have hfinish := hr₁.finish_local hj₁ hs hhead₁ replies
    rw [Executor.enqueue_eq nodup_part] at hfinish
    have hlocks : (fun a => if a ∈ σ.accounts (h.taken e) then none else
        if a ∈ part σ.plan e (h.taken e) then some (σ.pending e (h.taken e)).txHeader.id
        else s.accountLocks a) = s.accountLocks := by
      funext a
      by_cases ha : a ∈ σ.accounts (h.taken e)
      · rw [if_pos ha, hr.site.locks]
        simp [hlock a ha]
      · rw [if_neg ha, if_neg (hall.symm ▸ ha)]
    have hqueues : σ.queues ((h.hold σ.plan e).finish σ.plan e (h.taken e)) e =
        s.pendingQueues := by
      have hheld : ((h.hold σ.plan e).finish σ.plan e (h.taken e)).held e = h.held e := by
        unfold State.finish State.hold
        simp only [Function.update_self]
        rw [List.erase_append_right _ hnot, List.erase_cons_head, List.append_nil]
      rw [hr.site.queues]
      unfold queues State.queue
      rw [hheld]
    have hdests : σ.destsWith e (h.taken e) s.distributedDestAccounts =
        s.distributedDestAccounts := if_neg fun hand => hs hand.1
    simp only [hlocks, hqueues, hdests] at hfinish
    exact hfinish

theorem locality_of_source (hs : σ.Split j) (he : e = σ.home (σ.src j)) :
    σ.locality e j = .distributedSource (σ.src j) (σ.home (σ.dest j)) := by
  subst he
  exact locality_source hs

theorem locality_of_dest (hs : σ.Split j) (he : e = σ.home (σ.dest j)) :
    σ.locality e j = .distributedDest (σ.dest j) (σ.home (σ.src j)) := by
  subst he
  exact locality_dest hs

/-- The next transaction is enqueued. -/
theorem Running.lockAndEnqueueTransaction (hr : σ.Running h e restTransfers restWritebacks s)
    (hpart : part σ.plan e (h.taken e) ≠ []) :
    ∃ s', s.lockAndEnqueueTransaction (σ.task (h.taken e)).digest (σ.task (h.taken e)).txBytes
        (σ.task (h.taken e)).header (σ.accounts (h.taken e)) (σ.locality e (h.taken e)) = .ok s' ∧
      σ.Running (h.hold σ.plan e) e restTransfers restWritebacks s' := by
  have hlt := lt_of_part hpart
  refine ⟨_, ?_, hr.hold hpart⟩
  unfold Executor.lockAndEnqueueTransaction
  rw [σ.payload _ (task_mem hlt), localAccounts_eq hpart]
  refine congrArg Except.ok (congrArg (fun dests => Executor.enqueue (σ.pending e (h.taken e))
    (part σ.plan e (h.taken e)) { s with distributedDestAccounts := dests }) ?_)
  unfold destsWith
  by_cases hs : σ.Split (h.taken e)
  · rcases home_of_part hpart with he | he
    · have hl : σ.locality e (h.taken e) =
          .distributedSource (σ.src (h.taken e)) (σ.home (σ.dest (h.taken e))) :=
        locality_of_source hs he
      have hne : ¬ (σ.Split (h.taken e) ∧ σ.plan.target (h.taken e) = e) := fun hand =>
        hs.2 (he.symm.trans hand.2.symm)
      rw [hl, if_neg hne]
    · have hl : σ.locality e (h.taken e) =
          .distributedDest (σ.dest (h.taken e)) (σ.home (σ.src (h.taken e))) :=
        locality_of_dest hs he
      rw [hl, if_pos ⟨hs, he.symm⟩]
      rfl
  · rw [locality_of_local hs hlt, if_neg fun hand => hs hand.1]

/-- The executor has taken one more transaction. -/
structure Taken (σ : Course partition) (h : State ℕ ℕ) (e n : ℕ)
    (restTransfers : Multiset StateTransferRequest)
    (restWritebacks : Multiset StateWritebackRequest) (h' : State ℕ ℕ) (s' : Executor) : Prop where
  steps : State.Steps σ.plan e h h'
  taken : h'.taken e = h.taken e + n
  running : σ.Running h' e restTransfers restWritebacks s'

theorem Running.executeTransaction (clientReplyAddress : ℕ → Option SocketAddr)
    (hr : σ.Running h e restTransfers restWritebacks s)
    (hpart : part σ.plan e (h.taken e) ≠ []) :
    ∃ s' h', Executor.executeTransaction clientReplyAddress (σ.task (h.taken e)).digest s
        (σ.task (h.taken e)).txBytes = .ok s' ∧
      σ.Taken h e 1 restTransfers restWritebacks h' s' ∧
      (h'.Stuck σ.plan ↔ h.Stuck σ.plan ∨ ¬ h.Careful σ.plan e) := by
  have hlt := lt_of_part hpart
  have hacc := extractRequiredAccounts_eq hlt
  have hloc : determineLocality s.executorId s.statesPartition (σ.accounts (h.taken e)) =
      .ok (σ.locality e (h.taken e)) := by
    rw [hr.site.executorId, hr.site.statesPartition]
    exact determineLocality_eq hpart
  have htaken : (h.hold σ.plan e).taken e = h.taken e + 1 := Function.update_self _ _ _
  have hstuck := State.stuck_hold_iff (e := e) hr.inv
  have hj : h.taken e ∈ (h.hold σ.plan e).held e := State.mem_held_hold.mpr (Or.inr ⟨rfl, rfl⟩)
  obtain ⟨s₁, hlock, hr₁⟩ := hr.lockAndEnqueueTransaction hpart
  have hheld : σ.Taken h e 1 restTransfers restWritebacks (h.hold σ.plan e) s₁ :=
    ⟨.single (.hold hpart), htaken, hr₁⟩
  unfold Executor.executeTransaction
  rw [σ.header _ (task_mem hlt)]
  simp only [hacc, hloc, bind, Except.bind]
  by_cases hs : σ.Split (h.taken e)
  · rcases home_of_part hpart with he | he
    · -- the source account is here
      rw [locality_of_source hs he] at hlock ⊢
      dsimp only
      rw [hlock]
      dsimp only
      have ht : σ.plan.target (h.taken e) ≠ e := fun ht => hs.2 (he.symm.trans ht.symm)
      rcases hr₁.head_cases (σ.src (h.taken e)) with hnone | ⟨i, rest, hq, hi, -, hsome⟩
      · rw [hnone]
        exact ⟨s₁, _, rfl, hheld, hstuck⟩
      · rw [hsome]
        dsimp only
        have hi₁ := lt_of_part (hr₁.inv.part e i hi)
        by_cases hid : (σ.pending e i).txHeader.id = (σ.task (h.taken e)).header.id
        · obtain rfl := id_injective hi₁ hlt hid
          have hhead := hr₁.head_of_split hs hq
          have hnew : h.taken e ∉ (h.hold σ.plan e).lent e := fun hmem =>
            absurd (hr.inv.lt e _ (hr.inv.lent e _ hmem).1) (lt_irrefl _)
          obtain ⟨s₂, hsend, hr₂⟩ := hr₁.lend hj ht hhead hnew
          rw [if_pos hid, hsend]
          exact ⟨s₂, _, rfl, ⟨hheld.steps.tail (.lend hj ht hhead), htaken, hr₂⟩, hstuck⟩
        · rw [if_neg hid]
          exact ⟨s₁, _, rfl, hheld, hstuck⟩
    · -- the destination account is here
      rw [locality_of_dest hs he] at hlock ⊢
      dsimp only
      rw [hlock]
      exact ⟨s₁, _, rfl, hheld, hstuck⟩
  · have hl : σ.locality e (h.taken e) = .local := locality_of_local hs hlt
    rw [hl] at hlock ⊢
    dsimp only
    by_cases hready : s.isReadyToExecute (σ.task (h.taken e)).header.id
        (σ.accounts (h.taken e)) = true
    · obtain ⟨s₂, hexec, hcareful, hhead, hfree, hr₂⟩ :=
        hr.execute_now clientReplyAddress hpart hs hready
      obtain ⟨-, ht⟩ := part_local hs hpart
      have hrun : State.Step σ.plan e (h.hold σ.plan e)
          ((h.hold σ.plan e).finish σ.plan e (h.taken e)) := by
        refine .run hj ht hhead (fun e' hne hp => ?_) fun _ => hfree
        exact absurd ((part_local hs hp).2.symm.trans ht) hne
      rw [if_pos hready, hexec]
      refine ⟨s₂, _, rfl, ⟨hheld.steps.tail hrun, htaken, hr₂⟩, ?_⟩
      exact (State.stuck_finish_iff hr₁.inv hj hhead fun _ => hfree).trans hstuck
    · rw [if_neg hready, hlock]
      exact ⟨s₁, _, rfl, hheld, hstuck⟩

/-- The transactions from `start` on that the executor has a part in. -/
def share (σ : Course partition) (e start n : ℕ) : List Bytes :=
  ((List.range' start n).filter fun j => part σ.plan e j ≠ []).map fun j => (σ.task j).txBytes

theorem share_succ (e start n : ℕ) : σ.share e start (n + 1) =
    if part σ.plan e start = [] then σ.share e (start + 1) n
    else (σ.task start).txBytes :: σ.share e (start + 1) n := by
  unfold share
  rw [List.range'_succ, List.filter_cons]
  by_cases hpart : part σ.plan e start = []
  · simp [hpart]
  · simp [hpart]

/-- The loop of `execute_batch`. -/
theorem Running.executeTransactions (clientReplyAddress : ℕ → Option SocketAddr) (digest : Bytes)
    (n : ℕ) (hr : σ.Running h e restTransfers restWritebacks s)
    (hdigest : ∀ j, h.taken e ≤ j → j < h.taken e + n → (σ.task j).digest = digest) :
    ∃ s' h', Executor.executeTransactions clientReplyAddress digest (σ.share e (h.taken e) n) s =
        .ok s' ∧ σ.Taken h e n restTransfers restWritebacks h' s' ∧
      (h'.Stuck σ.plan ↔ h.Stuck σ.plan ∨
        ¬ s.Considerate clientReplyAddress digest (σ.share e (h.taken e) n)) := by
  induction n generalizing h s with
  | zero =>
      refine ⟨s, h, rfl, ⟨.refl, rfl, hr⟩, (or_iff_left fun hnot => hnot trivial).symm⟩
  | succ n ih =>
      rw [share_succ]
      by_cases hpart : part σ.plan e (h.taken e) = []
      · rw [if_pos hpart]
        have htaken : (h.skip e).taken e = h.taken e + 1 := Function.update_self _ _ _
        obtain ⟨s', h', hok, htake, hstuck⟩ := ih (hr.skip hpart) fun j hj hlt =>
          hdigest j (by omega) (by omega)
        rw [htaken] at hok hstuck
        refine ⟨s', h', hok, ⟨htake.steps.head (.skip hpart), ?_, htake.running⟩, hstuck⟩
        rw [htake.taken, htaken]
        omega
      · rw [if_neg hpart]
        obtain ⟨s₁, h₁, hok₁, htake₁, hstuck₁⟩ := hr.executeTransaction clientReplyAddress hpart
        rw [hdigest _ le_rfl (by omega)] at hok₁
        have htaken := htake₁.taken
        obtain ⟨s', h', hok, htake, hstuck⟩ := ih htake₁.running fun j hj hlt =>
          hdigest j (by omega) (by omega)
        rw [htaken] at hok hstuck
        refine ⟨s', h', ?_, ⟨htake₁.steps.trans htake.steps, ?_, htake.running⟩, ?_⟩
        · unfold Executor.executeTransactions at hok ⊢
          rw [List.foldlM_cons, hok₁]
          exact hok
        · rw [htake.taken, htaken]
          omega
        · have hkeep : s.Considerate clientReplyAddress digest
              ((σ.task (h.taken e)).txBytes :: σ.share e (h.taken e + 1) n) ↔
              h.Careful σ.plan e ∧
                s₁.Considerate clientReplyAddress digest (σ.share e (h.taken e + 1) n) := by
            refine and_congr (hr.keepsLocks_iff hpart) ⟨fun hall => hall s₁ hok₁, ?_⟩
            intro hcons s₂ hok₂
            obtain rfl := Except.ok.inj (hok₁.symm.trans hok₂)
            exact hcons
          rw [hstuck, hstuck₁, hkeep, not_and_or, or_assoc]

end Course

end DagBft.Writeback
