/-
  Batches of arbitrary byte strings (`worker/src/batch_executor.rs`,
  `worker/src/transaction.rs`).

  `Transaction::parse` takes any 10 bytes for a header, and a transaction without a header is
  skipped; `extract_required_accounts` panics when the SmallBank payload does not parse.
  `skips_iff` says exactly when the other byte strings make no difference: each that is long
  enough for a header parses, over accounts of the partition, and under the new scheduler no
  executor gets more than what the transactions that parse allow, as the bound counts the
  skipped ones. `malformed_skipped` adds what this means for whole runs.
-/
import DagBft.Fusion.Loads
import DagBft.Fusion.Queues

namespace DagBft.Fusion

open Worker Handover

/-- The header and the SmallBank payload parse. -/
def parsesFully (txBytes : Bytes) : Bool :=
  (TransactionHeader.parse txBytes).isSome && (parseSmallbankPayload txBytes).isSome

/-- The batch without the byte strings that do not parse. -/
def Batch.parsing (b : Batch) : Batch :=
  { b with transactions := b.transactions.filter parsesFully }

/-- The byte strings that do not parse make no difference: loop 1 returns and schedules the
    others in their order, and all that happens is what happens without them. -/
def Skips (cfg : Settings) (s : Executor) (transactions : List Bytes) : Prop :=
  ∀ (iter : Iteration) (digest : Bytes), ∃ localities s',
    s.beginBatch cfg iter transactions = .ok (localities, s') ∧
    localities.map (fun x => x.1.txBytes) = transactions.filter parsesFully ∧
    s.beginBatch cfg iter (transactions.filter parsesFully) = .ok (localities, s') ∧
    s.executeBatch cfg iter digest transactions =
      s.executeBatch cfg iter digest (transactions.filter parsesFully)

/-- What is long enough for a header parses, over accounts of the partition. -/
def PayloadsParse (partition : Partition) (transactions : List Bytes) : Prop :=
  ∀ tx ∈ transactions, 10 ≤ tx.length → Parses partition tx

/-- No executor gets more transactions than the new scheduler allows for those that there
    are. -/
def WithinBound (cfg : Settings) (txs : List Scheduled) : Prop :=
  cfg.useNewScheduler = true → ∀ e, loadIn txs e ≤ maxAllowed txs.length cfg.numExecutors

theorem isSome_parse {txBytes : Bytes} :
    (TransactionHeader.parse txBytes).isSome ↔ 10 ≤ txBytes.length := by
  unfold TransactionHeader.parse
  split
  · simp
    omega
  · simp
    omega

theorem Parses.parsesFully {partition : Partition} {txBytes : Bytes}
    (h : Parses partition txBytes) : parsesFully txBytes = true := by
  obtain ⟨sbTx, hparse, -⟩ := h
  obtain ⟨header, hheader⟩ := parse_of_payload hparse
  simp [Fusion.parsesFully, hheader, hparse]

/-! ## The schedulers on arbitrary byte strings -/

section Schedule

variable {cfg : Settings} {iter : Iteration} {partition localUpdates : Partition} {bound : ℕ}
  {loads : List ℕ} {transactions : List Bytes} {txs : List Scheduled} {i : ℕ}

/-- What a scheduler that returns has made of the byte strings. -/
structure Sound (transactions : List Bytes) (txs : List Scheduled) : Prop where
  bytes : txs.map Scheduled.txBytes =
    transactions.filter fun tx => (TransactionHeader.parse tx).isSome
  payload : ∀ tx ∈ txs, ∃ sbTx, parseSmallbankPayload tx.txBytes = some sbTx ∧
    tx.requiredAccounts = sbTx.requiredAccounts

theorem Sound.skip {txBytes : Bytes} (h : Sound transactions txs)
    (hheader : TransactionHeader.parse txBytes = none) :
    Sound (txBytes :: transactions) txs where
  bytes := by rw [h.bytes, List.filter_cons_of_neg (by simp [hheader])]
  payload := h.payload

theorem Sound.cons {txBytes : Bytes} {header : TransactionHeader} {requiredAccounts : List ℕ}
    {target : ℕ} (h : Sound transactions txs)
    (hheader : TransactionHeader.parse txBytes = some header)
    (hreq : extractRequiredAccounts txBytes = .ok requiredAccounts) :
    Sound (txBytes :: transactions) (⟨txBytes, header, requiredAccounts, target⟩ :: txs) where
  bytes := by rw [List.map_cons, h.bytes, List.filter_cons_of_pos (by simp [hheader])]
  payload := by
    rw [List.forall_mem_cons]
    refine ⟨?_, h.payload⟩
    unfold extractRequiredAccounts at hreq
    cases hparse : parseSmallbankPayload txBytes with
    | none =>
        rw [hparse] at hreq
        cases hreq
    | some sbTx =>
        rw [hparse] at hreq
        exact ⟨sbTx, rfl, (Except.ok.inj hreq).symm⟩

theorem sound_static (h : scheduleStatic partition transactions = .ok txs) :
    Sound transactions txs := by
  induction transactions generalizing txs with
  | nil =>
      obtain rfl := Except.ok.inj h
      exact ⟨rfl, by simp⟩
  | cons txBytes transactions ih =>
      unfold scheduleStatic at h
      cases hheader : TransactionHeader.parse txBytes with
      | none =>
          rw [hheader] at h
          exact (ih h).skip hheader
      | some header =>
          rw [hheader] at h
          obtain ⟨requiredAccounts, hreq, h₁⟩ := bind_eq_ok.mp h
          obtain ⟨target, -, h₂⟩ := bind_eq_ok.mp h₁
          obtain ⟨rest, hrest, h₃⟩ := bind_eq_ok.mp h₂
          obtain rfl := Except.ok.inj h₃
          exact (ih hrest).cons hheader hreq

theorem sound_dynamic
    (h : scheduleDynamic iter bound partition i localUpdates loads transactions = .ok txs) :
    Sound transactions txs ∧ ∀ tx ∈ txs, tx.target < loads.length := by
  induction transactions generalizing i localUpdates loads txs with
  | nil =>
      unfold scheduleDynamic at h
      obtain rfl := Except.ok.inj h
      exact ⟨⟨rfl, by simp⟩, by simp⟩
  | cons txBytes transactions ih =>
      rcases scheduleDynamic_cons h with ⟨hheader, hrest⟩ | ⟨header, requiredAccounts, votes,
        best, target, rest, hheader, hreq, -, -, -, hlt, hrest, rfl⟩
      · obtain ⟨hsound, htargets⟩ := ih hrest
        exact ⟨hsound.skip hheader, htargets⟩
      · obtain ⟨hsound, htargets⟩ := ih hrest
        rw [List.length_set] at htargets
        exact ⟨hsound.cons hheader hreq, List.forall_mem_cons.mpr ⟨hlt, htargets⟩⟩

/-- Byte strings that are too short for a header are passed over. -/
theorem scheduleStatic_filter (h : ∀ tx ∈ transactions, (TransactionHeader.parse tx).isSome →
    parsesFully tx = true) :
    scheduleStatic partition (transactions.filter parsesFully) =
      scheduleStatic partition transactions := by
  induction transactions with
  | nil => rfl
  | cons txBytes transactions ih =>
      rw [List.forall_mem_cons] at h
      cases hheader : TransactionHeader.parse txBytes with
      | none =>
          rw [List.filter_cons_of_neg (by simp [parsesFully, hheader]), ih h.2]
          conv_rhs => unfold scheduleStatic
          rw [hheader]
      | some header =>
          rw [List.filter_cons_of_pos (h.1 (by simp [hheader]))]
          unfold scheduleStatic
          rw [hheader, ih h.2]

theorem scheduleDynamic_filter (i' : ℕ) (h : ∀ tx ∈ transactions,
    (TransactionHeader.parse tx).isSome → parsesFully tx = true) :
    scheduleDynamic iter bound partition i' localUpdates loads
        (transactions.filter parsesFully) =
      scheduleDynamic iter bound partition i localUpdates loads transactions := by
  induction transactions generalizing i i' localUpdates loads with
  | nil =>
      unfold scheduleDynamic
      rfl
  | cons txBytes transactions ih =>
      rw [List.forall_mem_cons] at h
      cases hheader : TransactionHeader.parse txBytes with
      | none =>
          rw [List.filter_cons_of_neg (by simp [parsesFully, hheader]),
            ih (i := i + 1) i' h.2]
          conv_rhs => unfold scheduleDynamic
          rw [hheader]
      | some header =>
          -- the position is used only to order the votes
          have hbest : ∀ votes, bestExecutor bound loads (iter.votes i' votes) =
              bestExecutor bound loads (iter.votes i votes) := fun votes =>
            bestExecutor_perm ((iter.votes_perm i' votes).trans (iter.votes_perm i votes).symm)
          rw [List.filter_cons_of_pos (h.1 (by simp [hheader]))]
          unfold scheduleDynamic
          simp only [hheader, hbest, ih (i := i + 1) (i' + 1) h.2]

end Schedule

/-! ## One batch -/

section Batch

variable {cfg : Settings} {s : Executor} {transactions : List Bytes} {txs : List Scheduled}

theorem parseAndSchedule_sound {iter : Iteration} {partition : Partition}
    (h : parseAndScheduleBatchTransactions cfg iter partition transactions = .ok txs) :
    Sound transactions txs := by
  unfold parseAndScheduleBatchTransactions at h
  split at h
  · exact (sound_dynamic h).1
  · exact sound_static h

/-- Where no account pays itself, none moves for that. -/
theorem SelfPaymentsStay.of_nodup {partition : Partition} {batches : List Batch}
    (h : ∀ b ∈ batches, ∀ tx ∈ b.transactions, ∀ sbTx, parseSmallbankPayload tx = some sbTx →
      sbTx.requiredAccounts.Nodup) : SelfPaymentsStay cfg partition batches := by
  have hstays : ∀ (partition : Partition) (txs : List Scheduled),
      (∀ tx ∈ txs, tx.requiredAccounts.Nodup) → StaysFrom partition txs := by
    intro partition txs hnodup
    induction txs generalizing partition with
    | nil => exact trivial
    | cons tx txs ih =>
        rw [List.forall_mem_cons] at hnodup
        refine ⟨fun a ha => ?_, ih _ hnodup.2⟩
        have := hnodup.1
        rw [ha] at this
        simp at this
  induction batches generalizing partition with
  | nil => exact trivial
  | cons b batches ih =>
      rw [List.forall_mem_cons] at h
      intro txs htxs
      have hsound := parseAndSchedule_sound htxs
      refine ⟨hstays partition txs fun tx htx => ?_, ih h.2⟩
      obtain ⟨sbTx, hparse, hreq⟩ := hsound.payload tx htx
      have hmem : tx.txBytes ∈ txs.map Scheduled.txBytes := List.mem_map_of_mem htx
      rw [hsound.bytes] at hmem
      rw [hreq]
      exact h.1 tx.txBytes (List.mem_of_mem_filter hmem) sbTx hparse

theorem parsesFully_of_payloadsParse {partition : Partition}
    (h : PayloadsParse partition transactions) :
    ∀ tx ∈ transactions, (TransactionHeader.parse tx).isSome → parsesFully tx = true :=
  fun tx htx hheader => (h tx htx (isSome_parse.mp hheader)).parsesFully

theorem filter_header {partition : Partition} (h : PayloadsParse partition transactions) :
    (transactions.filter fun tx => (TransactionHeader.parse tx).isSome) =
      transactions.filter parsesFully := by
  refine List.filter_congr fun tx htx => ?_
  cases hheader : TransactionHeader.parse tx with
  | none => simp [parsesFully, hheader]
  | some header =>
      exact (parsesFully_of_payloadsParse h tx htx (by simp [hheader])).symm

/-- Loop 1 returns only on byte strings that have no header or parse. -/
theorem payloadsParse_of_beginBatch {iter : Iteration}
    {r : List (Scheduled × TransactionLocality) × Executor}
    (h : s.beginBatch cfg iter transactions = .ok r) :
    PayloadsParse s.statesSchedulePartition transactions ∧
      ∃ txs, parseAndScheduleBatchTransactions cfg default s.statesSchedulePartition transactions =
          .ok txs ∧
        r = (localitiesOf s.executorId s.statesSchedulePartition txs,
          { s with statesSchedulePartition := s.statesSchedulePartition.movedBy txs }) := by
  unfold Executor.beginBatch at h
  obtain ⟨txs, hparsed, h₁⟩ := bind_eq_ok.mp h
  obtain ⟨r', hlocalities, h₂⟩ := bind_eq_ok.mp h₁
  obtain ⟨hknown, rfl⟩ := scheduleLocalities_eq_ok.mp hlocalities
  have hsound := parseAndSchedule_sound hparsed
  refine ⟨fun tx htx hlen => ?_, txs, ?_, (Except.ok.inj h₂).symm⟩
  · have hmem : tx ∈ txs.map Scheduled.txBytes := by
      rw [hsound.bytes]
      exact List.mem_filter.mpr ⟨htx, isSome_parse.mpr hlen⟩
    obtain ⟨tx', htx', rfl⟩ := List.mem_map.mp hmem
    obtain ⟨sbTx, hparse, hreq⟩ := hsound.payload tx' htx'
    exact ⟨sbTx, hparse, fun a ha => hknown tx' htx' a (hreq ▸ ha)⟩
  · rw [← parseAndSchedule_iter cfg iter default, hparsed]

/-- The schedule under the bound for all byte strings is that under the bound for those that
    parse. -/
theorem parseAndSchedule_filter {partition : Partition}
    (howned : partition.Owned cfg.numExecutors) (hparse : PayloadsParse partition transactions)
    (hbound : ∀ txs, parseAndScheduleBatchTransactions cfg default partition transactions =
      .ok txs → WithinBound cfg txs) :
    ∃ txs, parseAndScheduleBatchTransactions cfg default partition transactions = .ok txs ∧
      parseAndScheduleBatchTransactions cfg default partition (transactions.filter parsesFully) =
        .ok txs ∧
      txs.map Scheduled.txBytes = transactions.filter parsesFully ∧
      ∀ tx ∈ txs, tx.Good partition cfg.numExecutors := by
  have hfull := parsesFully_of_payloadsParse hparse
  have hparses : ∀ tx ∈ transactions.filter parsesFully, Parses partition tx := by
    intro tx htx
    obtain ⟨hmem, hp⟩ := List.mem_filter.mp htx
    refine hparse tx hmem (isSome_parse.mp ?_)
    exact (Bool.and_eq_true _ _ ▸ hp).1
  unfold parseAndScheduleBatchTransactions at hbound ⊢
  by_cases hnew : cfg.useNewScheduler = true
  · simp only [if_pos hnew] at hbound ⊢
    obtain ⟨txs, hok, hmap, hgood⟩ : ∃ txs, scheduleDynamic default
          (maxAllowed transactions.length cfg.numExecutors) partition 0 (fun _ => none)
          (List.replicate cfg.numExecutors 0) (transactions.filter parsesFully) = .ok txs ∧
        txs.map Scheduled.txBytes = transactions.filter parsesFully ∧
        ∀ tx ∈ txs, tx.Good partition cfg.numExecutors :=
      scheduleDynamic_ok default howned (fun a e he => by cases he) (by simp) hparses
    have hraw := hok
    rw [scheduleDynamic_filter (i := 0) 0 hfull] at hraw
    have hlen : (transactions.filter parsesFully).length = txs.length := by
      rw [← hmap, List.length_map]
    refine ⟨txs, hraw, ?_, hmap, hgood⟩
    refine scheduleDynamic_lower (maxAllowed_mono _ (List.length_filter_le _ _)) hok fun e => ?_
    have := hbound txs hraw hnew e
    rw [hlen]
    simpa [List.getD] using this
  · simp only [if_neg hnew] at hbound ⊢
    obtain ⟨txs, hok, hmap, hgood⟩ := scheduleStatic_ok howned hparses
    refine ⟨txs, ?_, hok, hmap, hgood⟩
    rw [← scheduleStatic_filter hfull, hok]

theorem beginBatch_eq (iter : Iteration)
    (hok : parseAndScheduleBatchTransactions cfg default s.statesSchedulePartition transactions =
      .ok txs)
    (hknown : ∀ tx ∈ txs, ∀ a ∈ tx.requiredAccounts, (s.statesSchedulePartition a).isSome) :
    s.beginBatch cfg iter transactions =
      .ok (localitiesOf s.executorId s.statesSchedulePartition txs,
        { s with statesSchedulePartition := s.statesSchedulePartition.movedBy txs }) := by
  have hloc : scheduleLocalities s.executorId s.statesSchedulePartition txs = .ok _ :=
    scheduleLocalities_eq_ok.mpr ⟨hknown, rfl⟩
  unfold Executor.beginBatch
  rw [parseAndSchedule_iter cfg iter default, hok]
  simp only [hloc, bind, Except.bind]

theorem skips_iff (hn : cfg.numExecutors < 2 ^ 32)
    (howned : s.statesSchedulePartition.Owned cfg.numExecutors) :
    Skips cfg s transactions ↔ PayloadsParse s.statesSchedulePartition transactions ∧
      ∀ txs, parseAndScheduleBatchTransactions cfg default s.statesSchedulePartition
        transactions = .ok txs → WithinBound cfg txs := by
  constructor
  · intro h
    obtain ⟨localities, s', hbegin, hbytes, hbegin', -⟩ := h default []
    obtain ⟨hparse, txs, hok, heq⟩ := payloadsParse_of_beginBatch hbegin
    obtain ⟨-, txs', hok', heq'⟩ := payloadsParse_of_beginBatch hbegin'
    obtain rfl : txs = txs' := localitiesOf_injective (Prod.mk.inj (heq.symm.trans heq')).1
    refine ⟨hparse, fun txs' htxs' hnew e => ?_⟩
    obtain rfl := Except.ok.inj (hok.symm.trans htxs')
    have hlen : txs.length = (transactions.filter parsesFully).length := by
      rw [← filter_header hparse, ← (parseAndSchedule_sound hok).bytes, List.length_map]
    unfold parseAndScheduleBatchTransactions at hok'
    rw [if_pos hnew, ← hlen] at hok'
    -- the transactions fit: if there are any, there are executors
    have hfit : txs.length ≤
        cfg.numExecutors * maxAllowed txs.length cfg.numExecutors := by
      cases txs with
      | nil => exact Nat.zero_le _
      | cons tx txs =>
          have hlt := (sound_dynamic hok').2 tx List.mem_cons_self
          rw [List.length_replicate] at hlt
          exact le_mul_maxAllowed _ (Nat.zero_lt_of_lt hlt) hn
    have hle := scheduleDynamic_le (n := cfg.numExecutors) (by simp) hok'
      (fun e' => by simp [List.getD]) (by simpa using hfit) e
    simpa [List.getD] using hle
  · rintro ⟨hparse, hbound⟩ iter digest
    obtain ⟨txs, hok, hok', hmap, hgood⟩ := parseAndSchedule_filter howned hparse hbound
    have hbegin := beginBatch_eq iter hok fun tx htx => (hgood tx htx).known
    have hbegin' := beginBatch_eq iter hok' fun tx htx => (hgood tx htx).known
    refine ⟨_, _, hbegin, ?_, hbegin', ?_⟩
    · have hfst : (localitiesOf s.executorId s.statesSchedulePartition txs).map Prod.fst = txs :=
        map_fst_localitiesOf _ _
      rw [← hmap, ← congrArg (List.map Scheduled.txBytes) hfst, List.map_map]
      rfl
    · unfold Executor.executeBatch
      rw [hbegin, hbegin']

end Batch

/-! ## Runs -/

theorem sequenceOf_parsing (batches : List Batch) :
    sequenceOf (batches.map Batch.parsing) = (sequenceOf batches).filter parsesFully := by
  unfold sequenceOf
  rw [List.flatMap_map, List.filter_flatMap]
  rfl

theorem Event.Enough.parsing {batches : List Batch} {event : Event} (h : event.Enough batches) :
    event.Enough (batches.map Batch.parsing) := by
  cases event with
  | process e iter =>
      have hle := List.length_filter_le parsesFully (sequenceOf batches)
      rw [← sequenceOf_parsing] at hle
      have hfuel : 2 * (sequenceOf batches).length < iter.fuel := h
      show 2 * (sequenceOf (batches.map Batch.parsing)).length < iter.fuel
      omega
  | _ => trivial

section Runs

variable {cfg : Settings} {partition : Partition} {stores : ℕ → AccountStore}
  {batches : List Batch} {blocks : List (List Scheduled)}

/-- The transactions in the first batches. -/
theorem Schedules.take_flatten (hs : Schedules cfg partition batches blocks) (k : ℕ) :
    blocks.flatten.take (Course.offset batches k) = (blocks.take k).flatten := by
  induction hs generalizing k with
  | nil => simp
  | @cons partition b batches txs blocks hbytes hbegin hrest ih =>
      cases k with
      | zero => simp [Course.offset, sequenceOf]
      | succ k =>
          have hoffset : Course.offset (b :: batches) (k + 1) =
              txs.length + Course.offset batches k := by
            unfold Course.offset sequenceOf
            rw [List.take_succ_cons, List.flatMap_cons, List.length_append, ← hbytes,
              List.length_map]
          rw [hoffset, List.flatten_cons, List.take_length_add_append, ih, List.take_succ_cons,
            List.flatten_cons]

/-- Loop 1 on the batch with number `k`, from the partition that the earlier ones leave. -/
theorem begin_parsing (howned : partition.Owned cfg.numExecutors)
    (hpay : ∀ b ∈ batches, PayloadsParse partition b.transactions)
    (hbound : Throughout cfg (fun _ txs => WithinBound cfg txs) partition batches)
    (hs : Schedules cfg partition (batches.map Batch.parsing) blocks) {k : ℕ} {b : Batch}
    (hk : batches[k]? = some b) (iter : Iteration) (s : Executor)
    (hpart : s.statesSchedulePartition = partition.movedBy (blocks.take k).flatten) :
    s.beginBatch cfg iter b.transactions = s.beginBatch cfg iter b.parsing.transactions := by
  induction batches generalizing partition blocks k with
  | nil => simp at hk
  | cons b₀ batches ih =>
      cases hs with
      | @cons _ _ _ txs blocks hbytes hbegin hrest =>
          rw [List.forall_mem_cons] at hpay
          have hfirst : ∀ txs, parseAndScheduleBatchTransactions cfg default partition
              b₀.transactions = .ok txs → WithinBound cfg txs := fun txs htxs =>
            (hbound txs htxs).1
          obtain ⟨txs', hok, hok', -, hgood⟩ := parseAndSchedule_filter howned hpay.1 hfirst
          have hparsed : parseAndScheduleBatchTransactions cfg default partition
              b₀.parsing.transactions = .ok txs := Schedules.parseAndSchedule hbegin
          obtain rfl : txs' = txs := Except.ok.inj (hok'.symm.trans hparsed)
          cases k with
          | zero =>
              obtain rfl : b₀ = b := by simpa using hk
              have hpart : s.statesSchedulePartition = partition := hpart
              subst hpart
              have hknown := fun tx htx => (hgood tx htx).known
              exact (beginBatch_eq iter hok hknown).trans (beginBatch_eq iter hok' hknown).symm
          | succ k =>
              rw [List.take_succ_cons, List.flatten_cons, Partition.movedBy_append] at hpart
              refine ih (Partition.owned_movedBy howned fun tx htx => (hgood tx htx).target_lt)
                (fun b hb tx htx hlen => (hpay.2 b hb tx htx hlen).of_isSome fun a =>
                  (Partition.isSome_movedBy (fun tx htx => (hgood tx htx).known) a).mpr)
                (hbound txs' hok).2 hrest (by simpa using hk) hpart

/-- A step is the same if loop 1 is. -/
theorem step_parsing {sys : System} {event : Event}
    (h : ∀ e < cfg.numExecutors, ∀ b, batches[sys.taken e]? = some b → ∀ iter,
      (sys.executors e).beginBatch cfg iter b.transactions =
        (sys.executors e).beginBatch cfg iter b.parsing.transactions) :
    System.step cfg batches sys event =
      System.step cfg (batches.map Batch.parsing) sys event := by
  cases event with
  | batch e iter =>
      by_cases he : e < cfg.numExecutors
      · cases hk : batches[sys.taken e]? with
        | none => simp [System.step, he, hk]
        | some b =>
            simp only [System.step, if_pos he, List.getElem?_map, hk, Option.map_some,
              h e he b hk iter]
            rfl
      · simp [System.step, he]
  | _ => rfl

theorem Course.Inv.run_parsing {σ : Course cfg} {sys : System} {h : State ℕ ℕ}
    (hi : σ.Inv (batches.map Batch.parsing) sys h) (howned : σ.initial.Owned cfg.numExecutors)
    (hpay : ∀ b ∈ batches, PayloadsParse σ.initial b.transactions)
    (hbound : Throughout cfg (fun _ txs => WithinBound cfg txs) σ.initial batches)
    (hs : Schedules cfg σ.initial (batches.map Batch.parsing) blocks)
    (htasks : σ.tasks = tasksOf (batches.map Batch.parsing) blocks) {events : List Event}
    (henough : ∀ event ∈ events, event.Enough batches) :
    System.run cfg batches sys events =
      System.run cfg (batches.map Batch.parsing) sys events := by
  induction events generalizing sys h with
  | nil => rfl
  | cons event events ih =>
      rw [List.forall_mem_cons] at henough
      have hstep : System.step cfg batches sys event =
          System.step cfg (batches.map Batch.parsing) sys event := by
        refine step_parsing fun e he b hk iter => begin_parsing howned hpay hbound hs hk iter _ ?_
        rw [hi.partition e he, hi.taken e he, Course.before, htasks, List.map_take, hs.map_tx,
          hs.take_flatten]
      obtain ⟨sys', h', hok, hi'⟩ := hi.step hs htasks henough.1.parsing
      have hrest := ih hi' henough.2
      unfold System.run at hrest ⊢
      rw [List.foldlM_cons, List.foldlM_cons, hstep, hok]
      exact hrest

end Runs

/-- For every executor and every batch of byte strings, those that do not parse make no
    difference exactly if each that is long enough for a header parses, and no executor gets
    more than the new scheduler allows for the transactions that there are. In every run on
    batches like this nothing panics if nothing does without the other byte strings, and the
    run is the same as without them. -/
theorem malformed_skipped (cfg : Settings) (hn : cfg.numExecutors < 2 ^ 32) :
    (∀ (s : Executor) (transactions : List Bytes),
      s.statesSchedulePartition.Owned cfg.numExecutors →
        (Skips cfg s transactions ↔ PayloadsParse s.statesSchedulePartition transactions ∧
          ∀ txs, parseAndScheduleBatchTransactions cfg default s.statesSchedulePartition
            transactions = .ok txs → WithinBound cfg txs)) ∧
    ∀ (partition : Partition) (stores : ℕ → AccountStore) (batches : List Batch),
      Startable cfg partition stores (batches.map Batch.parsing) →
      SelfPaymentsStay cfg partition (batches.map Batch.parsing) →
      (∀ b ∈ batches, PayloadsParse partition b.transactions) →
      Throughout cfg (fun _ txs => WithinBound cfg txs) partition batches →
      ∀ events : List Event, (∀ event ∈ events, event.Enough batches) →
        ∃ sys, System.run cfg batches (System.initial partition stores) events = .ok sys ∧
          System.run cfg (batches.map Batch.parsing) (System.initial partition stores) events =
            .ok sys := by
  refine ⟨fun s transactions howned => skips_iff hn howned, ?_⟩
  intro partition stores batches hstart hstay hpay hbound events henough
  obtain ⟨blocks, hs, hgood⟩ :=
    exists_schedules hstart.owned (fun _ => Iff.rfl) hstart.parses
  have hsettled := hs.settledFrom hgood hstay
  have hi := Course.inv_initial hstart hs hgood hsettled
  obtain ⟨sys, h, hok, -⟩ := Course.run_inv hi hs rfl fun event hmem => (henough event hmem).parsing
  exact ⟨sys, (hi.run_parsing hstart.owned hpay hbound hs rfl henough).trans hok, hok⟩

/-! ### A header without a payload -/

namespace MalformedSample

open AgreementSample

/-- Ten bytes, which are a header. -/
def headerOnly : Bytes := List.replicate 10 0

/-- A payment, and a byte string that is too short for a header. -/
def withShort : List Batch := [⟨[7], [[], payment]⟩]

theorem payloadsParse_withShort : PayloadsParse partition [[], payment] := by
  intro tx htx hlen
  rcases List.mem_pair.mp htx with rfl | rfl
  · simp at hlen
  · exact wellFormed_payment.parses

theorem stays_batches : SelfPaymentsStay settings partition batches := by
  refine SelfPaymentsStay.of_nodup fun b hb tx htx sbTx hparse => ?_
  obtain ⟨sbTx', hparse', -, hdest⟩ := wellFormed_batches b hb tx htx
  rw [hparse] at hparse'
  obtain rfl := Option.some.inj hparse'
  exact nodup_requiredAccounts hdest

end MalformedSample

open AgreementSample SerialSample QueuesSample MalformedSample

/-- The payment alone is scheduled, and the run is that of the payment. -/
theorem malformed_skipped_sample :
    Skips settings (executor 0) [[], payment] ∧
    ∃ sys, System.run settings withShort (System.initial partition stores)
        [.batch 0 default, .batch 1 default, .send 1] = .ok sys ∧
      System.run settings (withShort.map Batch.parsing) (System.initial partition stores)
        [.batch 0 default, .batch 1 default, .send 1] = .ok sys := by
  obtain ⟨hone, hruns⟩ := malformed_skipped settings (by decide)
  refine ⟨(hone (executor 0) [[], payment] owned_partition).mpr
    ⟨payloadsParse_withShort, fun txs _ hnew => by cases hnew⟩,
    hruns partition stores withShort admissible.startable stays_batches ?_ ?_ _ ?_⟩
  · intro b hb
    rw [List.mem_singleton.mp hb]
    exact payloadsParse_withShort
  · exact fun txs _ => ⟨fun hnew => (by cases hnew), trivial⟩
  · simp [Event.Enough]

/-- A byte string that has a header and no payload makes the executor panic. -/
theorem not_malformed_skipped :
    ¬ ∀ (cfg : Settings) (s : Executor) (transactions : List Bytes), cfg.numExecutors < 2 ^ 32 →
        s.statesSchedulePartition.Owned cfg.numExecutors →
        (∀ tx ∈ transactions, parsesFully tx = true → Parses s.statesSchedulePartition tx) →
          Skips cfg s transactions := by
  intro h
  have hnone : parsesFully headerOnly = false := by decide
  obtain ⟨localities, s', hbegin, -⟩ := h settings (executor 0) [headerOnly] (by decide)
    owned_partition (by simp [hnone]) default []
  have hpanic : panicOf ((executor 0).beginBatch settings default [headerOnly]) =
      some .payload := by decide
  rw [hbegin] at hpanic
  cases hpanic

end DagBft.Fusion
