/-
  The tasks of a worker that handle batches: `BatchMaker` (`worker/src/batch_maker.rs`),
  `QuorumWaiter` (`worker/src/quorum_waiter.rs`), the two `Processor`s
  (`worker/src/processor.rs`), `Helper` (`worker/src/helper.rs`) and the handlers of
  `worker/src/worker.rs`, in any order of their steps.

  `bincode` is a parameter. The handler of a batch that was sent to another worker is done when
  that worker replies. When the `Synchronizer` deletes a batch is not modelled here
  (`Worker/Synchronizer`), it may be at any time. Channels are not bounded.

  `pipeline_order`: transactions leave in the order in which they came, no batch is left out if
  other workers hold enough stake, and each one that is passed on was acknowledged by a quorum.
-/
import DagBft.Config
import DagBft.Lib.Prefixed
import DagBft.Lib.Runs
import DagBft.Worker.Processor

namespace DagBft.Worker

variable (PublicKey Digest : Type) [LinearOrder PublicKey]

/-- `bincode`, on messages between workers. What is serialized can be read back, as long as all
    lengths are those of vectors. -/
structure Bincode where
  serialize : List Bytes → Bytes
  deserialize : Bytes → Option WorkerMessage
  batch : ∀ txs : List Bytes, txs.length < 2 ^ 64 → (∀ tx ∈ txs, tx.length < 2 ^ 64) →
    deserialize (serialize txs) = some (.batch txs)

/-- The options of a worker. -/
structure WorkerSettings where
  name : PublicKey
  id : ℕ
  committee : Committee PublicKey
  batchSize : ℕ
  baselineMode : Bool
  bincode : Bincode
  usize : batchSize < 2 ^ 64

/-- What a `Processor` tells the primary. -/
inductive WorkerPrimaryMessage
  | ourBatch (digest : Digest) (worker : ℕ) (counts : OrdMap ℕ ℕ) (queueDelayMs : ℕ)
  | othersBatch (digest : Digest) (worker : ℕ) (counts : OrdMap ℕ ℕ)

/-- The variables of an iteration of the loop of the `QuorumWaiter`. -/
structure Gathering where
  /-- Which of the sealed batches it is. -/
  number : ℕ
  batch : Bytes
  /-- The authorities whose handlers are not counted yet. -/
  waitForQuorum : List PublicKey
  totalStake : ℕ

structure Pipeline where
  currentBatch : List Bytes
  currentBatchSize : ℕ
  /-- From the `BatchMaker` to the `QuorumWaiter`: all batches so far. -/
  sealed : List Bytes
  /-- The handlers that are done, with the number of the batch. -/
  done : List (ℕ × PublicKey)
  taken : ℕ
  gathering : Option (Gathering PublicKey)
  /-- From the `QuorumWaiter` to the `Processor` of our batches, with their numbers. -/
  forwarded : List (ℕ × Bytes)
  ownProcessed : ℕ
  /-- The messages of other workers, all of which are acknowledged. -/
  received : List Bytes
  othersProcessed : ℕ
  store : Digest → Option Bytes
  /-- The batches that the `Synchronizer` has deleted. -/
  deleted : List Digest
  /-- To the primary. -/
  reports : List (WorkerPrimaryMessage Digest)
  /-- The replies of the `Helper`. -/
  helped : List (PublicKey × Bytes)

inductive PipelineEvent
  /-- A transaction of a client. -/
  | transaction (tx : Bytes)
  | batchTimer
  /-- A worker has replied to a batch. -/
  | acknowledged (number : ℕ) (name : PublicKey)
  /-- The `QuorumWaiter` takes the next batch. -/
  | takeBatch
  /-- It counts the stake of an authority. -/
  | count (name : PublicKey)
  /-- There are no more handlers to wait for. -/
  | exhausted
  | processOwn (queueDelayMs : ℕ)
  /-- A message of another worker. -/
  | message (serialized : Bytes)
  | processOthers
  /-- The `Helper` takes a request. -/
  | request (digests : List Digest) (origin : PublicKey)
  /-- The `Synchronizer` deletes a batch. -/
  | delete (digest : Digest)

variable {PublicKey Digest}

namespace WorkerSettings

variable (cfg : WorkerSettings PublicKey)

/-- `others_workers`: who has a worker of this id. -/
def others : List PublicKey :=
  cfg.committee.keys.filter fun name => name ≠ cfg.name ∧ cfg.committee.hasWorker name cfg.id

/-- The messages that are passed on to the `Processor`. -/
def isBatch (serialized : Bytes) : Bool :=
  match cfg.bincode.deserialize serialized with
  | some (.batch _) => true
  | _ => false

end WorkerSettings

namespace Pipeline

def initial : Pipeline PublicKey Digest where
  currentBatch := []
  currentBatchSize := 0
  sealed := []
  done := []
  taken := 0
  gathering := none
  forwarded := []
  ownProcessed := 0
  received := []
  othersProcessed := 0
  store _ := none
  deleted := []
  reports := []
  helped := []

variable (cfg : WorkerSettings PublicKey) (s : Pipeline PublicKey Digest)

/-- Seal and broadcast the current batch. -/
def sealBatch : Pipeline PublicKey Digest :=
  { s with
    currentBatch := []
    currentBatchSize := 0
    sealed := s.sealed ++ [cfg.bincode.serialize s.currentBatch] }

/-- Assemble client transactions into batches of preset size. -/
def push (tx : Bytes) : Pipeline PublicKey Digest :=
  let s := { s with
    currentBatchSize := s.currentBatchSize + tx.length
    currentBatch := s.currentBatch ++ [tx] }
  if cfg.batchSize ≤ s.currentBatchSize then s.sealBatch cfg else s

/-- `wait_for_quorum.next()` yields the stake of an authority. -/
def countStake (g : Gathering PublicKey) (name : PublicKey) : Pipeline PublicKey Digest :=
  let totalStake := u32 (g.totalStake + cfg.committee.stake name)
  if cfg.committee.quorumThreshold ≤ totalStake then
    { s with gathering := none, forwarded := s.forwarded ++ [(g.number, g.batch)] }
  else
    { s with gathering := some { g with
      waitForQuorum := g.waitForQuorum.erase name
      totalStake := totalStake } }

/-- The batches of other workers that are passed on to the `Processor`. -/
def incoming : List Bytes := s.received.filter cfg.isBatch

/-- A `Processor` stores a batch and delivers its digest. -/
def process [LinearOrder Digest] [Sha512 Digest] (cfg : WorkerSettings PublicKey)
    (s : Pipeline PublicKey Digest) (serialized : Bytes)
    (report : Digest → OrdMap ℕ ℕ → WorkerPrimaryMessage Digest) : Pipeline PublicKey Digest :=
  let digest := Sha512.sha512 serialized
  { s with
    store := Function.update s.store digest (some serialized)
    reports := s.reports ++
      [report digest (accountCounts cfg.baselineMode (cfg.bincode.deserialize serialized))] }

/-- One step of one task, `none` if it cannot be taken. -/
def step [LinearOrder Digest] [Sha512 Digest] (cfg : WorkerSettings PublicKey)
    (s : Pipeline PublicKey Digest) :
    PipelineEvent PublicKey Digest → Option (Pipeline PublicKey Digest)
  | .transaction tx =>
      -- a frame that is too short ends the task of its connection
      if 10 ≤ tx.length ∧ tx.length < 2 ^ 64 then some (s.push cfg tx) else none
  | .batchTimer => some (if s.currentBatch = [] then s else s.sealBatch cfg)
  | .acknowledged number name =>
      if number < s.sealed.length ∧ name ∈ cfg.others then
        some { s with done := s.done ++ [(number, name)] }
      else none
  | .takeBatch =>
      match s.gathering, s.sealed[s.taken]? with
      | none, some batch =>
          some { s with
            taken := s.taken + 1
            gathering := some ⟨s.taken, batch, cfg.others, cfg.committee.stake cfg.name⟩ }
      | _, _ => none
  | .count name =>
      match s.gathering with
      | some g =>
          if name ∈ g.waitForQuorum ∧ (g.number, name) ∈ s.done then
            some (s.countStake cfg g name)
          else none
      | none => none
  | .exhausted =>
      match s.gathering with
      | some g => if g.waitForQuorum = [] then some { s with gathering := none } else none
      | none => none
  | .processOwn queueDelayMs =>
      s.forwarded[s.ownProcessed]?.map fun x =>
        { s with ownProcessed := s.ownProcessed + 1 }.process cfg x.2
          fun digest counts => .ourBatch digest cfg.id counts queueDelayMs
  | .message serialized => some { s with received := s.received ++ [serialized] }
  | .processOthers =>
      (s.incoming cfg)[s.othersProcessed]?.map fun serialized =>
        { s with othersProcessed := s.othersProcessed + 1 }.process cfg serialized
          fun digest counts => .othersBatch digest cfg.id counts
  | .request digests origin =>
      -- an unexpected request is only logged
      if cfg.committee.hasWorker origin cfg.id then
        some { s with
          helped := s.helped ++ (digests.filterMap s.store).map fun data => (origin, data) }
      else some s
  | .delete digest =>
      some { s with
        store := Function.update s.store digest none
        deleted := s.deleted ++ [digest] }

end Pipeline

/-! ## Batches -/

variable {cfg : WorkerSettings PublicKey} {s s' : Pipeline PublicKey Digest}

/-- The bytes of some transactions. -/
def sizeOf (txs : List Bytes) : ℕ := (txs.map List.length).sum

/-- A batch is not empty, and was below the preferred size before its last transaction. -/
structure Packed (cfg : WorkerSettings PublicKey) (batch : List Bytes) : Prop where
  nonempty : batch ≠ []
  size : batch.dropLast ≠ [] → sizeOf batch.dropLast < cfg.batchSize

/-- The transactions that were taken are in the batches and in the current one, in order. -/
structure Assembled (cfg : WorkerSettings PublicKey) (txs : List Bytes)
    (s : Pipeline PublicKey Digest) : Prop where
  batches : ∃ batches : List (List Bytes), s.sealed = batches.map cfg.bincode.serialize ∧
    txs = batches.flatten ++ s.currentBatch ∧ ∀ batch ∈ batches, Packed cfg batch
  size : s.currentBatchSize = sizeOf s.currentBatch
  below : s.currentBatch ≠ [] → s.currentBatchSize < cfg.batchSize
  frames : ∀ tx ∈ txs, 10 ≤ tx.length ∧ tx.length < 2 ^ 64

theorem sizeOf_append (txs txs' : List Bytes) :
    sizeOf (txs ++ txs') = sizeOf txs + sizeOf txs' := by
  unfold sizeOf
  rw [List.map_append, List.sum_append]

theorem sizeOf_dropLast_le (txs : List Bytes) : sizeOf txs.dropLast ≤ sizeOf txs :=
  ((List.dropLast_sublist txs).map List.length).sum_le_sum fun _ _ => Nat.zero_le _

variable {txs : List Bytes}

/-- The current batch is sealed. -/
theorem Assembled.sealBatch (h : Assembled cfg txs s) (hne : s.currentBatch ≠ []) :
    Assembled cfg txs (s.sealBatch cfg) := by
  obtain ⟨batches, hsealed, htxs, hpacked⟩ := h.batches
  refine ⟨⟨batches ++ [s.currentBatch], ?_, ?_, fun batch hb => ?_⟩, rfl, fun h => absurd rfl h,
    h.frames⟩
  · rw [List.map_append, ← hsealed]
    rfl
  · rw [List.flatten_append, List.flatten_singleton, htxs]
    exact (List.append_nil _).symm
  · rcases List.mem_append.mp hb with hb | hb
    · exact hpacked batch hb
    · rw [List.mem_singleton.mp hb]
      have hbelow := h.below hne
      rw [h.size] at hbelow
      exact ⟨hne, fun _ => (sizeOf_dropLast_le _).trans_lt hbelow⟩

theorem Assembled.push (h : Assembled cfg txs s) {tx : Bytes}
    (htx : 10 ≤ tx.length ∧ tx.length < 2 ^ 64) :
    Assembled cfg (txs ++ [tx]) (s.push cfg tx) := by
  obtain ⟨batches, hsealed, htxs, hpacked⟩ := h.batches
  have hframes : ∀ x ∈ txs ++ [tx], 10 ≤ x.length ∧ x.length < 2 ^ 64 := fun x hx => by
    rcases List.mem_append.mp hx with hx | hx
    · exact h.frames x hx
    · rw [List.mem_singleton.mp hx]
      exact htx
  have hsize : s.currentBatchSize + tx.length = sizeOf (s.currentBatch ++ [tx]) := by
    rw [sizeOf_append, h.size]
    rfl
  have hall : txs ++ [tx] = batches.flatten ++ (s.currentBatch ++ [tx]) := by
    rw [htxs, List.append_assoc]
  unfold Pipeline.push
  dsimp only
  split
  · refine ⟨⟨batches ++ [s.currentBatch ++ [tx]], ?_, ?_, fun batch hb => ?_⟩, rfl,
      fun h => absurd rfl h, hframes⟩
    · rw [List.map_append, ← hsealed]
      rfl
    · rw [List.flatten_append, List.flatten_singleton, hall]
      exact (List.append_nil _).symm
    · rcases List.mem_append.mp hb with hb | hb
      · exact hpacked batch hb
      · rw [List.mem_singleton.mp hb]
        refine ⟨by simp, fun hne => ?_⟩
        rw [List.dropLast_concat] at hne ⊢
        exact h.size ▸ h.below hne
  · rename_i hlt
    exact ⟨⟨batches, hsealed, hall, hpacked⟩, hsize, fun _ => not_le.mp hlt, hframes⟩

/-- The tasks after the `BatchMaker` leave its variables alone. -/
theorem Assembled.frame (h : Assembled cfg txs s) (hsealed : s'.sealed = s.sealed)
    (hbatch : s'.currentBatch = s.currentBatch)
    (hsize : s'.currentBatchSize = s.currentBatchSize) : Assembled cfg txs s' := by
  obtain ⟨hbatches, hs, hb, hf⟩ := h
  exact ⟨by rw [hsealed, hbatch]; exact hbatches, by rw [hsize, hbatch]; exact hs,
    by rw [hsize, hbatch]; exact hb, hf⟩

/-! ## Quorums -/

/-- A quorum of workers has got the batch: ours, and those that replied. -/
def Acknowledged (cfg : WorkerSettings PublicKey) (s : Pipeline PublicKey Digest) (number : ℕ) :
    Prop :=
  ∃ names : Finset PublicKey, (∀ name ∈ names, name ∈ cfg.others ∧ (number, name) ∈ s.done) ∧
    cfg.committee.quorumThreshold ≤ cfg.committee.stakeOf (insert cfg.name names)

/-- The batch that the `QuorumWaiter` waits for: no quorum has been counted so far. -/
structure Gathered (cfg : WorkerSettings PublicKey) (s : Pipeline PublicKey Digest)
    (g : Gathering PublicKey) : Prop where
  number : g.number + 1 = s.taken
  batch : s.sealed[g.number]? = some g.batch
  counted : ∃ counted : List PublicKey, (counted ++ g.waitForQuorum).Perm cfg.others ∧
    (∀ name ∈ counted, (g.number, name) ∈ s.done) ∧
    g.totalStake = cfg.committee.stake cfg.name + (counted.map cfg.committee.stake).sum ∧
    (counted ≠ [] → g.totalStake < cfg.committee.quorumThreshold)

/-- Other workers exist, and all of them together with ours are a quorum. -/
structure Enough (cfg : WorkerSettings PublicKey) : Prop where
  others : cfg.others ≠ []
  quorum : cfg.committee.quorumThreshold ≤
    cfg.committee.stakeOf (insert cfg.name cfg.others.toFinset)

/-- The numbers of the batches that were passed on, and of the one that waits. -/
def Pipeline.numbers (s : Pipeline PublicKey Digest) : List ℕ :=
  s.forwarded.map Prod.fst ++ (s.gathering.map Gathering.number).toList

/-- The `QuorumWaiter` takes the batches one by one. -/
structure Ordered (cfg : WorkerSettings PublicKey) (s : Pipeline PublicKey Digest) : Prop where
  taken_le : s.taken ≤ s.sealed.length
  gathering : ∀ g, s.gathering = some g → Gathered cfg s g
  forwarded : ∀ x ∈ s.forwarded, s.sealed[x.1]? = some x.2 ∧ Acknowledged cfg s x.1
  numbers : s.numbers.Sublist (List.range s.taken)
  complete : Enough cfg → s.numbers = List.range s.taken
  alone : cfg.others = [] → s.forwarded = []

theorem name_notMem_others : cfg.name ∉ cfg.others := by
  simp [WorkerSettings.others]

theorem nodup_others : cfg.others.Nodup := cfg.committee.authorities.nodup_keys.filter _

/-- The stake of different workers, ours among them. -/
theorem stake_add_sum {names : List PublicKey} (hnodup : names.Nodup)
    (hsub : ∀ name ∈ names, name ∈ cfg.others) :
    cfg.committee.stake cfg.name + (names.map cfg.committee.stake).sum =
      cfg.committee.stakeOf (insert cfg.name names.toFinset) := by
  have hnew : cfg.name ∉ names.toFinset := fun h =>
    name_notMem_others (hsub _ (List.mem_toFinset.mp h))
  unfold Committee.stakeOf
  rw [Finset.sum_insert hnew, List.sum_toFinset _ hnodup]

theorem Ordered.frame (h : Ordered cfg s) (hsealed : s.sealed <+: s'.sealed)
    (hdone : s.done ⊆ s'.done) (htaken : s'.taken = s.taken)
    (hgathering : s'.gathering = s.gathering) (hforwarded : s'.forwarded = s.forwarded) :
    Ordered cfg s' := by
  have hget : ∀ {k : ℕ} {b : Bytes}, s.sealed[k]? = some b → s'.sealed[k]? = some b := by
    intro k b hk
    obtain ⟨more, hmore⟩ := hsealed
    rw [← hmore, List.getElem?_append_left (List.getElem?_eq_some_iff.mp hk).1, hk]
  have hnumbers : s'.numbers = s.numbers := by
    unfold Pipeline.numbers
    rw [hgathering, hforwarded]
  refine ⟨?_, fun g hg => ?_, fun x hx => ?_, ?_, ?_, ?_⟩
  · rw [htaken]
    exact h.taken_le.trans hsealed.length_le
  · obtain ⟨hnumber, hbatch, counted, hperm, hin, htotal⟩ := h.gathering g (hgathering ▸ hg)
    exact ⟨htaken ▸ hnumber, hget hbatch, counted, hperm, fun n hn => hdone (hin n hn), htotal⟩
  · obtain ⟨hbatch, names, hnames, hquorum⟩ := h.forwarded x (hforwarded ▸ hx)
    exact ⟨hget hbatch, names, fun n hn => (hnames n hn).imp_right fun hd => hdone hd, hquorum⟩
  · rw [hnumbers, htaken]
    exact h.numbers
  · rw [hnumbers, htaken]
    exact h.complete
  · rw [hforwarded]
    exact h.alone

/-- The `QuorumWaiter` takes a batch. -/
theorem Ordered.takeBatch (h : Ordered cfg s) {batch : Bytes} (hnone : s.gathering = none)
    (hbatch : s.sealed[s.taken]? = some batch) :
    Ordered cfg { s with
      taken := s.taken + 1
      gathering := some ⟨s.taken, batch, cfg.others, cfg.committee.stake cfg.name⟩ } := by
  have hbefore : s.numbers = s.forwarded.map Prod.fst := by
    unfold Pipeline.numbers
    rw [hnone]
    exact List.append_nil _
  refine ⟨(List.getElem?_eq_some_iff.mp hbatch).1, fun g hg => ?_, h.forwarded, ?_, fun he => ?_,
    h.alone⟩
  · obtain rfl := Option.some.inj hg
    exact ⟨rfl, hbatch, [], List.Perm.refl _, by simp, rfl, fun hne => absurd rfl hne⟩
  · rw [List.range_succ]
    exact (hbefore ▸ h.numbers).append (List.Sublist.refl _)
  · rw [List.range_succ]
    exact congrArg (· ++ [s.taken]) (hbefore ▸ h.complete he)

/-- It counts the stake of an authority that has replied. -/
theorem Ordered.countStake (htotal : cfg.committee.total < 2 ^ 32) (h : Ordered cfg s)
    {g : Gathering PublicKey} {name : PublicKey} (hg : s.gathering = some g)
    (hname : name ∈ g.waitForQuorum) (hdone : (g.number, name) ∈ s.done) :
    Ordered cfg (s.countStake cfg g name) := by
  obtain ⟨hnumber, hbatch, counted, hperm, hin, hstake, -⟩ := h.gathering g hg
  have hnumbers : s.numbers = s.forwarded.map Prod.fst ++ [g.number] := by
    unfold Pipeline.numbers
    rw [hg]
    rfl
  have hperm' : (counted ++ [name] ++ g.waitForQuorum.erase name).Perm cfg.others := by
    rw [List.append_assoc]
    exact ((List.perm_cons_erase hname).symm.append_left counted).trans hperm
  have hsub : ∀ n ∈ counted ++ [name], n ∈ cfg.others := fun n hn =>
    hperm'.subset (List.mem_append_left _ hn)
  have hnodup : (counted ++ [name]).Nodup :=
    (List.nodup_append.mp (hperm'.nodup_iff.mpr nodup_others)).1
  have hin' : ∀ n ∈ counted ++ [name], (g.number, n) ∈ s.done := fun n hn => by
    rcases List.mem_append.mp hn with hn | hn
    · exact hin n hn
    · rw [List.mem_singleton.mp hn]
      exact hdone
  have hsum : g.totalStake + cfg.committee.stake name =
      cfg.committee.stake cfg.name + ((counted ++ [name]).map cfg.committee.stake).sum := by
    rw [hstake, List.map_append, List.sum_append, Nat.add_assoc]
    rfl
  have hu32 : u32 (g.totalStake + cfg.committee.stake name) =
      g.totalStake + cfg.committee.stake name := by
    rw [hsum, stake_add_sum hnodup hsub]
    exact u32_eq ((cfg.committee.stakeOf_le_total _).trans_lt htotal)
  unfold Pipeline.countStake
  dsimp only
  rw [hu32]
  split
  · rename_i hquorum
    refine ⟨h.taken_le, fun g' hg' => (by cases hg'), fun x hx => ?_, ?_, fun he => ?_,
      fun hnone => ?_⟩
    · rcases List.mem_append.mp hx with hx | hx
      · exact h.forwarded x hx
      · rw [List.mem_singleton.mp hx]
        refine ⟨hbatch, (counted ++ [name]).toFinset, fun n hn => ?_, ?_⟩
        · have hn := List.mem_toFinset.mp hn
          exact ⟨hsub n hn, hin' n hn⟩
        · rw [← stake_add_sum hnodup hsub, ← hsum]
          exact hquorum
    · have key := h.numbers
      rw [hnumbers] at key
      unfold Pipeline.numbers
      rw [List.map_append]
      exact (List.append_nil _).symm ▸ key
    · have key := h.complete he
      rw [hnumbers] at key
      unfold Pipeline.numbers
      rw [List.map_append]
      exact (List.append_nil _).trans key
    · exact absurd (hnone ▸ hsub name (by simp)) List.not_mem_nil
  · rename_i hlow
    have hsublist := h.numbers
    rw [hnumbers] at hsublist
    refine ⟨h.taken_le, fun g' hg' => ?_, h.forwarded, hsublist,
      fun he => hnumbers.symm.trans (h.complete he), h.alone⟩
    obtain rfl := Option.some.inj hg'
    exact ⟨hnumber, hbatch, counted ++ [name], hperm', hin', hsum, fun _ => not_le.mp hlow⟩

/-- It gives a batch up when all have replied and are not enough. -/
theorem Ordered.exhausted (h : Ordered cfg s) {g : Gathering PublicKey}
    (hg : s.gathering = some g) (hnone : g.waitForQuorum = []) :
    Ordered cfg { s with gathering := none } := by
  obtain ⟨-, -, counted, hperm, -, hstake, hlow⟩ := h.gathering g hg
  refine ⟨h.taken_le, fun g' hg' => (by cases hg'), h.forwarded, ?_, fun he => ?_, h.alone⟩
  · refine (List.Sublist.trans ?_ h.numbers)
    unfold Pipeline.numbers
    exact (List.Sublist.refl _).append (List.nil_sublist _)
  · -- all the others are counted
    rw [hnone, List.append_nil] at hperm
    have hne : counted ≠ [] := fun hnil => he.others (List.nil_perm.mp (hnil ▸ hperm))
    have hlt := hlow hne
    rw [hstake, stake_add_sum (hperm.nodup_iff.mpr nodup_others) fun n hn => hperm.subset hn,
      List.toFinset_eq_of_perm _ _ hperm] at hlt
    exact absurd he.quorum (not_le.mpr hlt)

/-! ## What is stored and reported -/

/-- A batch of ours that is reported: all but the delay in the queue. -/
def WorkerPrimaryMessage.ours : WorkerPrimaryMessage Digest → Option (Digest × ℕ × OrdMap ℕ ℕ)
  | .ourBatch digest worker counts _ => some (digest, worker, counts)
  | .othersBatch .. => none

def WorkerPrimaryMessage.others : WorkerPrimaryMessage Digest → Option (Digest × ℕ × OrdMap ℕ ℕ)
  | .othersBatch digest worker counts => some (digest, worker, counts)
  | .ourBatch .. => none

variable [LinearOrder Digest] [Sha512 Digest]

variable (Digest) in
/-- What is reported of a batch. -/
def reportOf (cfg : WorkerSettings PublicKey) (serialized : Bytes) : Digest × ℕ × OrdMap ℕ ℕ :=
  (Sha512.sha512 serialized, cfg.id,
    accountCounts cfg.baselineMode (cfg.bincode.deserialize serialized))

/-- The batches that a `Processor` has handled are reported in order, and stored under their
    digests. -/
structure Processed (cfg : WorkerSettings PublicKey) (s : Pipeline PublicKey Digest) : Prop where
  own_le : s.ownProcessed ≤ s.forwarded.length
  others_le : s.othersProcessed ≤ (s.incoming cfg).length
  own : s.reports.filterMap WorkerPrimaryMessage.ours =
    (s.forwarded.take s.ownProcessed).map fun x => reportOf Digest cfg x.2
  others : s.reports.filterMap WorkerPrimaryMessage.others =
    ((s.incoming cfg).take s.othersProcessed).map (reportOf Digest cfg)
  integrity : ∀ digest data, s.store digest = some data → Sha512.sha512 data = digest
  kept : ∀ report ∈ s.reports.filterMap WorkerPrimaryMessage.ours ++
      s.reports.filterMap WorkerPrimaryMessage.others,
    (s.store report.1).isSome = true ∨ report.1 ∈ s.deleted

omit [LinearOrder Digest] in
/-- The tasks before the `Processor`s only add to the channels. -/
theorem Processed.frame (h : Processed cfg s) (hforwarded : s.forwarded <+: s'.forwarded)
    (hreceived : s.received <+: s'.received) (hown : s'.ownProcessed = s.ownProcessed)
    (hothers : s'.othersProcessed = s.othersProcessed) (hstore : s'.store = s.store)
    (hdeleted : s'.deleted = s.deleted) (hreports : s'.reports = s.reports) :
    Processed cfg s' := by
  have hincoming : s.incoming cfg <+: s'.incoming cfg := hreceived.filter _
  obtain ⟨hownle, hothersle, hours, hother, hintegrity, hkept⟩ := h
  refine ⟨?_, ?_, ?_, ?_, hstore ▸ hintegrity, ?_⟩
  · rw [hown]
    exact hownle.trans hforwarded.length_le
  · rw [hothers]
    exact hothersle.trans hincoming.length_le
  · obtain ⟨more, hmore⟩ := hforwarded
    rw [hreports, hown, ← hmore, List.take_append_of_le_length hownle, hours]
  · obtain ⟨more, hmore⟩ := hincoming
    rw [hreports, hothers, ← hmore, List.take_append_of_le_length hothersle, hother]
  · rw [hreports, hstore, hdeleted]
    exact hkept

/-- A batch is stored. -/
theorem integrity_write {store : Digest → Option Bytes} {serialized : Bytes}
    (h : ∀ digest data, store digest = some data → Sha512.sha512 data = digest) :
    ∀ digest data, Function.update store (Sha512.sha512 serialized) (some serialized) digest =
      some data → Sha512.sha512 data = digest := by
  intro digest data hd
  by_cases he : digest = Sha512.sha512 serialized
  · subst he
    rw [Function.update_self] at hd
    rw [Option.some.inj hd]
  · rw [Function.update_of_ne he] at hd
    exact h digest data hd

theorem isSome_write {store : Digest → Option Bytes} {serialized : Bytes} {digest : Digest}
    (h : (store digest).isSome = true ∨ digest = Sha512.sha512 serialized) :
    (Function.update store (Sha512.sha512 serialized) (some serialized) digest).isSome = true := by
  by_cases he : digest = Sha512.sha512 serialized
  · subst he
    rw [Function.update_self]
    rfl
  · rw [Function.update_of_ne he]
    exact h.resolve_right he

theorem Processed.processOwn (h : Processed cfg s) {x : ℕ × Bytes}
    (hx : s.forwarded[s.ownProcessed]? = some x) (queueDelayMs : ℕ) :
    Processed cfg ({ s with ownProcessed := s.ownProcessed + 1 }.process cfg x.2
      fun digest counts => .ourBatch digest cfg.id counts queueDelayMs) := by
  obtain ⟨-, hothersle, hours, hother, hintegrity, hkept⟩ := h
  let report : WorkerPrimaryMessage Digest := .ourBatch (Sha512.sha512 x.2) cfg.id
    (accountCounts cfg.baselineMode (cfg.bincode.deserialize x.2)) queueDelayMs
  have hours' : (s.reports ++ [report]).filterMap WorkerPrimaryMessage.ours =
      s.reports.filterMap WorkerPrimaryMessage.ours ++ [reportOf Digest cfg x.2] :=
    List.filterMap_append
  have hother' : (s.reports ++ [report]).filterMap WorkerPrimaryMessage.others =
      s.reports.filterMap WorkerPrimaryMessage.others :=
    List.filterMap_append.trans (List.append_nil _)
  refine ⟨(List.getElem?_eq_some_iff.mp hx).1, hothersle, ?_, hother'.trans hother,
    integrity_write hintegrity, fun x' hx' => ?_⟩
  · change List.filterMap _ _ = ((s.forwarded.take (s.ownProcessed + 1)).map _)
    rw [List.take_add_one, hx, Option.toList_some, List.map_append, ← hours]
    exact hours'
  · change x' ∈ (s.reports ++ [report]).filterMap _ ++ (s.reports ++ [report]).filterMap _ at hx'
    rw [hours', hother', List.append_assoc] at hx'
    have hcases : x' = reportOf Digest cfg x.2 ∨
        x' ∈ s.reports.filterMap WorkerPrimaryMessage.ours ++
          s.reports.filterMap WorkerPrimaryMessage.others := by
      simp only [List.mem_append, List.mem_singleton] at hx' ⊢
      tauto
    rcases hcases with rfl | hold
    · exact Or.inl (isSome_write (Or.inr rfl))
    · exact (hkept x' hold).imp_left fun hsome => isSome_write (Or.inl hsome)

theorem Processed.processOthers (h : Processed cfg s) {serialized : Bytes}
    (hx : (s.incoming cfg)[s.othersProcessed]? = some serialized) :
    Processed cfg ({ s with othersProcessed := s.othersProcessed + 1 }.process cfg serialized
      fun digest counts => .othersBatch digest cfg.id counts) := by
  obtain ⟨hownle, -, hours, hother, hintegrity, hkept⟩ := h
  let report : WorkerPrimaryMessage Digest := .othersBatch (Sha512.sha512 serialized) cfg.id
    (accountCounts cfg.baselineMode (cfg.bincode.deserialize serialized))
  have hours' : (s.reports ++ [report]).filterMap WorkerPrimaryMessage.ours =
      s.reports.filterMap WorkerPrimaryMessage.ours :=
    List.filterMap_append.trans (List.append_nil _)
  have hother' : (s.reports ++ [report]).filterMap WorkerPrimaryMessage.others =
      s.reports.filterMap WorkerPrimaryMessage.others ++ [reportOf Digest cfg serialized] :=
    List.filterMap_append
  refine ⟨hownle, (List.getElem?_eq_some_iff.mp hx).1, hours'.trans hours, ?_,
    integrity_write hintegrity, fun x' hx' => ?_⟩
  · change List.filterMap _ _ = (((s.incoming cfg).take (s.othersProcessed + 1)).map _)
    rw [List.take_add_one, hx, Option.toList_some, List.map_append, ← hother]
    exact hother'
  · change x' ∈ (s.reports ++ [report]).filterMap _ ++ (s.reports ++ [report]).filterMap _ at hx'
    rw [hours', hother', ← List.append_assoc] at hx'
    rcases List.mem_append.mp hx' with hold | hnew
    · exact (hkept x' hold).imp_left fun hsome => isSome_write (Or.inl hsome)
    · rw [List.mem_singleton.mp hnew]
      exact Or.inl (isSome_write (Or.inr rfl))

theorem Processed.delete (h : Processed cfg s) (digest : Digest) :
    Processed cfg { s with
      store := Function.update s.store digest none
      deleted := s.deleted ++ [digest] } := by
  obtain ⟨hownle, hothersle, hours, hother, hintegrity, hkept⟩ := h
  refine ⟨hownle, hothersle, hours, hother, fun d data hd => ?_, fun report hreport => ?_⟩
  · by_cases he : d = digest
    · subst he
      cases (Function.update_self d none s.store).symm.trans hd
    · exact hintegrity d data ((Function.update_of_ne he none s.store).symm.trans hd)
  · by_cases he : report.1 = digest
    · exact Or.inr (List.mem_append_right _ (List.mem_singleton.mpr he))
    · rcases hkept report hreport with hsome | hdeleted
      · refine Or.inl ?_
        change (Function.update s.store digest none report.1).isSome = true
        rwa [Function.update_of_ne he]
      · exact Or.inr (List.mem_append_left _ hdeleted)

/-! ## Runs -/

/-- The transaction that an event brings. -/
def PipelineEvent.taken : PipelineEvent PublicKey Digest → Option Bytes
  | .transaction tx => some tx
  | _ => none

/-- The invariant, for the transactions that were taken. -/
structure PipelineInv (cfg : WorkerSettings PublicKey) (txs : List Bytes)
    (s : Pipeline PublicKey Digest) : Prop where
  assembled : Assembled cfg txs s
  ordered : Ordered cfg s
  processed : Processed cfg s

omit [LinearOrder Digest] in
theorem pipelineInv_initial :
    PipelineInv cfg [] (Pipeline.initial : Pipeline PublicKey Digest) where
  assembled := ⟨⟨[], rfl, rfl, by simp⟩, rfl, fun h => absurd rfl h, by simp⟩
  ordered := ⟨le_rfl, fun g hg => (by cases hg), by simp [Pipeline.initial], List.Sublist.refl _,
    fun _ => rfl, fun _ => rfl⟩
  processed := ⟨le_rfl, le_rfl, rfl, rfl, fun digest data hd => (by cases hd),
    fun report hr => absurd hr List.not_mem_nil⟩

omit [LinearOrder Digest] in
theorem PipelineInv.push (h : PipelineInv cfg txs s) {tx : Bytes}
    (htx : 10 ≤ tx.length ∧ tx.length < 2 ^ 64) :
    PipelineInv cfg (txs ++ [tx]) (s.push cfg tx) := by
  refine ⟨h.assembled.push htx, h.ordered.frame ?_ ?_ ?_ ?_ ?_,
    h.processed.frame ?_ ?_ ?_ ?_ ?_ ?_ ?_⟩
  all_goals
    unfold Pipeline.push
    dsimp only
    split
  all_goals first | exact List.prefix_append _ _ | exact List.prefix_rfl | rfl |
    exact List.Subset.refl _

/-- The steps that take no transaction. -/
theorem PipelineInv.stepOther (htotal : cfg.committee.total < 2 ^ 32) (h : PipelineInv cfg txs s)
    {e : PipelineEvent PublicKey Digest} (he : e.taken = none) (hstep : s.step cfg e = some s') :
    PipelineInv cfg txs s' := by
  obtain ⟨ha, ho, hp⟩ := h
  cases e with
  | transaction tx => cases he
  | batchTimer =>
      obtain rfl := Option.some.inj hstep
      split
      · exact ⟨ha, ho, hp⟩
      · rename_i hne
        exact ⟨ha.sealBatch hne, ho.frame (List.prefix_append _ _) (List.Subset.refl _) rfl rfl rfl,
          hp.frame List.prefix_rfl List.prefix_rfl rfl rfl rfl rfl rfl⟩
  | acknowledged number name =>
      simp only [Pipeline.step] at hstep
      split at hstep
      · obtain rfl := Option.some.inj hstep
        exact ⟨ha.frame rfl rfl rfl,
          ho.frame List.prefix_rfl (List.subset_append_left _ _) rfl rfl rfl,
          hp.frame List.prefix_rfl List.prefix_rfl rfl rfl rfl rfl rfl⟩
      · cases hstep
  | takeBatch =>
      simp only [Pipeline.step] at hstep
      split at hstep
      · rename_i batch hnone hbatch
        obtain rfl := Option.some.inj hstep
        exact ⟨ha.frame rfl rfl rfl, ho.takeBatch hnone hbatch,
          hp.frame List.prefix_rfl List.prefix_rfl rfl rfl rfl rfl rfl⟩
      · cases hstep
  | count name =>
      simp only [Pipeline.step] at hstep
      split at hstep
      · rename_i g hg
        split at hstep
        · rename_i hcount
          obtain rfl := Option.some.inj hstep
          refine ⟨ha.frame ?_ ?_ ?_, ho.countStake htotal hg hcount.1 hcount.2,
            hp.frame ?_ ?_ ?_ ?_ ?_ ?_ ?_⟩
          all_goals
            unfold Pipeline.countStake
            dsimp only
            split
          all_goals first | rfl | exact List.prefix_append _ _
        · cases hstep
      · cases hstep
  | exhausted =>
      simp only [Pipeline.step] at hstep
      split at hstep
      · rename_i g hg
        split at hstep
        · rename_i hnone
          obtain rfl := Option.some.inj hstep
          exact ⟨ha.frame rfl rfl rfl, ho.exhausted hg hnone,
            hp.frame List.prefix_rfl List.prefix_rfl rfl rfl rfl rfl rfl⟩
        · cases hstep
      · cases hstep
  | processOwn queueDelayMs =>
      obtain ⟨x, hx, rfl⟩ := Option.map_eq_some_iff.mp hstep
      exact ⟨ha.frame rfl rfl rfl, ho.frame List.prefix_rfl (List.Subset.refl _) rfl rfl rfl,
        hp.processOwn hx queueDelayMs⟩
  | message serialized =>
      obtain rfl := Option.some.inj hstep
      exact ⟨ha.frame rfl rfl rfl, ho.frame List.prefix_rfl (List.Subset.refl _) rfl rfl rfl,
        hp.frame List.prefix_rfl (List.prefix_append _ _) rfl rfl rfl rfl rfl⟩
  | processOthers =>
      obtain ⟨x, hx, rfl⟩ := Option.map_eq_some_iff.mp hstep
      exact ⟨ha.frame rfl rfl rfl, ho.frame List.prefix_rfl (List.Subset.refl _) rfl rfl rfl,
        hp.processOthers hx⟩
  | request digests origin =>
      simp only [Pipeline.step] at hstep
      split at hstep
      · obtain rfl := Option.some.inj hstep
        exact ⟨ha.frame rfl rfl rfl, ho.frame List.prefix_rfl (List.Subset.refl _) rfl rfl rfl,
          hp.frame List.prefix_rfl List.prefix_rfl rfl rfl rfl rfl rfl⟩
      · exact Option.some.inj hstep ▸ ⟨ha, ho, hp⟩
  | delete digest =>
      obtain rfl := Option.some.inj hstep
      exact ⟨ha.frame rfl rfl rfl, ho.frame List.prefix_rfl (List.Subset.refl _) rfl rfl rfl,
        hp.delete digest⟩

theorem PipelineInv.step (htotal : cfg.committee.total < 2 ^ 32) (h : PipelineInv cfg txs s)
    {e : PipelineEvent PublicKey Digest} (hstep : s.step cfg e = some s') :
    PipelineInv cfg (txs ++ e.taken.toList) s' := by
  cases he : e.taken with
  | none =>
      rw [Option.toList_none, List.append_nil]
      exact h.stepOther htotal he hstep
  | some tx =>
      obtain rfl : e = .transaction tx := by
        cases e <;> simp_all [PipelineEvent.taken]
      simp only [Pipeline.step] at hstep
      split at hstep
      · exact Option.some.inj hstep ▸ h.push ‹_›
      · cases hstep

theorem pipelineInv_of_run (htotal : cfg.committee.total < 2 ^ 32)
    {events : List (PipelineEvent PublicKey Digest)}
    (hrun : exec (Pipeline.step cfg) Pipeline.initial events = some s) :
    PipelineInv cfg (events.filterMap PipelineEvent.taken) s := by
  refine exec_invariant (I := fun events s => PipelineInv cfg (events.filterMap _) s)
    pipelineInv_initial (fun events s₁ e s₂ h hstep => ?_) hrun
  rw [List.filterMap_append]
  have hlast : [e].filterMap PipelineEvent.taken = e.taken.toList := by
    cases he : e.taken <;> simp [he]
  rw [hlast]
  exact h.step htotal hstep

/-- Elements that come with their numbers, when these count up. -/
theorem snd_eq_take {α : Type} {l : List (ℕ × α)} {xs : List α} {n : ℕ}
    (hnumbers : l.map Prod.fst = List.range n) (hn : n ≤ xs.length)
    (hget : ∀ x ∈ l, xs[x.1]? = some x.2) : l.map Prod.snd = xs.take n := by
  have hlen : l.length = n := by simpa using congrArg List.length hnumbers
  refine List.ext_getElem (by simp [hlen, hn]) fun i hi _ => ?_
  have hil : i < l.length := by simpa using hi
  have hfst : l[i].1 = i := by
    have key := List.getElem_of_eq hnumbers (i := i) (by simpa using hil)
    simpa using key
  obtain ⟨hlt, hsnd⟩ := List.getElem?_eq_some_iff.mp (hget l[i] (List.getElem_mem hil))
  rw [List.getElem_map, List.getElem_take, ← hsnd]
  exact getElem_congr_idx hfst

/-- The way of the transactions of clients: they fall into the sealed batches and the current
    one, in the order in which they were taken, and a batch is as small as the preferred size
    allows. The batches that are passed on are acknowledged by a quorum and come in that order,
    and if other workers hold enough stake then none is left out. Their digests are reported
    in that order too. If nobody else has a worker then no batch is ever passed on. -/
theorem pipeline_order (cfg : WorkerSettings PublicKey) (htotal : cfg.committee.total < 2 ^ 32)
    (events : List (PipelineEvent PublicKey Digest)) (s : Pipeline PublicKey Digest)
    (hrun : exec (Pipeline.step cfg) Pipeline.initial events = some s) :
    (∃ batches : List (List Bytes), s.sealed = batches.map cfg.bincode.serialize ∧
      events.filterMap PipelineEvent.taken = batches.flatten ++ s.currentBatch ∧
      ∀ batch ∈ batches, Packed cfg batch) ∧
    (∀ x ∈ s.forwarded, s.sealed[x.1]? = some x.2 ∧ Acknowledged cfg s x.1) ∧
    (s.forwarded.map Prod.fst).Pairwise (· < ·) ∧
    (Enough cfg → s.forwarded.map Prod.snd ++ (s.gathering.map Gathering.batch).toList =
      s.sealed.take s.taken) ∧
    (cfg.others = [] → s.forwarded = []) ∧
    s.reports.filterMap WorkerPrimaryMessage.ours =
      (s.forwarded.take s.ownProcessed).map fun x => reportOf Digest cfg x.2 := by
  obtain ⟨ha, ho, hp⟩ := pipelineInv_of_run htotal hrun
  refine ⟨ha.batches, ho.forwarded, ?_, fun he => ?_, ho.alone, hp.own⟩
  · have hsub := (List.sublist_append_left _ _).trans ho.numbers
    exact List.pairwise_lt_range.sublist hsub
  · have key := snd_eq_take
      (l := s.forwarded ++ (s.gathering.map fun g => (g.number, g.batch)).toList) ?_ ho.taken_le
      fun x hx => ?_
    · rw [List.map_append] at key
      cases hg : s.gathering <;> simpa [hg] using key
    · rw [← ho.complete he, Pipeline.numbers, List.map_append]
      cases s.gathering <;> rfl
    · rcases List.mem_append.mp hx with hx | hx
      · exact (ho.forwarded x hx).1
      · obtain ⟨g, hg, rfl⟩ := Option.map_eq_some_iff.mp (Option.mem_toList.mp hx)
        exact (ho.gathering g hg).batch

/-! ## A batch of two transactions

Four authorities with one vote each. The first batch gets two replies, which with ours are a
quorum; the second is not sealed yet. -/

section Sample

open Toy

namespace PipelineSample

/-- Batches as they are serialized: the number of the variant, and the transactions. -/
def bincode : Bincode where
  serialize txs := leBytes 4 0 ++ Prefixed.encode txs
  deserialize b := (Prefixed.decode (b.drop 4)).map .batch
  batch txs hlen htxs := by
    have key := Prefixed.decode_encode hlen htxs []
    rw [List.append_nil] at key
    rw [List.drop_left' (length_leBytes 4 0), key]
    rfl

def committee : Committee ℕ :=
  ⟨⟨[(0, ⟨1, [0]⟩), (1, ⟨1, [0]⟩), (2, ⟨1, [0]⟩), (3, ⟨1, [0]⟩)], Committee.sorted_four⟩⟩

theorem batchSize_lt : 20 < 2 ^ 64 := by norm_num

def settings (name : ℕ) : WorkerSettings ℕ :=
  ⟨name, 0, committee, 20, false, bincode, batchSize_lt⟩

def transaction (k : ℕ) : Bytes := List.replicate k 7

def events : List (PipelineEvent ℕ ℕ) :=
  [.transaction (transaction 10), .transaction (transaction 12), .takeBatch, .acknowledged 0 2,
    .count 2, .acknowledged 0 1, .transaction (transaction 11), .count 1, .processOwn 3]

def final : Pipeline ℕ ℕ :=
  (exec (Pipeline.step (settings 0)) Pipeline.initial events).getD .initial

theorem run_final : exec (Pipeline.step (settings 0)) Pipeline.initial events = some final :=
  eq_some_of_isSome _ (by decide +kernel)

theorem enough : Enough (settings 0) where
  others := by decide +kernel
  quorum := by decide +kernel

end PipelineSample

open PipelineSample

theorem pipeline_order_sample :
    (∃ batches : List (List Bytes), final.sealed = batches.map bincode.serialize ∧
      events.filterMap PipelineEvent.taken = batches.flatten ++ final.currentBatch ∧
      ∀ batch ∈ batches, Packed (settings 0) batch) ∧
    (∀ x ∈ final.forwarded, final.sealed[x.1]? = some x.2 ∧
      Acknowledged (settings 0) final x.1) ∧
    (final.forwarded.map Prod.fst).Pairwise (· < ·) ∧
    final.forwarded.map Prod.snd ++ (final.gathering.map Gathering.batch).toList =
      final.sealed.take final.taken ∧
    final.reports.filterMap WorkerPrimaryMessage.ours =
      (final.forwarded.take final.ownProcessed).map fun x => reportOf ℕ (settings 0) x.2 := by
  obtain ⟨hbatches, hforwarded, hnumbers, hall, -, hreports⟩ :=
    pipeline_order (settings 0) (by decide) events final run_final
  exact ⟨hbatches, hforwarded, hnumbers, hall enough, hreports⟩

end Sample

end DagBft.Worker
