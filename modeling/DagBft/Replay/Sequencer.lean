/-
  Replaying a recorded trace in place of consensus (`executor-replay`). Each worker generates and
  stores the batches that are assigned to it and reports them to the primary
  (`worker/src/replay_batch_generator.rs`). When all are reported the `ReplaySequencer`
  (`primary/src/replay_sequencer.rs`) sends them for execution, in the order of the trace. The
  rest of the way is that of `Node/Dispatch`.

  The workers take their steps in any order, reports may be lost. How the sequencer is paced by
  the recorded timestamps is left out: it may go on at any time.

  `replayed_in_order`: the executors execute what was recorded, in this order.
-/
import DagBft.Node.Dispatch
import DagBft.Replay.BatchGenerator

namespace DagBft.Replay

open Node (Backend Dispatch DispatchEvent PrimaryWorkerMessage CollisionFree batchOf)
open Fusion (BufferedBatch BatchExecutor)

/-- The parameters of a replay, what is drawn for the transactions, and the workers that the
    primary finds in the committee. -/
structure ReplaySettings where
  entries : List ReplayEntry
  numWorkers : ℕ
  txSize : ℕ
  drawn : ℕ → ℕ → Drawn
  ourWorkers : List ℕ

/-- An `expect` of the `ReplaySequencer`. -/
inductive SequencerPanic
  | missingDigest
  | workerNotInCommittee
deriving DecidableEq

variable (PublicKey Digest : Type) [LinearOrder Digest]

structure Sequencing where
  /-- How many of its batches each worker has generated. -/
  generated : ℕ → ℕ
  /-- The `ReplayBatchReady` messages on their way: index, digest, worker. -/
  notices : List (ℕ × Digest × ℕ)
  batchDigests : AList fun _ : ℕ => ℕ × Digest
  panic : Option SequencerPanic
  /-- `read` is the next sequence number. -/
  dispatch : Dispatch PublicKey Digest

inductive ReplayEvent
  /-- A worker generates its next batch. -/
  | generate (worker : ℕ)
  | loseNotice (i : ℕ)
  /-- The sequencer, which still collects, receives a report. -/
  | noticeArrives (i : ℕ)
  /-- It sends the next batch for execution. -/
  | execute
  /-- What happens on the way to the executors. -/
  | forward (event : DispatchEvent Digest)

variable {PublicKey Digest}

/-- Besides the sequencer and the generators nothing is sent to workers or stored. -/
def forwards : DispatchEvent Digest → Bool
  | .output | .write _ _ | .delete _ _ => false
  | .loseCommand _ | .commandArrives _ | .read _ | .broadcast _ | .loseBatch _
  | .batchArrives _ => true

namespace Sequencing

variable [AsBytes Digest] [Sha512 Digest]

def initial : Sequencing PublicKey Digest where
  generated _ := 0
  notices := []
  batchDigests := ∅
  panic := none
  dispatch := Dispatch.initial

/-- One step, `none` if it cannot be taken. -/
def step (cfg : ReplaySettings) (v : Backend) (assignments : List ReplayAssignment)
    (s : Sequencing PublicKey Digest) : ReplayEvent Digest → Option (Sequencing PublicKey Digest)
  | .generate worker => do
      let a ← (assignments.filter fun a => a.workerId = worker)[s.generated worker]?
      let txs ← generateBatch cfg.txSize cfg.drawn a
      let serialized := v.bincode.serialize txs
      let dispatch ← s.dispatch.step v [] (.write worker serialized)
      some { s with
        generated := Function.update s.generated worker (s.generated worker + 1)
        notices := s.notices ++ [(a.batchIndex, Sha512.sha512 serialized, worker)]
        dispatch := dispatch }
  | .loseNotice i => s.notices[i]?.map fun _ => { s with notices := s.notices.eraseIdx i }
  | .noticeArrives i =>
      if s.batchDigests.entries.length < assignments.length then
        s.notices[i]?.map fun x => { s with
          notices := s.notices.eraseIdx i
          batchDigests := s.batchDigests.insert x.1 (x.2.2, x.2.1) }
      else none
  | .execute =>
      if s.panic.isSome ∨ s.batchDigests.entries.length < assignments.length then none
      else match assignments[s.dispatch.read]? with
        | none => none
        | some a =>
            match s.batchDigests.lookup a.batchIndex with
            | none => some { s with panic := some .missingDigest }
            | some (worker, digest) =>
                if worker ∈ cfg.ourWorkers then
                  some { s with dispatch := { s.dispatch with
                    read := s.dispatch.read + 1
                    toWorkers := s.dispatch.toWorkers ++
                      [(worker, .execute digest worker s.dispatch.read)] } }
                else some { s with panic := some .workerNotInCommittee }
  | .forward event =>
      if forwards event then
        (s.dispatch.step v [] event).map fun dispatch => { s with dispatch := dispatch }
      else none

end Sequencing

/-! ## What is reported -/

section Reported

variable (cfg : ReplaySettings) (v : Backend) (assignments : List ReplayAssignment)

/-- The serialized batch of an assignment. -/
def serializedOf (a : ReplayAssignment) : Option Bytes :=
  (generateBatch cfg.txSize cfg.drawn a).map v.bincode.serialize

/-- What the generators store. -/
def Generated (data : Bytes) : Prop := ∃ a ∈ assignments, serializedOf cfg v a = some data

variable [AsBytes Digest] [Sha512 Digest]

/-- What the sequencer sends, if every batch is generated. -/
def executesOf : List (List (ℕ × PrimaryWorkerMessage PublicKey Digest)) :=
  assignments.map fun a => [(a.workerId,
    .execute (Sha512.sha512 ((serializedOf cfg v a).getD [])) a.workerId a.batchIndex)]

/-- A report is of an assigned batch that its worker has stored. -/
def Reported (s : Sequencing PublicKey Digest) (index : ℕ) (digest : Digest) (worker : ℕ) :
    Prop :=
  ∃ a ∈ assignments, a.batchIndex = index ∧ a.workerId = worker ∧ ∃ data,
    serializedOf cfg v a = some data ∧ digest = Sha512.sha512 data ∧
      s.dispatch.store worker digest = some data

/-- The invariant. -/
structure Sequencing.Inv (lossless : Prop) (s : Sequencing PublicKey Digest) : Prop where
  notices : ∀ x ∈ s.notices, Reported cfg v assignments s x.1 x.2.1 x.2.2
  batchDigests : ∀ i x, s.batchDigests.lookup i = some x →
    Reported cfg v assignments s i x.2 x.1
  panic : s.panic ≠ some .missingDigest
  complete : 0 < s.dispatch.read → assignments.length ≤ s.batchDigests.entries.length
  dispatched : ∃ events, (∀ event ∈ events, event.InPlay (Generated cfg v assignments)) ∧
    (lossless → ∀ event ∈ events, ¬ event.Loses) ∧
    exec (Dispatch.step v (executesOf cfg v assignments)) Dispatch.initial events =
      some s.dispatch

variable {cfg v assignments} {lossless : Prop} {s s' : Sequencing PublicKey Digest}

theorem batchIndex_of_getElem? (h : assignBatchesRoundRobin cfg.entries cfg.numWorkers cfg.txSize =
    some assignments) {k : ℕ} {a : ReplayAssignment} (hk : assignments[k]? = some a) :
    a.batchIndex = k := by
  unfold assignBatchesRoundRobin at h
  split at h
  · cases h
  · obtain rfl := Option.some.inj h
    rw [List.getElem?_map, List.getElem?_zipIdx, Option.map_map, Option.map_eq_some_iff] at hk
    obtain ⟨entry, -, rfl⟩ := hk
    exact Nat.zero_add k

theorem eq_of_batchIndex (h : assignBatchesRoundRobin cfg.entries cfg.numWorkers cfg.txSize =
    some assignments) {a b : ReplayAssignment} (ha : a ∈ assignments) (hb : b ∈ assignments)
    (hab : a.batchIndex = b.batchIndex) : a = b := by
  obtain ⟨i, hi⟩ := List.mem_iff_getElem?.mp ha
  obtain ⟨j, hj⟩ := List.mem_iff_getElem?.mp hb
  rw [batchIndex_of_getElem? h hi, batchIndex_of_getElem? h hj] at hab
  rw [hab, hj] at hi
  exact (Option.some.inj hi).symm

/-- A map with a key for each of `n` numbers, and no other, has all of them. -/
theorem lookup_isSome_of_length {β : Type} {m : AList fun _ : ℕ => β} {n k : ℕ}
    (hkeys : ∀ i ∈ m.keys, i < n) (hlen : n ≤ m.entries.length) (hk : k < n) :
    (m.lookup k).isSome = true := by
  have hsub : m.keys.Subperm (List.range n) :=
    m.keys_nodup.subperm fun i hi => List.mem_range.mpr (hkeys i hi)
  have hlength : m.keys.length = m.entries.length := List.length_map _
  have hperm : m.keys.Perm (List.range n) :=
    hsub.perm_of_length_le (by rw [List.length_range, hlength]; exact hlen)
  exact AList.lookup_isSome.mpr (AList.mem_keys.mp (hperm.mem_iff.mpr (List.mem_range.mpr hk)))

variable (cfg v assignments) in
/-- What is forwarded leaves the storages as they are. -/
theorem forwards_frame {d d' : Dispatch PublicKey Digest} {event : DispatchEvent Digest}
    (hevent : forwards event = true) (h : d.step v [] event = some d') :
    d'.store = d.store ∧ d'.read = d.read ∧ event.InPlay (Generated cfg v assignments) ∧
      ∀ sent, d.step v sent event = some d' := by
  cases event with
  | output => cases hevent
  | write worker data => cases hevent
  | delete worker digest => cases hevent
  | loseCommand i =>
      obtain ⟨x, hx, rfl⟩ := Option.map_eq_some_iff.mp h
      exact ⟨rfl, rfl, trivial, fun _ => h⟩
  | commandArrives i =>
      obtain ⟨⟨worker, message⟩, hx, rfl⟩ := Option.map_eq_some_iff.mp h
      cases message with
      | execute digest target sequence => exact ⟨rfl, rfl, trivial, fun _ => h⟩
      | committedBatches round digests => exact ⟨rfl, rfl, trivial, fun _ => h⟩
      | migrationNotices notices => exact ⟨rfl, rfl, trivial, fun _ => h⟩
  | read worker =>
      have hframe : d'.store = d.store ∧ d'.read = d.read := by
        simp only [Dispatch.step] at h
        split at h
        · cases h
        · split at h
          · cases h
          · split at h
            · cases h
            · exact Option.some.inj h ▸ ⟨rfl, rfl⟩
      exact ⟨hframe.1, hframe.2, trivial, fun _ => h⟩
  | broadcast worker =>
      obtain ⟨x, hx, rfl⟩ := Option.map_eq_some_iff.mp h
      exact ⟨rfl, rfl, trivial, fun _ => h⟩
  | loseBatch i =>
      obtain ⟨x, hx, rfl⟩ := Option.map_eq_some_iff.mp h
      exact ⟨rfl, rfl, trivial, fun _ => h⟩
  | batchArrives i =>
      obtain ⟨x, hx, rfl⟩ := Option.map_eq_some_iff.mp h
      exact ⟨rfl, rfl, trivial, fun _ => h⟩

omit [LinearOrder Digest] [AsBytes Digest] in
/-- Reports stay true while nothing else is stored under a digest. -/
theorem Reported.of_store {index worker : ℕ} {digest : Digest}
    (h : Reported cfg v assignments s index digest worker)
    (hstore : ∀ data, Generated cfg v assignments data →
      s.dispatch.store worker (Sha512.sha512 data) = some data →
        s'.dispatch.store worker (Sha512.sha512 data) = some data) :
    Reported cfg v assignments s' index digest worker := by
  obtain ⟨a, ha, hindex, hworker, data, hdata, rfl, hstored⟩ := h
  exact ⟨a, ha, hindex, hworker, data, hdata, rfl, hstore data ⟨a, ha, hdata⟩ hstored⟩

omit [LinearOrder Digest] [AsBytes Digest] in
/-- The same storages. -/
theorem Reported.of_eq {index worker : ℕ} {digest : Digest}
    (h : Reported cfg v assignments s index digest worker)
    (hstore : s'.dispatch.store = s.dispatch.store) :
    Reported cfg v assignments s' index digest worker :=
  h.of_store fun data _ hd => by rw [hstore]; exact hd

variable (cfg v assignments) in
theorem Sequencing.inv_initial :
    (initial : Sequencing PublicKey Digest).Inv cfg v assignments lossless where
  notices x hx := absurd hx List.not_mem_nil
  batchDigests i x hx := absurd hx (by simp [initial])
  panic := (Option.some_ne_none _).symm
  complete hread := absurd hread (lt_irrefl 0)
  dispatched := ⟨[], fun e he => absurd he List.not_mem_nil,
    fun _ e he => absurd he List.not_mem_nil, rfl⟩

/-- One more step on the way to the executors. -/
theorem Sequencing.Inv.dispatched_step (hi : s.Inv cfg v assignments lossless)
    (event : DispatchEvent Digest) {d : Dispatch PublicKey Digest}
    (hplay : event.InPlay (Generated cfg v assignments)) (hlossless : lossless → ¬ event.Loses)
    (hd : s.dispatch.step v (executesOf cfg v assignments) event = some d) :
    ∃ events, (∀ event ∈ events, event.InPlay (Generated cfg v assignments)) ∧
      (lossless → ∀ event ∈ events, ¬ event.Loses) ∧
      exec (Dispatch.step v (executesOf cfg v assignments)) Dispatch.initial events =
        some d := by
  obtain ⟨events, hevents, hnone, hrun⟩ := hi.dispatched
  refine ⟨events ++ [event], fun e he => ?_, fun hl e he => ?_, exec_snoc hrun hd⟩
  · rcases List.mem_append.mp he with he | he
    · exact hevents e he
    · exact List.mem_singleton.mp he ▸ hplay
  · rcases List.mem_append.mp he with he | he
    · exact hnone hl e he
    · exact List.mem_singleton.mp he ▸ hlossless hl

theorem Sequencing.Inv.generate (hi : s.Inv cfg v assignments lossless)
    (hcollision : CollisionFree Digest (Generated cfg v assignments)) {worker : ℕ}
    (h : s.step cfg v assignments (.generate worker) = some s') :
    s'.Inv cfg v assignments lossless := by
  simp only [step, Option.bind_eq_bind, Option.bind_eq_some_iff] at h
  obtain ⟨a, ha, txs, htxs, d, hd, h⟩ := h
  obtain rfl := Option.some.inj h
  obtain ⟨hmem, hworker⟩ := List.mem_filter.mp (List.mem_of_getElem? ha)
  have hworker : a.workerId = worker := of_decide_eq_true hworker
  have hserialized : serializedOf cfg v a = some (v.bincode.serialize txs) := by
    unfold serializedOf
    rw [htxs]
    rfl
  have hgenerated : Generated cfg v assignments (v.bincode.serialize txs) :=
    ⟨a, hmem, hserialized⟩
  obtain rfl := Option.some.inj hd
  -- the batch may be stored already, but nothing else is stored under its digest
  have hstore : ∀ w data, Generated cfg v assignments data →
      s.dispatch.store w (Sha512.sha512 data) = some data →
      Function.update s.dispatch.store worker (Function.update (s.dispatch.store worker)
        (Sha512.sha512 (v.bincode.serialize txs)) (some (v.bincode.serialize txs))) w
          (Sha512.sha512 data) = some data := by
    intro w data hdata hstored
    by_cases hw : w = worker
    · subst hw
      rw [Function.update_self]
      by_cases hdigest : (Sha512.sha512 data : Digest) = Sha512.sha512 (v.bincode.serialize txs)
      · rw [hdigest, Function.update_self, hcollision _ _ hdata hgenerated hdigest]
      · rw [Function.update_of_ne hdigest]
        exact hstored
    · rw [Function.update_of_ne hw]
      exact hstored
  refine ⟨fun x hx => ?_, fun i x hx => (hi.batchDigests i x hx).of_store (hstore _), hi.panic,
    hi.complete, hi.dispatched_step (.write worker (v.bincode.serialize txs)) hgenerated
      (fun _ => id) rfl⟩
  rcases List.mem_append.mp hx with hx | hx
  · exact (hi.notices x hx).of_store (hstore _)
  · rw [List.mem_singleton.mp hx]
    refine ⟨a, hmem, rfl, hworker, _, hserialized, rfl, ?_⟩
    dsimp only
    rw [Function.update_self, Function.update_self]

/-- When the sequencer has stopped collecting it finds the digest of every batch. -/
theorem Sequencing.Inv.lookup_isSome (hi : s.Inv cfg v assignments lossless)
    (hassign : assignBatchesRoundRobin cfg.entries cfg.numWorkers cfg.txSize = some assignments)
    (hlen : assignments.length ≤ s.batchDigests.entries.length) {a : ReplayAssignment}
    (ha : a ∈ assignments) : ∃ x, s.batchDigests.lookup a.batchIndex = some x := by
  have hlt : ∀ b ∈ assignments, b.batchIndex < assignments.length := by
    intro b hb
    obtain ⟨k, hk⟩ := List.mem_iff_getElem?.mp hb
    rw [batchIndex_of_getElem? hassign hk]
    exact (List.getElem?_eq_some_iff.mp hk).1
  refine Option.isSome_iff_exists.mp (lookup_isSome_of_length (fun i hi' => ?_) hlen (hlt a ha))
  obtain ⟨x, hx⟩ := Option.isSome_iff_exists.mp (AList.lookup_isSome.mpr (AList.mem_keys.mpr hi'))
  obtain ⟨b, hb, rfl, -⟩ := hi.batchDigests i x hx
  exact hlt b hb

theorem Sequencing.Inv.execute (hi : s.Inv cfg v assignments lossless)
    (hassign : assignBatchesRoundRobin cfg.entries cfg.numWorkers cfg.txSize = some assignments)
    (h : s.step cfg v assignments .execute = some s') : s'.Inv cfg v assignments lossless := by
  simp only [step] at h
  split at h
  · cases h
  · rename_i hready
    rw [not_or, not_lt] at hready
    split at h
    · cases h
    · rename_i a ha
      have hmem : a ∈ assignments := List.mem_of_getElem? ha
      obtain ⟨⟨worker, digest⟩, hx⟩ := hi.lookup_isSome hassign hready.2 hmem
      rw [hx] at h
      dsimp only at h
      split at h
      · obtain rfl := Option.some.inj h
        -- what is sent is what was assigned
        obtain ⟨b, hb, hindex, hworker, data, hdata, hdigest, -⟩ := hi.batchDigests _ _ hx
        obtain rfl : b = a := eq_of_batchIndex hassign hb hmem hindex
        have hmessages : (executesOf cfg v assignments :
            List (List (ℕ × PrimaryWorkerMessage PublicKey Digest)))[s.dispatch.read]? =
              some [(worker, .execute digest worker s.dispatch.read)] := by
          have hread := batchIndex_of_getElem? hassign ha
          dsimp only at hworker hdigest
          unfold executesOf
          rw [List.getElem?_map, ha, Option.map_some, hdata, Option.getD_some, hworker, hread,
            hdigest]
        refine ⟨fun x hx => (hi.notices x hx).of_eq rfl,
          fun i x hx => (hi.batchDigests i x hx).of_eq rfl, hi.panic, fun _ => hready.2,
          hi.dispatched_step .output trivial (fun _ => id) ?_⟩
        exact Option.map_eq_some_iff.mpr ⟨_, hmessages, rfl⟩
      · obtain rfl := Option.some.inj h
        refine ⟨fun x hx => (hi.notices x hx).of_eq rfl,
          fun i x hx => (hi.batchDigests i x hx).of_eq rfl, ?_, hi.complete, hi.dispatched⟩
        intro hpanic
        cases hpanic

/-- No message of this step is lost on the way to the executors. -/
def ReplayEvent.Loses : ReplayEvent Digest → Prop
  | .forward event => event.Loses
  | _ => False

theorem Sequencing.Inv.step (hi : s.Inv cfg v assignments lossless)
    (hassign : assignBatchesRoundRobin cfg.entries cfg.numWorkers cfg.txSize = some assignments)
    (hcollision : CollisionFree Digest (Generated cfg v assignments))
    {event : ReplayEvent Digest} (hlossless : lossless → ¬ event.Loses)
    (h : s.step cfg v assignments event = some s') : s'.Inv cfg v assignments lossless := by
  cases event with
  | generate worker => exact hi.generate hcollision h
  | loseNotice i =>
      obtain ⟨x, hx, rfl⟩ := Option.map_eq_some_iff.mp h
      exact ⟨fun x hx => (hi.notices x (List.mem_of_mem_eraseIdx hx)).of_eq rfl,
        fun i x hx => (hi.batchDigests i x hx).of_eq rfl, hi.panic, hi.complete, hi.dispatched⟩
  | noticeArrives i =>
      simp only [Sequencing.step] at h
      split at h
      · rename_i hcollect
        obtain ⟨x, hx, rfl⟩ := Option.map_eq_some_iff.mp h
        have hnotice := (hi.notices x (List.mem_of_getElem? hx))
        refine ⟨fun x hx => (hi.notices x (List.mem_of_mem_eraseIdx hx)).of_eq rfl,
          fun k y hy => ?_, hi.panic, fun hread => absurd (hi.complete hread) (by omega),
          hi.dispatched⟩
        by_cases hk : k = x.1
        · subst hk
          rw [AList.lookup_insert] at hy
          obtain rfl := Option.some.inj hy
          exact hnotice.of_eq rfl
        · rw [AList.lookup_insert_ne hk] at hy
          exact (hi.batchDigests k y hy).of_eq rfl
      · cases h
  | execute => exact hi.execute hassign h
  | forward event =>
      simp only [Sequencing.step] at h
      split at h
      · rename_i hevent
        obtain ⟨d, hd, rfl⟩ := Option.map_eq_some_iff.mp h
        obtain ⟨hstore, hread, hplay, hsame⟩ :=
          forwards_frame cfg v assignments hevent hd
        exact ⟨fun x hx => (hi.notices x hx).of_eq hstore,
          fun i x hx => (hi.batchDigests i x hx).of_eq hstore, hi.panic,
          fun hpos => hi.complete (hread ▸ hpos),
          hi.dispatched_step event hplay hlossless (hsame _)⟩
      · cases h

variable (lossless) in
theorem inv_of_run
    (hassign : assignBatchesRoundRobin cfg.entries cfg.numWorkers cfg.txSize = some assignments)
    (hcollision : CollisionFree Digest (Generated cfg v assignments))
    {events : List (ReplayEvent Digest)} (hlossless : lossless → ∀ event ∈ events, ¬ event.Loses)
    (h : exec (Sequencing.step cfg v assignments) Sequencing.initial events = some s) :
    s.Inv cfg v assignments lossless := by
  refine exec_invariant (I := fun events s => (lossless → ∀ event ∈ events, ¬ event.Loses) →
    Sequencing.Inv cfg v assignments lossless s)
    (fun _ => Sequencing.inv_initial cfg v assignments)
    (fun events s₁ event s₂ ih hstep hlossless => ?_) h hlossless
  exact (ih fun hl e he => hlossless hl e (List.mem_append_left _ he)).step hassign hcollision
    (fun hl => hlossless hl event (List.mem_append_right _ (List.mem_singleton_self _))) hstep

/-! ## What is executed -/

theorem length_generateTransaction {txSize txIndex : ℕ} {a : ReplayAssignment} {d : Drawn}
    {tx : Bytes} (h : generateTransaction txSize a txIndex d = some tx) : tx.length = txSize := by
  unfold generateTransaction at h
  split at h
  · cases h
  · obtain rfl := Option.some.inj h
    simp only [List.length_append, length_toBeBytes, List.length_cons, List.length_nil,
      List.length_replicate]
    omega

theorem length_generateBatch {txSize : ℕ} {drawn : ℕ → ℕ → Drawn} {a : ReplayAssignment}
    {txs : List Bytes} (h : generateBatch txSize drawn a = some txs) :
    txs.length = a.numTx ∧ ∀ tx ∈ txs, tx.length = txSize := by
  unfold generateBatch at h
  rw [← List.length_range (n := a.numTx)]
  generalize List.range a.numTx = indices at h ⊢
  induction indices generalizing txs with
  | nil =>
      obtain rfl : [] = txs := Option.some.inj h
      exact ⟨rfl, fun tx htx => absurd htx List.not_mem_nil⟩
  | cons t l ih =>
      rw [List.mapM_cons] at h
      obtain ⟨tx, htx, h⟩ := Option.bind_eq_some_iff.mp h
      obtain ⟨rest, hrest, h⟩ := Option.bind_eq_some_iff.mp h
      obtain rfl : tx :: rest = txs := Option.some.inj h
      obtain ⟨hlen, hall⟩ := ih hrest
      refine ⟨by rw [List.length_cons, List.length_cons, hlen], ?_⟩
      rw [List.forall_mem_cons]
      exact ⟨length_generateTransaction htx, hall⟩

/-- Generated batches can be read back. -/
theorem deserialize_generated
    (hassign : assignBatchesRoundRobin cfg.entries cfg.numWorkers cfg.txSize = some assignments)
    (hsize : ∀ entry ∈ cfg.entries, entry.sizeBytes < 2 ^ 64) (hbytes : cfg.txSize < 2 ^ 64)
    {a : ReplayAssignment} (ha : a ∈ assignments) {txs : List Bytes}
    (htxs : generateBatch cfg.txSize cfg.drawn a = some txs) :
    v.bincode.deserialize (v.bincode.serialize txs) = some (.batch txs) ∧ txs ≠ [] := by
  obtain ⟨hlen, hall⟩ := length_generateBatch htxs
  unfold assignBatchesRoundRobin at hassign
  split at hassign
  · cases hassign
  · obtain rfl := Option.some.inj hassign
    obtain ⟨⟨entry, i⟩, hmem, rfl⟩ := List.mem_map.mp ha
    have hnumTx : txs.length = max 1 (entry.sizeBytes / cfg.txSize) := hlen
    have hentry := hsize entry (List.fst_mem_of_mem_zipIdx hmem)
    have hdiv := Nat.div_le_self entry.sizeBytes cfg.txSize
    refine ⟨v.bincode.batch txs (by omega) fun tx htx => hall tx htx ▸ hbytes, ?_⟩
    rw [← List.length_pos_iff]
    omega

omit [LinearOrder Digest] [AsBytes Digest] in
/-- The numbers are the indices. -/
theorem executes_executesOf
    (hassign : assignBatchesRoundRobin cfg.entries cfg.numWorkers cfg.txSize = some assignments) :
    Node.executes (executesOf cfg v assignments :
      List (List (ℕ × PrimaryWorkerMessage PublicKey Digest))).flatten =
      (assignments.map fun a => Sha512.sha512 ((serializedOf cfg v a).getD [])).zipIdx := by
  have hexec : Node.executes (executesOf cfg v assignments :
      List (List (ℕ × PrimaryWorkerMessage PublicKey Digest))).flatten = assignments.map fun a =>
        (Sha512.sha512 ((serializedOf cfg v a).getD []), a.batchIndex) := by
    unfold executesOf Node.executes
    rw [← List.flatMap_def, ← List.map_eq_flatMap, List.filterMap_map]
    exact congrFun List.filterMap_eq_map assignments
  rw [hexec]
  refine List.ext_getElem? fun k => ?_
  rw [List.getElem?_zipIdx, List.getElem?_map, List.getElem?_map]
  cases ha : assignments[k]? with
  | none => rfl
  | some a =>
      rw [Option.map_some, Option.map_some, Option.map_some, Nat.zero_add,
        batchIndex_of_getElem? hassign ha]

theorem numTx_pos
    (hassign : assignBatchesRoundRobin cfg.entries cfg.numWorkers cfg.txSize = some assignments)
    {a : ReplayAssignment} (ha : a ∈ assignments) : 0 < a.numTx := by
  unfold assignBatchesRoundRobin at hassign
  split at hassign
  · cases hassign
  · obtain rfl := Option.some.inj hassign
    obtain ⟨x, -, rfl⟩ := List.mem_map.mp ha
    exact Nat.lt_of_lt_of_le Nat.one_pos (Nat.le_max_left _ _)

omit [LinearOrder Digest] in
/-- The batch that goes with an index is the generated one. -/
theorem generated_of_assigned
    (hassign : assignBatchesRoundRobin cfg.entries cfg.numWorkers cfg.txSize = some assignments)
    (hsize : ∀ entry ∈ cfg.entries, entry.sizeBytes < 2 ^ 64) (hbytes : cfg.txSize < 2 ^ 64)
    (hcollision : CollisionFree Digest (Generated cfg v assignments)) {k : ℕ}
    {batch : BufferedBatch}
    (h : Node.Assigned v.bincode (Generated cfg v assignments)
      ((assignments.map fun a => (Sha512.sha512 ((serializedOf cfg v a).getD []) : Digest)).zipIdx)
      k batch) :
    ∃ a txs, assignments[k]? = some a ∧ generateBatch cfg.txSize cfg.drawn a = some txs ∧
      batch = ⟨AsBytes.asRef (Sha512.sha512 (v.bincode.serialize txs) : Digest), txs⟩ := by
  obtain ⟨data, transactions, ⟨b, hb, hdata⟩, hmem, hparse, rfl⟩ := h
  rw [List.mk_mem_zipIdx_iff_getElem?, List.getElem?_map, Option.map_eq_some_iff] at hmem
  obtain ⟨a, ha, hdigest⟩ := hmem
  have hmem := List.mem_of_getElem? ha
  -- one batch is generated, so the size leaves room in all of them
  have hroom : 35 ≤ cfg.txSize := by
    by_contra hsmall
    unfold serializedOf at hdata
    rw [generateBatch_eq_none (by omega) (numTx_pos hassign hb)] at hdata
    cases hdata
  obtain ⟨txs, htxs, -⟩ := generateBatch_eq_some cfg.drawn hroom a
  have hserialized : serializedOf cfg v a = some (v.bincode.serialize txs) := by
    unfold serializedOf
    rw [htxs]
    rfl
  rw [hserialized, Option.getD_some] at hdigest
  obtain rfl := hcollision _ _ ⟨a, hmem, hserialized⟩ ⟨b, hb, hdata⟩ hdigest
  obtain ⟨hread, hne⟩ := deserialize_generated (v := v) hassign hsize hbytes hmem htxs
  obtain rfl : txs = transactions := by
    rw [hread, Option.some.injEq, Worker.WorkerMessage.batch.injEq] at hparse
    exact hparse
  refine ⟨a, txs, ha, htxs, ?_⟩
  unfold batchOf
  rw [if_neg (by rwa [List.isEmpty_iff])]

end Reported

/-- A trace is replayed as it was recorded, whatever the order of the steps and whatever is lost:
    the sequencer has the digest of every batch when it needs it, nothing is sent for execution
    before all batches are stored, and an executor that has not stopped has executed the batches
    of the first entries of the trace and nothing else, in the order of the trace. If no message
    is lost and nothing is on its way after the last one was sent, then these are all entries. -/
theorem replayed_in_order {PublicKey Digest : Type} [LinearOrder PublicKey] [LinearOrder Digest]
    [AsBytes Digest] [Sha512 Digest] (cfg : ReplaySettings) (v : Backend)
    (assignments : List ReplayAssignment)
    (hassign : assignBatchesRoundRobin cfg.entries cfg.numWorkers cfg.txSize = some assignments)
    (hsize : ∀ entry ∈ cfg.entries, entry.sizeBytes < 2 ^ 64) (hbytes : cfg.txSize < 2 ^ 64)
    (hcollision : CollisionFree Digest (Generated cfg v assignments))
    (events : List (ReplayEvent Digest)) (s : Sequencing PublicKey Digest)
    (hrun : exec (Sequencing.step cfg v assignments) Sequencing.initial events = some s) :
    s.panic ≠ some .missingDigest ∧
    (0 < s.dispatch.read → ∀ a ∈ assignments, ∃ txs,
      generateBatch cfg.txSize cfg.drawn a = some txs ∧
        s.dispatch.store a.workerId (Sha512.sha512 (v.bincode.serialize txs)) =
          some (v.bincode.serialize txs)) ∧
    ∀ e ∈ v.executors, ∀ (env : Fusion.Environment) (executor : Fusion.Executor),
      BatchExecutor.run env (s.dispatch.received e) (BatchExecutor.spawn executor) ≠
        .error .pastSequence ∧
      ∀ b, BatchExecutor.run env (s.dispatch.received e) (BatchExecutor.spawn executor) = .ok b →
        b.state.batches.map Prod.fst = List.range b.next ∧
        (∀ x ∈ b.state.batches, ∃ a txs, assignments[x.1]? = some a ∧
          generateBatch cfg.txSize cfg.drawn a = some txs ∧
            x.2 = ⟨AsBytes.asRef (Sha512.sha512 (v.bincode.serialize txs) : Digest), txs⟩) ∧
        ((∀ event ∈ events, ¬ event.Loses) → s.dispatch.read = assignments.length →
          s.dispatch.Idle → b.next = assignments.length) := by
  have hi := inv_of_run (∀ event ∈ events, ¬ event.Loses) hassign hcollision (fun h => h) hrun
  refine ⟨hi.panic, fun hread a ha => ?_, fun e he env executor => ?_⟩
  · obtain ⟨x, hx⟩ := hi.lookup_isSome hassign (hi.complete hread) ha
    obtain ⟨b, hb, hindex, hworker, data, hdata, hdigest, hstored⟩ := hi.batchDigests _ _ hx
    obtain rfl := eq_of_batchIndex hassign hb ha hindex
    obtain ⟨txs, htxs, rfl⟩ := Option.map_eq_some_iff.mp hdata
    rw [hdigest, ← hworker] at hstored
    exact ⟨txs, htxs, hstored⟩
  · obtain ⟨forwarded, hplay, hlossless, hforwarded⟩ := hi.dispatched
    obtain ⟨items, arrived, hnodup, hassigned, hreceived, hcomplete⟩ :=
      Node.received_of_run hcollision (executes_executesOf hassign) hplay hforwarded he
    obtain ⟨hpast, hall⟩ := Node.executed_of_received env executor hnodup hassigned hreceived
    refine ⟨hpast, fun b hb => ?_⟩
    obtain ⟨hexec, hlast⟩ := hall b hb
    refine ⟨hexec.numbers, fun x hx =>
      generated_of_assigned hassign hsize hbytes hcollision (hexec.assigned x hx),
      fun hnone hread hidle => ?_⟩
    have hparse : ∀ data, Generated cfg v assignments data →
        ∃ transactions, v.bincode.deserialize data = some (.batch transactions) := by
      rintro data ⟨a, ha, hdata⟩
      obtain ⟨txs, htxs, rfl⟩ := Option.map_eq_some_iff.mp hdata
      exact ⟨txs, (deserialize_generated hassign hsize hbytes ha htxs).1⟩
    have hlength : s.dispatch.read = (executesOf cfg v assignments :
        List (List (ℕ × PrimaryWorkerMessage PublicKey Digest))).length :=
      hread.trans (List.length_map _).symm
    rw [(hlast (hcomplete (hlossless hnone) hparse hlength hidle)).1, List.length_map]

/-! ## Two entries, two workers -/

section Sample

open Toy Node.DispatchSample
open Fusion.BatchExecutor.SequenceSample (environment soleExecutor)

namespace TraceSample

/-- Deposits into account 0. -/
def settings : ReplaySettings := ⟨[⟨5, 35⟩, ⟨9, 70⟩], 2, 35, fun _ _ => ⟨0, 0, 1⟩, [0, 1]⟩

def assigned : List ReplayAssignment :=
  settings.entries.zipIdx.map (assignment settings.numWorkers settings.txSize)

theorem assign_assigned : assignBatchesRoundRobin settings.entries settings.numWorkers
    settings.txSize = some assigned := rfl

theorem collisionFree_generated : CollisionFree ℕ (Generated settings backend assigned) := by
  have key : ∀ x ∈ assigned.filterMap (serializedOf settings backend),
      ∀ y ∈ assigned.filterMap (serializedOf settings backend),
        (Sha512.sha512 x : ℕ) = Sha512.sha512 y → x = y := by decide +kernel
  rintro x y ⟨a, ha, hx⟩ ⟨b, hb, hy⟩
  exact key x (List.mem_filterMap.mpr ⟨a, ha, hx⟩) y (List.mem_filterMap.mpr ⟨b, hb, hy⟩)

/-- Worker 1 is faster than worker 0. -/
def replayed : List (ReplayEvent ℕ) :=
  [.generate 1, .generate 0, .noticeArrives 0, .noticeArrives 0, .execute, .execute,
    .forward (.commandArrives 1), .forward (.read 1), .forward (.broadcast 1),
    .forward (.batchArrives 0), .forward (.commandArrives 0), .forward (.read 0),
    .forward (.broadcast 0), .forward (.batchArrives 1), .forward (.batchArrives 0),
    .forward (.batchArrives 0)]

def last : Sequencing ℕ ℕ :=
  (exec (Sequencing.step settings backend assigned) .initial replayed).getD
    .initial

theorem run_last :
    exec (Sequencing.step settings backend assigned) .initial replayed = some last :=
  eq_some_of_isSome _ (by decide +kernel)

theorem lossless : ∀ event ∈ replayed, ¬ event.Loses := by
  unfold replayed
  simp [ReplayEvent.Loses, Node.DispatchEvent.Loses]

theorem idle_last : last.dispatch.Idle := by
  unfold Node.Dispatch.Idle
  decide +kernel

end TraceSample

open TraceSample

theorem replayed_in_order_sample :
    last.panic ≠ some .missingDigest ∧
    (∀ a ∈ assigned, ∃ txs, generateBatch 35 settings.drawn a = some txs ∧
      last.dispatch.store a.workerId (Sha512.sha512 (backend.bincode.serialize txs)) =
        some (backend.bincode.serialize txs)) ∧
    ∀ e ∈ backend.executors, ∃ b, BatchExecutor.run environment (last.dispatch.received e)
        (BatchExecutor.spawn soleExecutor) = .ok b ∧
      b.state.batches.map Prod.fst = List.range assigned.length ∧
      ∀ x ∈ b.state.batches, ∃ a txs, assigned[x.1]? = some a ∧
        generateBatch 35 settings.drawn a = some txs ∧
          x.2 = ⟨AsBytes.asRef (Sha512.sha512 (backend.bincode.serialize txs) : ℕ), txs⟩ := by
  obtain ⟨hpanic, hstored, hexecutors⟩ :=
    replayed_in_order settings backend assigned assign_assigned (by decide) (by decide)
      collisionFree_generated replayed last run_last
  refine ⟨hpanic, hstored (by decide +kernel), fun e he => ?_⟩
  have hok : ∀ e ∈ backend.executors, (BatchExecutor.run environment (last.dispatch.received e)
      (BatchExecutor.spawn soleExecutor)).isOk = true := by
    decide +kernel
  have hb := eq_ok_of_isOk (BatchExecutor.spawn soleExecutor) (hok e he)
  obtain ⟨hnumbers, hbatches, hall⟩ := (hexecutors e he environment soleExecutor).2 _ hb
  have hnext := hall lossless (by decide +kernel) idle_last
  exact ⟨_, hb, hnext ▸ hnumbers, hbatches⟩

end Sample

end DagBft.Replay
