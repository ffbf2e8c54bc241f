/-
  A validator from the output of consensus to the accounts: the batches come to its executors
  (`Node/Dispatch`), each `BatchExecutor` executes them in the order of their numbers (`run` and
  `process_execute` in `worker/src/batch_executor.rs`), and the executors exchange the states of
  accounts (`Fusion/System`), in any interleaving.

  A call of `process_execute` is split into steps, so that the other tasks may take steps in
  between. The feedback is left out. The `StateHelper`s send with a `SimpleSender`, so transfers
  may be lost, and the transactions that need one of those wait forever: the executors do what
  they would do if it were still on its way (`Covers`).

  The transactions are those that `Fusion.Admissible` describes: they parse, their ids are
  different, their accounts exist, and nobody pays themselves.

  `committed_executed`: the only reasons for an executor to stop are a sync marker that comes too
  early and a full buffer; the state of every account, wherever it is, is always the one that the
  first committed transactions leave, and at the end that is all of them. `validators_agree`: two
  validators hold the same accounts.
-/
import DagBft.Node.Dispatch
import DagBft.Writeback.Designs

namespace DagBft.Node

open Fusion (WorkerToExecutorMessage BufferedBatch Abort Iteration Panic)
open Worker (AccountStore AccountState StateTransferRequest)

/-- What a `BatchExecutor` is at. -/
inductive Phase
  /-- It waits for the next message. -/
  | waiting
  /-- The next batch is there, and is not executed yet. -/
  | executing (batch : BufferedBatch)
  /-- `execute_batch` has come to the call of `process_incoming_transfers`. -/
  | processing
  | stopped (abort : Abort)
deriving DecidableEq

/-- What `run` keeps besides the executor itself. -/
structure Loop where
  /-- How many messages it has received. -/
  read : ℕ
  nextSequence : ℕ
  buffer : AList fun _ : ℕ => BufferedBatch
  phase : Phase

namespace Loop

def initial : Loop := ⟨0, 0, ∅, .waiting⟩

/-- `process_execute`, up to the first call of `execute_batch`. -/
def receive (l : Loop) (sequence : ℕ) (batch : BufferedBatch) : Loop :=
  if sequence = l.nextSequence then { l with read := l.read + 1, phase := .executing batch }
  else if l.nextSequence < sequence then
    if batch.isSyncMarker then { l with read := l.read + 1, phase := .stopped .syncMarker }
    else if l.buffer.entries.length < Fusion.bufferLimit then
      { l with read := l.read + 1, buffer := l.buffer.insert sequence batch }
    else { l with read := l.read + 1, phase := .stopped .bufferFull }
  else { l with read := l.read + 1, phase := .stopped .pastSequence }

/-- Drain consecutive buffered batches: the next one, if it is there. -/
def advance (l : Loop) : Loop :=
  match l.buffer.lookup (l.nextSequence + 1) with
  | some batch => { l with
      nextSequence := l.nextSequence + 1
      buffer := l.buffer.erase (l.nextSequence + 1)
      phase := .executing batch }
  | none => { l with nextSequence := l.nextSequence + 1, phase := .waiting }

/-- How many batches it has begun to execute. -/
def taken (l : Loop) : ℕ :=
  match l.phase with
  | .processing => l.nextSequence + 1
  | _ => l.nextSequence

end Loop

variable (PublicKey Digest : Type) [LinearOrder Digest]

structure Execution where
  dispatch : Dispatch PublicKey Digest
  loops : ℕ → Loop
  executors : ℕ → Fusion.Executor
  /-- The messages between the `StateHelper`s. -/
  network : List StateTransferRequest
  /-- Those that were lost. -/
  lost : List StateTransferRequest
  /-- A `StateHelper` has panicked. -/
  failed : Option Panic

inductive ExecutionEvent
  | dispatch (event : DispatchEvent Digest)
  /-- An executor takes the next message that it has received. -/
  | receive (e : ℕ)
  /-- `execute_batch`, up to the call of `process_incoming_transfers`. -/
  | execute (e : ℕ) (iter : Iteration)
  /-- `process_incoming_transfers`. -/
  | process (e : ℕ) (iter : Iteration)
  /-- The `StateHelper` of an executor sends the next transfer. -/
  | send (e : ℕ)
  /-- Message `i` of the network arrives. -/
  | deliver (i : ℕ)
  /-- It is lost. -/
  | loseTransfer (i : ℕ)

variable {PublicKey Digest}

/-- `execute_batch` without the call of `process_incoming_transfers`. -/
def executeFirst (cfg : Fusion.Settings) (iter : Iteration) (batch : BufferedBatch)
    (s : Fusion.Executor) : Except Panic Fusion.Executor := do
  let (localities, s) ← s.beginBatch cfg iter batch.transactions
  Fusion.Executor.handleAll cfg batch.digest localities s

namespace Execution

def initial (partition : Fusion.Partition) (stores : ℕ → AccountStore) :
    Execution PublicKey Digest where
  dispatch := .initial
  loops _ := .initial
  executors := (Fusion.System.initial partition stores).executors
  network := []
  lost := []
  failed := none

/-- The executors and what is on its way between them. -/
def system (x : Execution PublicKey Digest) : Fusion.System where
  executors := x.executors
  taken e := (x.loops e).taken
  network := x.network

/-- The same, with what was lost. -/
def whole (x : Execution PublicKey Digest) : Fusion.System :=
  { x.system with network := x.network ++ x.lost }

/-- An executor has come to a result, or it panics. -/
def finish (x : Execution PublicKey Digest) (e : ℕ) (next : Loop) :
    Except Panic Fusion.Executor → Execution PublicKey Digest
  | .ok s => { x with
      executors := Function.update x.executors e s
      loops := Function.update x.loops e next }
  | .error p => { x with
      loops := Function.update x.loops e { x.loops e with phase := .stopped (.batch p) } }

/-- What the `StateHelper`s do. -/
def exchange (cfg : Fusion.Settings) (x : Execution PublicKey Digest) (event : Fusion.Event) :
    Execution PublicKey Digest :=
  match Fusion.System.step cfg [] x.system event with
  | .ok sys => { x with executors := sys.executors, network := sys.network }
  | .error p => { x with failed := some p }

variable [AsBytes Digest] [Sha512 Digest]

/-- One step, `none` if it cannot be taken. -/
def step (v : Backend) (cfg : Fusion.Settings)
    (sent : List (List (ℕ × PrimaryWorkerMessage PublicKey Digest)))
    (x : Execution PublicKey Digest) : ExecutionEvent Digest → Option (Execution PublicKey Digest)
  | .dispatch event => (x.dispatch.step v sent event).map fun s => { x with dispatch := s }
  | .receive e =>
      match (x.loops e).phase, (x.dispatch.received e)[(x.loops e).read]? with
      | .waiting, some message =>
          if e ∈ v.executors then some { x with
            loops := Function.update x.loops e
              ((x.loops e).receive message.dispatch.1 message.dispatch.2) }
          else none
      | _, _ => none
  | .execute e iter =>
      match (x.loops e).phase with
      | .executing batch =>
          if e ∈ v.executors then
            some (x.finish e { x.loops e with phase := .processing }
              (executeFirst cfg iter batch (x.executors e)))
          else none
      | _ => none
  | .process e iter =>
      match (x.loops e).phase with
      | .processing =>
          if e ∈ v.executors then
            some (x.finish e (x.loops e).advance
              ((x.executors e).processIncomingTransfers cfg iter))
          else none
      | _ => none
  | .send e => some (x.exchange cfg (.send e))
  | .deliver i => some (x.exchange cfg (.deliver i))
  | .loseTransfer i => x.network[i]?.map fun message =>
      { x with network := x.network.eraseIdx i, lost := x.lost ++ [message] }

end Execution

/-- What is stored is in play, and the loops of a call do not run out of fuel. -/
def ExecutionEvent.Fits (known : Bytes → Prop) (batches : List Fusion.Batch) :
    ExecutionEvent Digest → Prop
  | .dispatch event => event.InPlay known
  | .process e iter => (Fusion.Event.process e iter).Enough batches
  | _ => True

/-- The messages of this step are lost. -/
def ExecutionEvent.Loses : ExecutionEvent Digest → Prop
  | .dispatch event => event.Loses
  | .loseTransfer _ => True
  | _ => False

variable [AsBytes Digest] [Sha512 Digest]

/-- A batch, whether it was buffered or not. -/
def toBatch (b : BufferedBatch) : Fusion.Batch := ⟨b.digest, b.transactions⟩

/-- These are the batches with these digests, as executors get them. -/
structure Contents (bincode : Worker.Bincode) (known : Bytes → Prop) (digests : List Digest)
    (batches : List Fusion.Batch) : Prop where
  length : batches.length = digests.length
  content : ∀ (k : ℕ) (digest : Digest), digests[k]? = some digest →
    ∃ data transactions, known data ∧ Sha512.sha512 data = digest ∧
      bincode.deserialize data = some (.batch transactions) ∧
      batches[k]? = some (toBatch (batchOf digest transactions))

/-! ## The loop of one executor -/

/-- The loop has not stopped: it has executed the batches up to the first one whose number has
    not come, and keeps the others. -/
structure Loop.Going (batches : List Fusion.Batch) (arrived : List ℕ) (l : Loop) : Prop where
  taken : ∀ j < l.nextSequence, j ∈ arrived
  kept : ∀ k, (l.buffer.lookup k).isSome ↔ k ∈ arrived ∧ l.nextSequence < k
  buffered : ∀ k batch, l.buffer.lookup k = some batch →
    batches[k]? = some (toBatch batch)
  missing : l.phase = .waiting → l.nextSequence ∉ arrived
  turn : l.phase ≠ .waiting → l.nextSequence ∈ arrived
  batch : ∀ batch, l.phase = .executing batch →
    batches[l.nextSequence]? = some (toBatch batch)
  alive : ∀ abort, l.phase ≠ .stopped abort

/-- Why a loop may stop. -/
def Loop.Sound (batches : List Fusion.Batch) (arrived : List ℕ) (l : Loop) : Prop :=
  (∃ abort, l.phase = .stopped abort ∧ (abort = .syncMarker ∨ abort = .bufferFull)) ∨
    l.Going batches arrived

namespace Loop

variable {batches : List Fusion.Batch} {arrived : List ℕ} {l : Loop} {b : BufferedBatch}

theorem going_initial : Going batches [] initial where
  taken j hj := absurd hj (Nat.not_lt_zero j)
  kept k := by simp [initial]
  buffered k batch h := by simp [initial] at h
  missing _ := List.not_mem_nil
  turn h := absurd rfl h
  batch batch h := by cases h
  alive abort h := by cases h

theorem read_receive (k : ℕ) (batch : BufferedBatch) :
    (l.receive k batch).read = l.read + 1 := by
  unfold receive
  split
  · rfl
  · split
    · split
      · rfl
      · split <;> rfl
    · rfl

theorem Sound.going (h : Sound batches arrived l) (halive : ∀ abort, l.phase ≠ .stopped abort) :
    Going batches arrived l := by
  rcases h with ⟨abort, hstop, -⟩ | hgoing
  · exact absurd hstop (halive abort)
  · exact hgoing

/-- A message comes, with a number that has not come before. -/
theorem Going.receive (h : Going batches arrived l) (hphase : l.phase = .waiting) {k : ℕ}
    (hnew : k ∉ arrived) (hb : batches[k]? = some (toBatch b)) :
    Sound batches (arrived ++ [k]) (l.receive k b) := by
  unfold Loop.receive
  split
  · rename_i hk
    subst hk
    refine Or.inr ⟨fun j hj => List.mem_append_left _ (h.taken j hj), fun j => ?_, h.buffered,
      (by intro hw; cases hw), (by simp), fun batch hbatch => ?_, (by intro _ hs; cases hs)⟩
    · rw [h.kept, List.mem_append, List.mem_singleton]
      constructor
      · exact fun hj => ⟨Or.inl hj.1, hj.2⟩
      · rintro ⟨hj | hj, hlt⟩
        · exact ⟨hj, hlt⟩
        · exact absurd hj (Nat.ne_of_gt hlt)
    · obtain rfl := Phase.executing.inj hbatch
      exact hb
  · split
    · rename_i hne hlt
      split
      · exact Or.inl ⟨_, rfl, Or.inl rfl⟩
      · split
        · refine Or.inr ⟨fun j hj => List.mem_append_left _ (h.taken j hj), fun j => ?_,
            fun j batch hj => ?_, fun _ => ?_, fun hw => absurd hphase hw, h.batch, h.alive⟩
          · rw [List.mem_append, List.mem_singleton]
            by_cases hj : j = k
            · subst hj
              rw [AList.lookup_insert]
              simpa using hlt
            · rw [AList.lookup_insert_ne hj, h.kept]
              simp [hj]
          · by_cases hjk : j = k
            · subst hjk
              rw [AList.lookup_insert] at hj
              exact Option.some.inj hj ▸ hb
            · rw [AList.lookup_insert_ne hjk] at hj
              exact h.buffered j batch hj
          · rw [List.mem_append, List.mem_singleton]
            rintro (hmem | hk)
            · exact h.missing hphase hmem
            · exact hne hk.symm
        · exact Or.inl ⟨_, rfl, Or.inr rfl⟩
    · rename_i hne hge
      exact absurd (h.taken k (by omega)) hnew

theorem Going.processing (h : Going batches arrived l) (hphase : l.phase = .executing b) :
    Going batches arrived { l with phase := .processing } where
  taken := h.taken
  kept := h.kept
  buffered := h.buffered
  missing hw := by cases hw
  turn _ := h.turn (by rw [hphase]; exact Phase.noConfusion)
  batch batch hbatch := by cases hbatch
  alive _ hs := by cases hs

/-- A batch has been executed. -/
theorem Going.advance (h : Going batches arrived l) (hphase : l.phase = .processing) :
    Going batches arrived l.advance := by
  have hturn := h.turn (by rw [hphase]; exact Phase.noConfusion)
  have htaken : ∀ j < l.nextSequence + 1, j ∈ arrived := by
    intro j hj
    rcases Nat.lt_succ_iff_lt_or_eq.mp hj with hlt | rfl
    · exact h.taken j hlt
    · exact hturn
  unfold Loop.advance
  split
  · rename_i batch hlook
    have hmem := ((h.kept _).mp (by rw [hlook]; rfl)).1
    refine ⟨htaken, fun k => ?_, fun k batch' hk => ?_, (by intro hw; cases hw), fun _ => hmem,
      fun batch' hbatch => ?_, (by intro _ hs; cases hs)⟩
    · by_cases hk : k = l.nextSequence + 1
      · subst hk
        rw [AList.lookup_erase]
        simp
      · rw [AList.lookup_erase_ne hk, h.kept]
        exact and_congr_right' ⟨fun hlt => lt_of_le_of_ne hlt (Ne.symm hk), Nat.lt_of_succ_lt⟩
    · by_cases hne : k = l.nextSequence + 1
      · subst hne
        rw [AList.lookup_erase] at hk
        cases hk
      · rw [AList.lookup_erase_ne hne] at hk
        exact h.buffered k batch' hk
    · obtain rfl := Phase.executing.inj hbatch
      exact h.buffered _ _ hlook
  · rename_i hlook
    have hnot : l.nextSequence + 1 ∉ arrived := by
      intro hmem
      have hsome := (h.kept (l.nextSequence + 1)).mpr ⟨hmem, Nat.lt_succ_self _⟩
      rw [hlook] at hsome
      cases hsome
    refine ⟨htaken, fun k => ?_, h.buffered, fun _ => hnot, fun hw => absurd rfl hw,
      (by intro _ hb; cases hb), (by intro _ hs; cases hs)⟩
    rw [h.kept]
    constructor
    · rintro ⟨hk, hlt⟩
      exact ⟨hk, lt_of_le_of_ne hlt (by rintro rfl; exact hnot hk)⟩
    · exact fun hk => ⟨hk.1, Nat.lt_of_succ_lt hk.2⟩

theorem taken_advance : l.advance.taken = l.nextSequence + 1 := by
  unfold Loop.advance
  split <;> rfl

theorem taken_receive (hphase : l.phase = .waiting) (k : ℕ) (batch : BufferedBatch) :
    (l.receive k batch).taken = l.taken := by
  have h : l.taken = l.nextSequence := by
    unfold taken
    rw [hphase]
  rw [h]
  unfold receive
  split
  · rfl
  · split
    · split
      · rfl
      · split
        · unfold taken
          simp only [hphase]
        · rfl
    · rfl

end Loop

/-! ## What an executor receives -/

section Messages

variable {v : Backend} {known : Bytes → Prop} {digests : List Digest}
  {batches : List Fusion.Batch}
  {sent : List (List (ℕ × PrimaryWorkerMessage PublicKey Digest))}
  {s s' : Dispatch PublicKey Digest} {events : List (DispatchEvent Digest)}

omit [LinearOrder Digest] in
/-- The batch of a number is the one that the executors get. -/
theorem Contents.assigned {bincode : Worker.Bincode} (hcollision : CollisionFree Digest known)
    (hc : Contents bincode known digests batches) {k : ℕ} {batch : BufferedBatch}
    (h : Assigned bincode known digests.zipIdx k batch) : batches[k]? = some (toBatch batch) := by
  obtain ⟨data, transactions, hknown, hmem, hparse, rfl⟩ := h
  rw [List.mk_mem_zipIdx_iff_getElem?] at hmem
  obtain ⟨data', transactions', hknown', hdigest, hparse', hget⟩ := hc.content k _ hmem
  obtain rfl := hcollision data' data hknown' hknown hdigest
  obtain rfl : transactions' = transactions := by
    rw [hparse, Option.some.injEq, Worker.WorkerMessage.batch.injEq] at hparse'
    exact hparse'.symm
  exact hget

/-- The numbers of these messages. -/
def arrivedOf (messages : List WorkerToExecutorMessage) : List ℕ :=
  messages.map fun message => message.dispatch.1

theorem messages_of_run (hcollision : CollisionFree Digest known)
    (hnumbered : executes sent.flatten = digests.zipIdx)
    (hc : Contents v.bincode known digests batches)
    (hplay : ∀ event ∈ events, event.InPlay known)
    (hrun : exec (Dispatch.step v sent) Dispatch.initial events = some s) {e : ℕ}
    (he : e ∈ v.executors) :
    (arrivedOf (s.received e)).Nodup ∧
    (∀ message ∈ s.received e, batches[message.dispatch.1]? = some (toBatch message.dispatch.2)) ∧
    ((∀ event ∈ events, ¬ event.Loses) →
      (∀ data, known data →
        ∃ transactions, v.bincode.deserialize data = some (.batch transactions)) →
      s.read = sent.length → s.Idle →
        (arrivedOf (s.received e)).Perm (List.range batches.length)) := by
  obtain ⟨items, arrived, hnodup, hassigned, hreceived, hcomplete⟩ :=
    received_of_run hcollision hnumbered hplay hrun he
  have harrived : arrivedOf (s.received e) = arrived := by
    have key := congrArg (List.map Prod.fst) hreceived
    rw [List.map_map, List.map_map] at key
    exact key.trans (List.map_id _)
  rw [harrived]
  refine ⟨hnodup, fun message hmem => ?_, fun hnone hparse hread hidle => ?_⟩
  · have hdispatch : message.dispatch ∈ arrived.map fun k => (k, items k) :=
      hreceived ▸ List.mem_map_of_mem hmem
    obtain ⟨k, hk, heq⟩ := List.mem_map.mp hdispatch
    rw [← heq]
    exact hc.assigned hcollision (hassigned k hk)
  · rw [hc.length]
    exact hcomplete hnone hparse hread hidle

/-- Messages are only added. -/
theorem received_grows {event : DispatchEvent Digest} (h : s.step v sent event = some s') (e : ℕ) :
    s.received e <+: s'.received e := by
  cases event with
  | batchArrives i =>
      obtain ⟨x, -, rfl⟩ := Option.map_eq_some_iff.mp h
      by_cases he : e = x.1
      · subst he
        dsimp only
        rw [Function.update_self]
        exact List.prefix_append _ _
      · dsimp only
        rw [Function.update_of_ne he]
  | commandArrives i =>
      obtain ⟨x, -, rfl⟩ := Option.map_eq_some_iff.mp h
      obtain ⟨worker, message⟩ := x
      cases message <;> exact List.prefix_rfl
  | read worker =>
      simp only [Dispatch.step] at h
      split at h
      · cases h
      · split at h
        · cases h
        · split at h
          · cases h
          · obtain rfl := Option.some.inj h
            exact List.prefix_rfl
  | output | loseCommand i | broadcast worker | loseBatch i =>
      obtain ⟨x, -, rfl⟩ := Option.map_eq_some_iff.mp h
      exact List.prefix_rfl
  | write worker data | delete worker digest =>
      obtain rfl := Option.some.inj h
      exact List.prefix_rfl

end Messages

/-! ## Transfers that are lost -/

/-- The same executors, one of which has all that was sent, the other one not what is lost. -/
structure Covers (lost : List StateTransferRequest) (sys sys' : Fusion.System) : Prop where
  executors : sys.executors = sys'.executors
  taken : sys.taken = sys'.taken
  network : sys.network.Perm (sys'.network ++ lost)

section Lost

variable {cfg : Fusion.Settings} {batches : List Fusion.Batch}
  {lost : List StateTransferRequest} {sys sys' t : Fusion.System}

theorem covers_refl (sys : Fusion.System) : Covers [] sys sys :=
  ⟨rfl, rfl, by rw [List.append_nil]⟩

theorem Covers.set (h : Covers lost sys sys') (e : ℕ) (s : Fusion.Executor) :
    Covers lost (sys.setExecutor e s) (sys'.setExecutor e s) where
  executors := by
    unfold Fusion.System.setExecutor
    rw [h.executors]
  taken := h.taken
  network := h.network

/-- A message more. -/
theorem Covers.sent (h : Covers lost sys sys') (message : StateTransferRequest) :
    Covers lost { sys with network := sys.network ++ [message] }
      { sys' with network := sys'.network ++ [message] } where
  executors := h.executors
  taken := h.taken
  network := by
    refine (h.network.append_right [message]).trans ?_
    rw [List.append_assoc, List.append_assoc]
    exact List.perm_append_comm.append_left sys'.network

/-- What is not on its way any more, because it has come or is lost. -/
theorem perm_eraseIdx {i : ℕ} {message : StateTransferRequest}
    {network : List StateTransferRequest} (hm : network[i]? = some message) :
    network.Perm (message :: network.eraseIdx i) := by
  obtain ⟨hlt, rfl⟩ := List.getElem?_eq_some_iff.mp hm
  exact (List.getElem_cons_eraseIdx_perm hlt).symm

theorem Covers.lose (h : Covers lost sys sys') {i : ℕ} {message : StateTransferRequest}
    (hm : sys'.network[i]? = some message) :
    Covers (lost ++ [message]) sys { sys' with network := sys'.network.eraseIdx i } where
  executors := h.executors
  taken := h.taken
  network := by
    refine h.network.trans (((perm_eraseIdx hm).append_right lost).trans ?_)
    rw [List.cons_append, ← List.append_assoc]
    exact List.perm_append_singleton message _ |>.symm

/-- An executor that takes a step does the same in both. -/
theorem Covers.step (h : Covers lost sys sys') {event : Fusion.Event}
    (hevent : ∀ i, event ≠ .deliver i)
    (hok : Fusion.System.step cfg batches sys event = .ok t) :
    ∃ t', Fusion.System.step cfg batches sys' event = .ok t' ∧ Covers lost t t' := by
  cases event with
  | batch e iter =>
      simp only [Fusion.System.step, h.executors, h.taken] at hok ⊢
      split at hok
      · rename_i hlt
        rw [if_pos hlt]
        split at hok
        · obtain rfl := Except.ok.inj hok
          exact ⟨sys', rfl, h⟩
        · obtain ⟨⟨localities, s₁⟩, hbegin, hok⟩ := bind_eq_ok.mp hok
          obtain ⟨s₂, hhandle, hok⟩ := bind_eq_ok.mp hok
          obtain rfl := Except.ok.inj hok
          refine ⟨_, bind_eq_ok.mpr ⟨_, hbegin, bind_eq_ok.mpr ⟨_, hhandle, rfl⟩⟩, ?_⟩
          exact ⟨(h.set e s₂).executors, rfl, h.network⟩
      · rename_i hlt
        rw [if_neg hlt]
        obtain rfl := Except.ok.inj hok
        exact ⟨sys', rfl, h⟩
  | process e iter =>
      simp only [Fusion.System.step, h.executors] at hok ⊢
      split at hok
      · rename_i hlt
        rw [if_pos hlt]
        obtain ⟨s, hprocess, hok⟩ := bind_eq_ok.mp hok
        obtain rfl := Except.ok.inj hok
        exact ⟨_, bind_eq_ok.mpr ⟨_, hprocess, rfl⟩, h.set e s⟩
      · rename_i hlt
        rw [if_neg hlt]
        obtain rfl := Except.ok.inj hok
        exact ⟨sys', rfl, h⟩
  | send e =>
      simp only [Fusion.System.step, h.executors] at hok ⊢
      split at hok
      · rename_i hlt
        rw [if_pos hlt]
        split at hok
        · obtain rfl := Except.ok.inj hok
          exact ⟨sys', rfl, h⟩
        · rename_i request requests hqueue
          split at hok
          · rename_i hdest
            rw [if_pos hdest]
            obtain rfl := Except.ok.inj hok
            exact ⟨_, rfl, (h.set e _).sent request⟩
          · cases hok
      · rename_i hlt
        rw [if_neg hlt]
        obtain rfl := Except.ok.inj hok
        exact ⟨sys', rfl, h⟩
  | deliver i => exact absurd rfl (hevent i)

variable (cfg batches) in
/-- A message that arrives is on its way in both. -/
theorem Covers.deliver (h : Covers lost sys sys') (i : ℕ) :
    ∃ j t t', Fusion.System.step cfg batches sys (.deliver j) = .ok t ∧
      Fusion.System.step cfg batches sys' (.deliver i) = .ok t' ∧ Covers lost t t' := by
  cases hm : sys'.network[i]? with
  | none =>
      have hnone : sys.network[sys.network.length]? = none := List.getElem?_eq_none le_rfl
      refine ⟨sys.network.length, sys, sys', ?_, ?_, h⟩
      · simp only [Fusion.System.step, hnone]
      · simp only [Fusion.System.step, hm]
  | some message =>
      have hmem : message ∈ sys.network :=
        h.network.mem_iff.mpr (List.mem_append_left _ (List.mem_of_getElem? hm))
      obtain ⟨j, hj⟩ := List.getElem?_of_mem hmem
      have hstep : ∀ (s : Fusion.System) (k : ℕ), s.network[k]? = some message →
          Fusion.System.step cfg batches s (.deliver k) =
            .ok { s.setExecutor message.destExecutorId { s.executors message.destExecutorId with
              incomingTransfers := (s.executors message.destExecutorId).incomingTransfers.push
                message.stateTransfer } with network := s.network.eraseIdx k } := by
        intro s k hk
        simp only [Fusion.System.step, hk]
      have hset := h.set message.destExecutorId { sys.executors message.destExecutorId with
        incomingTransfers :=
          (sys.executors message.destExecutorId).incomingTransfers.push message.stateTransfer }
      refine ⟨j, _, _, hstep sys j hj, hstep sys' i hm, ?_, h.taken, ?_⟩
      · refine hset.executors.trans ?_
        rw [h.executors]
      · refine List.Perm.cons_inv (a := message) ?_
        refine (perm_eraseIdx hj).symm.trans (h.network.trans ?_)
        exact (perm_eraseIdx hm).append_right lost

theorem Covers.copies (h : Covers lost sys sys') (n a : ℕ) :
    sys.copies n a = { sys' with network := sys'.network ++ lost }.copies n a := by
  have hnetwork : (sys.network : Multiset StateTransferRequest) = (sys'.network ++ lost : List _) :=
    Quotient.sound h.network
  unfold Fusion.System.copies Fusion.System.transfers
  rw [hnetwork, h.executors]

end Lost

/-! ## The invariant -/

namespace Execution

/-- `Fusion.System` comes to this state in some run on these batches, but for what is lost. -/
def Attained (cfg : Fusion.Settings) (partition : Fusion.Partition) (stores : ℕ → AccountStore)
    (batches : List Fusion.Batch) (lost : List StateTransferRequest) (sys : Fusion.System) :
    Prop :=
  ∃ events sys₀, (∀ event ∈ events, event.Enough batches) ∧
    Fusion.System.run cfg batches (Fusion.System.initial partition stores) events = .ok sys₀ ∧
    Covers lost sys₀ sys

/-- The executors have done what `Fusion.System` does in some run on the same batches, and what
    each of their loops has read is what has come. -/
structure Inv (v : Backend) (known : Bytes → Prop) (cfg : Fusion.Settings)
    (partition : Fusion.Partition) (stores : ℕ → AccountStore) (batches : List Fusion.Batch)
    (sent : List (List (ℕ × PrimaryWorkerMessage PublicKey Digest))) (lossless : Prop)
    (x : Execution PublicKey Digest) : Prop where
  dispatch : ∃ events, (∀ event ∈ events, event.InPlay known) ∧
    (lossless → ∀ event ∈ events, ¬ event.Loses) ∧
    exec (Dispatch.step v sent) Dispatch.initial events = some x.dispatch
  read : ∀ e, (x.loops e).read ≤ (x.dispatch.received e).length
  loops : ∀ e ∈ v.executors,
    (x.loops e).Sound batches (arrivedOf ((x.dispatch.received e).take (x.loops e).read))
  system : Attained cfg partition stores batches x.lost x.system
  failed : x.failed = none

variable {v : Backend} {known : Bytes → Prop} {cfg : Fusion.Settings}
  {partition : Fusion.Partition} {stores : ℕ → AccountStore} {batches : List Fusion.Batch}
  {sent : List (List (ℕ × PrimaryWorkerMessage PublicKey Digest))} {lossless : Prop}
  {digests : List Digest} {x x' : Execution PublicKey Digest} {e : ℕ}

theorem inv_initial : Inv v known cfg partition stores batches sent lossless
    (initial partition stores) where
  dispatch := ⟨[], by simp, by simp, rfl⟩
  read e := Nat.zero_le _
  loops e he := Or.inr Loop.going_initial
  system := ⟨[], _, by simp, rfl, covers_refl _⟩
  failed := rfl

/-- A further step succeeds. -/
theorem exists_step (hadm : Fusion.Admissible cfg partition stores batches)
    {events : List Fusion.Event} {sys : Fusion.System}
    (hall : ∀ event ∈ events, event.Enough batches)
    (hrun : Fusion.System.run cfg batches (Fusion.System.initial partition stores) events = .ok sys)
    (event : Fusion.Event) (henough : event.Enough batches) :
    ∃ sys', Fusion.System.step cfg batches sys event = .ok sys' ∧
      (∀ event' ∈ events ++ [event], event'.Enough batches) ∧
      Fusion.System.run cfg batches (Fusion.System.initial partition stores) (events ++ [event]) =
        .ok sys' := by
  have hall' : ∀ event' ∈ events ++ [event], event'.Enough batches := by
    intro event' hmem
    rcases List.mem_append.mp hmem with hmem | hmem
    · exact hall event' hmem
    · rw [List.mem_singleton.mp hmem]
      exact henough
  obtain ⟨-, sys', -, hok, -⟩ := Fusion.reach cfg partition stores batches hadm _ hall'
  exact ⟨sys', (Fusion.System.run_snoc hrun event).symm.trans hok, hall', hok⟩

/-- A further step of the executors succeeds, whatever is lost. -/
theorem Inv.extend (hi : Inv v known cfg partition stores batches sent lossless x)
    (hadm : Fusion.Admissible cfg partition stores batches) (event : Fusion.Event)
    (henough : event.Enough batches) :
    ∃ sys, Fusion.System.step cfg batches x.system event = .ok sys ∧
      Attained cfg partition stores batches x.lost sys := by
  obtain ⟨events, sys₀, hall, hrun, hcovers⟩ := hi.system
  by_cases hevent : ∃ i, event = .deliver i
  · obtain ⟨i, rfl⟩ := hevent
    obtain ⟨j, t, t', ht, ht', hcovers'⟩ := hcovers.deliver cfg batches i
    obtain ⟨sys, hstep, hall', hrun'⟩ := exists_step hadm hall hrun (.deliver j) trivial
    obtain rfl := Except.ok.inj (hstep.symm.trans ht)
    exact ⟨t', ht', _, sys, hall', hrun', hcovers'⟩
  · obtain ⟨sys, hstep, hall', hrun'⟩ := exists_step hadm hall hrun event henough
    obtain ⟨sys', hstep', hcovers'⟩ := hcovers.step (fun i he => hevent ⟨i, he⟩) hstep
    exact ⟨sys', hstep', _, sys, hall', hrun', hcovers'⟩

theorem Inv.dispatched (hi : Inv v known cfg partition stores batches sent lossless x)
    {event : DispatchEvent Digest} (hplay : event.InPlay known)
    (hlossless : lossless → ¬ event.Loses)
    {s : Dispatch PublicKey Digest} (h : x.dispatch.step v sent event = some s) :
    Inv v known cfg partition stores batches sent lossless { x with dispatch := s } where
  dispatch := by
    obtain ⟨events, hall, hnone, hrun⟩ := hi.dispatch
    refine ⟨events ++ [event], fun event' hmem => ?_, fun hl event' hmem => ?_, exec_snoc hrun h⟩
    · rcases List.mem_append.mp hmem with hmem | hmem
      · exact hall event' hmem
      · rw [List.mem_singleton.mp hmem]
        exact hplay
    · rcases List.mem_append.mp hmem with hmem | hmem
      · exact hnone hl event' hmem
      · rw [List.mem_singleton.mp hmem]
        exact hlossless hl
  read e := (hi.read e).trans (received_grows h e).length_le
  loops e he := by
    obtain ⟨more, hmore⟩ := received_grows h e
    show (x.loops e).Sound batches (arrivedOf ((s.received e).take (x.loops e).read))
    rw [← hmore, List.take_append_of_le_length (hi.read e)]
    exact hi.loops e he
  system := hi.system
  failed := hi.failed

/-- One loop goes on, and the executors with it. -/
theorem Inv.loop (hi : Inv v known cfg partition stores batches sent lossless x) {l : Loop}
    (hx : x'.dispatch = x.dispatch ∧ x'.loops = Function.update x.loops e l ∧
      x'.failed = x.failed)
    (hread : l.read ≤ (x.dispatch.received e).length)
    (hl : l.Sound batches (arrivedOf ((x.dispatch.received e).take l.read)))
    (hsystem : Attained cfg partition stores batches x'.lost x'.system) :
    Inv v known cfg partition stores batches sent lossless x' where
  dispatch := hx.1 ▸ hi.dispatch
  read e' := by
    rw [hx.1, hx.2.1]
    by_cases he : e' = e
    · subst he
      rw [Function.update_self]
      exact hread
    · rw [Function.update_of_ne he]
      exact hi.read e'
  loops e' he' := by
    rw [hx.1, hx.2.1]
    by_cases he : e' = e
    · subst he
      rw [Function.update_self]
      exact hl
    · rw [Function.update_of_ne he]
      exact hi.loops e' he'
  system := hsystem
  failed := hx.2.2 ▸ hi.failed

omit [LinearOrder Digest] [AsBytes Digest] [Sha512 Digest] in
theorem taken_update {l : Loop} (e : ℕ) :
    (fun e' => (Function.update x.loops e l e').taken) =
      Function.update x.system.taken e l.taken := by
  funext e'
  by_cases he : e' = e
  · subst he
    rw [Function.update_self, Function.update_self]
  · rw [Function.update_of_ne he, Function.update_of_ne he]
    rfl

/-- An executor takes a message. -/
theorem Inv.receive (hi : Inv v known cfg partition stores batches sent lossless x)
    (hcollision : CollisionFree Digest known)
    (hnumbered : executes sent.flatten = digests.zipIdx)
    (hc : Contents v.bincode known digests batches) (he : e ∈ v.executors)
    (hphase : (x.loops e).phase = .waiting) {message : WorkerToExecutorMessage}
    (hmessage : (x.dispatch.received e)[(x.loops e).read]? = some message) :
    Inv v known cfg partition stores batches sent lossless { x with
      loops := Function.update x.loops e
        ((x.loops e).receive message.dispatch.1 message.dispatch.2) } := by
  obtain ⟨hlt, hget⟩ := List.getElem?_eq_some_iff.mp hmessage
  obtain ⟨events, hplay, -, hrun⟩ := hi.dispatch
  obtain ⟨hnodup, hassigned, -⟩ := messages_of_run hcollision hnumbered hc hplay hrun he
  have htake : (x.dispatch.received e).take ((x.loops e).read + 1) =
      (x.dispatch.received e).take (x.loops e).read ++ [message] := by
    rw [List.take_add_one, hmessage]
    rfl
  have hgoing : (x.loops e).Going batches
      (arrivedOf ((x.dispatch.received e).take (x.loops e).read)) :=
    (hi.loops e he).going (by simp [hphase])
  have harrived : arrivedOf ((x.dispatch.received e).take ((x.loops e).read + 1)) =
      arrivedOf ((x.dispatch.received e).take (x.loops e).read) ++ [message.dispatch.1] := by
    rw [htake]
    exact List.map_append
  have hnew : message.dispatch.1 ∉ arrivedOf ((x.dispatch.received e).take (x.loops e).read) := by
    have hsub : (arrivedOf ((x.dispatch.received e).take ((x.loops e).read + 1))).Nodup :=
      hnodup.sublist ((List.take_sublist _ _).map _)
    rw [harrived] at hsub
    exact fun hmem => (List.nodup_append.mp hsub).2.2 _ hmem _ (List.mem_singleton_self _) rfl
  refine hi.loop (e := e) ⟨rfl, rfl, rfl⟩ ?_ ?_ ?_
  · rw [Loop.read_receive]
    exact hlt
  · rw [Loop.read_receive, harrived]
    exact hgoing.receive hphase hnew (hassigned message (List.mem_of_getElem? hmessage))
  · have hsame : ({ x with
        loops := Function.update x.loops e
          ((x.loops e).receive message.dispatch.1 message.dispatch.2) } :
        Execution PublicKey Digest).system = x.system := by
      unfold Execution.system
      dsimp only
      rw [taken_update, Loop.taken_receive hphase]
      exact congrArg (fun taken => (⟨x.executors, taken, x.network⟩ : Fusion.System))
        (Function.update_eq_self e x.system.taken)
    rw [hsame]
    exact hi.system

/-- An executor has come to a result of a step of `Fusion.System`. -/
theorem Inv.finish (hi : Inv v known cfg partition stores batches sent lossless x)
    {l : Loop} {s : Fusion.Executor} (hread : l.read = (x.loops e).read)
    (hl : l.Sound batches (arrivedOf ((x.dispatch.received e).take l.read)))
    (hsystem : Attained cfg partition stores batches x.lost { x.system.setExecutor e s with
      taken := Function.update x.system.taken e l.taken }) :
    Inv v known cfg partition stores batches sent lossless (x.finish e l (.ok s)) := by
  refine hi.loop (e := e) ⟨rfl, rfl, rfl⟩ (hread ▸ hi.read e) hl ?_
  have hsame : (x.finish e l (.ok s)).system = { x.system.setExecutor e s with
      taken := Function.update x.system.taken e l.taken } := by
    unfold Execution.system Execution.finish
    dsimp only
    rw [taken_update]
    rfl
  rw [hsame]
  exact hsystem

/-- An executor executes the next batch. -/
theorem Inv.execute (hi : Inv v known cfg partition stores batches sent lossless x)
    (hadm : Fusion.Admissible cfg partition stores batches) (he : e ∈ v.executors)
    (hlt : e < cfg.numExecutors) {batch : BufferedBatch}
    (hphase : (x.loops e).phase = .executing batch) (iter : Iteration) :
    Inv v known cfg partition stores batches sent lossless
      (x.finish e { x.loops e with phase := .processing }
        (executeFirst cfg iter batch (x.executors e))) := by
  have hgoing : (x.loops e).Going batches
      (arrivedOf ((x.dispatch.received e).take (x.loops e).read)) :=
    (hi.loops e he).going (by simp [hphase])
  have htaken : x.system.taken e = (x.loops e).nextSequence := by
    show (x.loops e).taken = _
    unfold Loop.taken
    rw [hphase]
  have hbatch : batches[x.system.taken e]? = some (toBatch batch) :=
    htaken ▸ hgoing.batch batch hphase
  obtain ⟨sys, hstep, hrun⟩ := hi.extend hadm (.batch e iter) trivial
  -- the step of `Fusion.System` is the same call
  have hcall : Fusion.System.step cfg batches x.system (.batch e iter) =
      (executeFirst cfg iter batch (x.executors e)).map fun s =>
        { x.system.setExecutor e s with
          taken := Function.update x.system.taken e (x.system.taken e + 1) } := by
    simp only [Fusion.System.step, if_pos hlt, hbatch, executeFirst]
    show (x.executors e).beginBatch cfg iter batch.transactions >>= _ = _
    cases (x.executors e).beginBatch cfg iter batch.transactions with
    | error p => rfl
    | ok r =>
        show Fusion.Executor.handleAll cfg batch.digest r.1 r.2 >>= _ =
          Except.map _ (Fusion.Executor.handleAll cfg batch.digest r.1 r.2)
        cases Fusion.Executor.handleAll cfg batch.digest r.1 r.2 <;> rfl
  rw [hcall] at hstep
  obtain ⟨s, hfirst, rfl⟩ := map_eq_ok.mp hstep
  rw [hfirst]
  refine hi.finish rfl (Or.inr (hgoing.processing hphase)) ?_
  rw [htaken] at hrun
  exact hrun

/-- An executor processes the transfers that have come, and goes on to the next batch. -/
theorem Inv.process (hi : Inv v known cfg partition stores batches sent lossless x)
    (hadm : Fusion.Admissible cfg partition stores batches) (he : e ∈ v.executors)
    (hlt : e < cfg.numExecutors) (hphase : (x.loops e).phase = .processing) {iter : Iteration}
    (henough : (Fusion.Event.process e iter).Enough batches) :
    Inv v known cfg partition stores batches sent lossless
      (x.finish e (x.loops e).advance ((x.executors e).processIncomingTransfers cfg iter)) := by
  have hgoing : (x.loops e).Going batches
      (arrivedOf ((x.dispatch.received e).take (x.loops e).read)) :=
    (hi.loops e he).going (by simp [hphase])
  have htaken : x.system.taken e = (x.loops e).advance.taken := by
    show (x.loops e).taken = _
    rw [Loop.taken_advance]
    unfold Loop.taken
    rw [hphase]
  have hread : (x.loops e).advance.read = (x.loops e).read := by
    unfold Loop.advance
    split <;> rfl
  obtain ⟨sys, hstep, hrun⟩ := hi.extend hadm (.process e iter) henough
  have hcall : Fusion.System.step cfg batches x.system (.process e iter) =
      ((x.executors e).processIncomingTransfers cfg iter).map (x.system.setExecutor e) := by
    simp only [Fusion.System.step, if_pos hlt]
    show (x.executors e).processIncomingTransfers cfg iter >>= _ = _
    cases (x.executors e).processIncomingTransfers cfg iter <;> rfl
  rw [hcall] at hstep
  obtain ⟨s, hresult, rfl⟩ := map_eq_ok.mp hstep
  rw [hresult]
  refine hi.finish hread (Or.inr ?_) ?_
  · rw [hread]
    exact hgoing.advance hphase
  · rw [← htaken, Function.update_eq_self]
    exact hrun

/-- The steps of the `StateHelper`s do not depend on the batches. -/
theorem step_exchange {event : Fusion.Event} {sys : Fusion.System}
    (hevent : (∃ e, event = .send e) ∨ ∃ i, event = .deliver i) :
    Fusion.System.step cfg batches sys event = Fusion.System.step cfg [] sys event := by
  rcases hevent with ⟨e, rfl⟩ | ⟨i, rfl⟩ <;> rfl

/-- They take no batch. -/
theorem taken_exchange {event : Fusion.Event} {sys sys' : Fusion.System}
    (hevent : (∃ e, event = .send e) ∨ ∃ i, event = .deliver i)
    (h : Fusion.System.step cfg [] sys event = .ok sys') : sys'.taken = sys.taken := by
  rcases hevent with ⟨e, rfl⟩ | ⟨i, rfl⟩
  · simp only [Fusion.System.step] at h
    split at h
    · split at h
      · exact Except.ok.inj h ▸ rfl
      · split at h
        · exact Except.ok.inj h ▸ rfl
        · cases h
    · exact Except.ok.inj h ▸ rfl
  · simp only [Fusion.System.step] at h
    split at h
    · exact Except.ok.inj h ▸ rfl
    · exact Except.ok.inj h ▸ rfl

theorem Inv.exchange (hi : Inv v known cfg partition stores batches sent lossless x)
    (hadm : Fusion.Admissible cfg partition stores batches) {event : Fusion.Event}
    (hevent : (∃ e, event = .send e) ∨ ∃ i, event = .deliver i) :
    Inv v known cfg partition stores batches sent lossless (x.exchange cfg event) := by
  have henough : event.Enough batches := by
    rcases hevent with ⟨e, rfl⟩ | ⟨i, rfl⟩ <;> trivial
  obtain ⟨sys, hstep, hrun⟩ := hi.extend hadm event henough
  rw [step_exchange hevent] at hstep
  have hsame : x.exchange cfg event =
      { x with executors := sys.executors, network := sys.network } := by
    unfold Execution.exchange
    rw [hstep]
  rw [hsame]
  refine ⟨hi.dispatch, hi.read, hi.loops, ?_, hi.failed⟩
  have hsystem : ({ x with executors := sys.executors, network := sys.network } :
      Execution PublicKey Digest).system = sys := by
    have htaken := taken_exchange hevent hstep
    unfold Execution.system at htaken ⊢
    dsimp only at htaken ⊢
    rw [← htaken]
  rw [hsystem]
  exact hrun

/-- The invariant is kept by every step. -/
theorem Inv.step (hi : Inv v known cfg partition stores batches sent lossless x)
    (hcollision : CollisionFree Digest known)
    (hnumbered : executes sent.flatten = digests.zipIdx)
    (hc : Contents v.bincode known digests batches)
    (hexecutors : ∀ e ∈ v.executors, e < cfg.numExecutors)
    (hadm : Fusion.Admissible cfg partition stores batches) {event : ExecutionEvent Digest}
    (hfits : event.Fits known batches) (hlossless : lossless → ¬ event.Loses)
    (h : x.step v cfg sent event = some x') :
    Inv v known cfg partition stores batches sent lossless x' := by
  cases event with
  | dispatch event =>
      obtain ⟨s, hs, rfl⟩ := Option.map_eq_some_iff.mp h
      exact hi.dispatched hfits hlossless hs
  | receive e =>
      simp only [Execution.step] at h
      split at h
      · rename_i message hphase hmessage
        split at h
        · rename_i he
          obtain rfl := Option.some.inj h
          exact hi.receive hcollision hnumbered hc he hphase hmessage
        · cases h
      · cases h
  | execute e iter =>
      simp only [Execution.step] at h
      split at h
      · rename_i batch hphase
        split at h
        · rename_i he
          obtain rfl := Option.some.inj h
          exact hi.execute hadm he (hexecutors e he) hphase iter
        · cases h
      · cases h
  | process e iter =>
      simp only [Execution.step] at h
      split at h
      · rename_i hphase
        split at h
        · rename_i he
          obtain rfl := Option.some.inj h
          exact hi.process hadm he (hexecutors e he) hphase hfits
        · cases h
      · cases h
  | send e =>
      obtain rfl := Option.some.inj h
      exact hi.exchange hadm (Or.inl ⟨e, rfl⟩)
  | deliver i =>
      obtain rfl := Option.some.inj h
      exact hi.exchange hadm (Or.inr ⟨i, rfl⟩)
  | loseTransfer i =>
      obtain ⟨message, hm, rfl⟩ := Option.map_eq_some_iff.mp h
      obtain ⟨events, sys₀, hall, hrun, hcovers⟩ := hi.system
      exact ⟨hi.dispatch, hi.read, hi.loops, ⟨events, sys₀, hall, hrun, hcovers.lose hm⟩,
        hi.failed⟩

variable (lossless) in
theorem inv_of_run (hcollision : CollisionFree Digest known)
    (hnumbered : executes sent.flatten = digests.zipIdx)
    (hc : Contents v.bincode known digests batches)
    (hexecutors : ∀ e ∈ v.executors, e < cfg.numExecutors)
    (hadm : Fusion.Admissible cfg partition stores batches)
    {events : List (ExecutionEvent Digest)} (hfits : ∀ event ∈ events, event.Fits known batches)
    (hlossless : lossless → ∀ event ∈ events, ¬ event.Loses)
    (h : exec (Execution.step v cfg sent) (initial partition stores) events = some x) :
    Inv v known cfg partition stores batches sent lossless x := by
  refine exec_invariant (I := fun events x => (∀ event ∈ events, event.Fits known batches) →
    (lossless → ∀ event ∈ events, ¬ event.Loses) →
      Inv v known cfg partition stores batches sent lossless x)
    (fun _ _ => inv_initial) (fun events x₁ event x₂ ih hstep hfits hlossless => ?_) h hfits
    hlossless
  have hlast : event ∈ events ++ [event] := List.mem_append_right _ (List.mem_singleton_self _)
  exact (ih (fun e he => hfits e (List.mem_append_left _ he))
    fun hl e he => hlossless hl e (List.mem_append_left _ he)).step hcollision hnumbered hc
      hexecutors hadm (hfits event hlast) (fun hl => hlossless hl event hlast) hstep

/-- When everything has come and been read, all batches have been executed. -/
theorem Inv.nextSequence_eq (hi : Inv v known cfg partition stores batches sent True x)
    (hcollision : CollisionFree Digest known)
    (hnumbered : executes sent.flatten = digests.zipIdx)
    (hc : Contents v.bincode known digests batches)
    (hparse : ∀ data, known data →
      ∃ transactions, v.bincode.deserialize data = some (.batch transactions))
    (hread : x.dispatch.read = sent.length) (hidle : x.dispatch.Idle) (he : e ∈ v.executors)
    (hall : (x.loops e).read = (x.dispatch.received e).length)
    (hphase : (x.loops e).phase = .waiting) : (x.loops e).nextSequence = batches.length := by
  obtain ⟨events, hplay, hnone, hrun⟩ := hi.dispatch
  obtain ⟨-, -, hcomplete⟩ := messages_of_run hcollision hnumbered hc hplay hrun he
  have hperm := hcomplete (hnone trivial) hparse hread hidle
  have hgoing : (x.loops e).Going batches (arrivedOf (x.dispatch.received e)) := by
    have hgoing := (hi.loops e he).going (by simp [hphase])
    rwa [hall, List.take_length] at hgoing
  have hmem : ∀ k, k ∈ arrivedOf (x.dispatch.received e) ↔ k < batches.length := fun k => by
    rw [hperm.mem_iff, List.mem_range]
  refine le_antisymm (Nat.le_of_not_lt fun hlt => ?_) (Nat.le_of_not_lt fun hlt => ?_)
  · exact lt_irrefl _ ((hmem _).mp (hgoing.taken _ hlt))
  · exact hgoing.missing hphase ((hmem _).mpr hlt)

/-- The account is in one place, with an executor or in a transfer that may be lost, and its state
    is what a first part of the transactions leaves. -/
def Shows (cfg : Fusion.Settings) (transactions : List Bytes) (store : AccountStore)
    (x : Execution PublicKey Digest) (a : ℕ) : Prop :=
  ∃ state k final, x.whole.copies cfg.numExecutors a = {state} ∧
    Fusion.executeAll (transactions.take k) store = .ok final ∧ final a = some state

/-- Nothing is left to do. -/
structure Done (v : Backend) (sent : List (List (ℕ × PrimaryWorkerMessage PublicKey Digest)))
    (x : Execution PublicKey Digest) : Prop where
  dispatched : x.dispatch.read = sent.length
  idle : x.dispatch.Idle
  read : ∀ e ∈ v.executors, (x.loops e).read = (x.dispatch.received e).length
  waiting : ∀ e ∈ v.executors, (x.loops e).phase = .waiting
  drained : ∀ e ∈ v.executors, ∀ a, ((x.executors e).pendingQueues a).getD [] = []

theorem Inv.shows (hi : Inv v known cfg partition stores batches sent lossless x)
    (hadm : Fusion.Admissible cfg partition stores batches) {a : ℕ} (ha : (partition a).isSome) :
    x.Shows cfg (Fusion.sequenceOf batches) (Fusion.unionStore partition stores) a := by
  obtain ⟨events, sys₀, henough, hsystem, hcovers⟩ := hi.system
  obtain ⟨σ, sys, h, hok, hinv, rfl, hstore, htasks⟩ :=
    Fusion.reach cfg partition stores batches hadm events henough
  obtain rfl : sys₀ = sys := Except.ok.inj (hsystem.symm.trans hok)
  obtain ⟨state, hstate⟩ :=
    Option.isSome_iff_exists.mp ((Fusion.Course.isSome_value (h.front a) a).mpr ha)
  refine ⟨state, h.front a, σ.value (h.front a), ?_, ?_, hstate⟩
  · exact (hcovers.copies _ a).symm.trans (hinv.copies_eq ha hstate)
  · rw [← htasks, ← hstore]
    exact Fusion.Course.executeAll_take _

/-- An account that does not exist has no queue. -/
theorem Inv.pendingQueues_eq_none (hi : Inv v known cfg partition stores batches sent lossless x)
    (hadm : Fusion.Admissible cfg partition stores batches) (he : e < cfg.numExecutors) {a : ℕ}
    (ha : partition a = none) : (x.executors e).pendingQueues a = none := by
  obtain ⟨events, sys₀, henough, hsystem, hcovers⟩ := hi.system
  have hnone := Fusion.pendingQueues_eq_none cfg partition stores batches hadm events henough sys₀
    hsystem he ha
  rwa [hcovers.executors] at hnone

/-- When nothing is left to do all transactions have been executed. -/
theorem Inv.executed (hi : Inv v known cfg partition stores batches sent True x)
    (hcollision : CollisionFree Digest known)
    (hnumbered : executes sent.flatten = digests.zipIdx)
    (hc : Contents v.bincode known digests batches)
    (hexecutors : ∀ e, e ∈ v.executors ↔ e < cfg.numExecutors)
    (hadm : Fusion.Admissible cfg partition stores batches)
    (hparse : ∀ data, known data →
      ∃ transactions, v.bincode.deserialize data = some (.batch transactions))
    (hdone : x.Done v sent) :
    ∃ final, Fusion.executeAll (Fusion.sequenceOf batches) (Fusion.unionStore partition stores) =
        .ok final ∧
      ∀ a state, (∃ e ∈ v.executors, (x.executors e).accountStore a = some state) ↔
        final a = some state := by
  obtain ⟨events, sys₀, henough, hsystem, hcovers⟩ := hi.system
  obtain ⟨σ, sys, h, hok, hinv, rfl, hstore, htasks⟩ :=
    Fusion.reach cfg partition stores batches hadm events henough
  obtain rfl : sys₀ = sys := Except.ok.inj (hsystem.symm.trans hok)
  have hprocessed : sys₀.Processed cfg.numExecutors batches.length := by
    intro e he
    rw [hcovers.taken]
    have hmem := (hexecutors e).mpr he
    have hphase := hdone.waiting e hmem
    have hnext := hi.nextSequence_eq hcollision hnumbered hc hparse hdone.dispatched hdone.idle
      hmem (hdone.read e hmem) hphase
    show (x.loops e).taken = _
    unfold Loop.taken
    rw [hphase]
    exact hnext
  have hqueues : ∀ e < cfg.numExecutors, ∀ a,
      ((sys₀.executors e).pendingQueues a).getD [] = [] := by
    rw [hcovers.executors]
    exact fun e he => hdone.drained e ((hexecutors e).mpr he)
  have hlen := Fusion.Course.length_tasks_of_map htasks
  refine ⟨σ.value σ.tasks.length, ?_, fun a state => ?_⟩
  · have hall := Fusion.Course.executeAll_take (σ := σ) σ.tasks.length
    rwa [htasks, hstore, hlen, List.take_length, ← hlen] at hall
  · rw [← hinv.stores_eq htasks hprocessed hqueues a state, hcovers.executors]
    exact exists_congr fun e => and_congr_left' (hexecutors e)

end Execution

/-- From consensus to the accounts: in every state that the executors of a validator reach,
    whatever is lost and in whatever order messages come, the state of every account is in one
    place, and is what some first part of the committed transactions leaves. No step panics but
    for a sync marker that comes too early and a buffer that is full. If no message is lost and
    nothing is left to do then the executors hold what executing all committed transactions one
    after the other leaves. -/
theorem committed_executed {Signature : Type} (u : Validator) (v : Backend)
    (known : Bytes → Prop) (hcollision : CollisionFree Digest known)
    (outputs : List (ConsensusOutput PublicKey Digest Signature))
    (sent : List (List (ℕ × PrimaryWorkerMessage PublicKey Digest)))
    (hsent : analyze u outputs = some sent) (cfg : Fusion.Settings)
    (hexecutors : ∀ e, e ∈ v.executors ↔ e < cfg.numExecutors) (partition : Fusion.Partition)
    (stores : ℕ → AccountStore) (batches : List Fusion.Batch)
    (hc : Contents v.bincode known (dispatchedFrom u 0 outputs) batches)
    (hadm : Fusion.Admissible cfg partition stores batches)
    (events : List (ExecutionEvent Digest)) (hfits : ∀ event ∈ events, event.Fits known batches)
    (x : Execution PublicKey Digest)
    (hrun : exec (Execution.step v cfg sent) (Execution.initial partition stores) events =
      some x) :
    x.failed = none ∧
    (∀ e ∈ v.executors, ∀ abort, (x.loops e).phase = .stopped abort →
      abort = .syncMarker ∨ abort = .bufferFull) ∧
    (∀ a, (partition a).isSome →
      x.Shows cfg (Fusion.sequenceOf batches) (Fusion.unionStore partition stores) a) ∧
    ((∀ event ∈ events, ¬ event.Loses) →
      (∀ data, known data →
        ∃ transactions, v.bincode.deserialize data = some (.batch transactions)) →
      x.Done v sent →
      ∃ final, Fusion.executeAll (Fusion.sequenceOf batches)
          (Fusion.unionStore partition stores) = .ok final ∧
        ∀ a state, (∃ e ∈ v.executors, (x.executors e).accountStore a = some state) ↔
          final a = some state) := by
  have hnumbered := executes_analyzeFrom hsent
  have hin : ∀ e ∈ v.executors, e < cfg.numExecutors := fun e he => (hexecutors e).mp he
  have hi := Execution.inv_of_run False hcollision hnumbered hc hin hadm hfits False.elim hrun
  refine ⟨hi.failed, fun e he abort hstop => ?_, fun a ha => hi.shows hadm ha,
    fun hnone hparse hdone => ?_⟩
  · rcases hi.loops e he with ⟨abort', hstop', hreason⟩ | hgoing
    · rw [hstop] at hstop'
      exact Phase.stopped.inj hstop' ▸ hreason
    · exact absurd hstop (hgoing.alive abort)
  · have hi' := Execution.inv_of_run True hcollision hnumbered hc hin hadm hfits
      (fun _ => hnone) hrun
    exact hi'.executed hcollision hnumbered hc hexecutors hadm hparse hdone

/-! ## Two validators -/

theorem isSome_partition {partition : Fusion.Partition} {stores : ℕ → AccountStore} {a : ℕ}
    (h : (Fusion.unionStore partition stores a).isSome) : (partition a).isSome := by
  obtain ⟨state, hstate⟩ := Option.isSome_iff_exists.mp h
  obtain ⟨e, he, -⟩ := Option.bind_eq_some_iff.mp hstate
  rw [he]
  rfl

omit [LinearOrder Digest] in
/-- Of more digests there are more batches. -/
theorem Contents.mono {bincode : Worker.Bincode} {known : Bytes → Prop}
    {digests digests' : List Digest} {batches batches' : List Fusion.Batch}
    (hcollision : CollisionFree Digest known) (hc : Contents bincode known digests batches)
    (hc' : Contents bincode known digests' batches') (hpre : digests <+: digests') :
    batches <+: batches' := by
  refine List.prefix_iff_eq_take.mpr (List.ext_getElem? fun k => ?_)
  rw [List.getElem?_take]
  split
  · rename_i hk
    rw [hc.length] at hk
    obtain ⟨more, rfl⟩ := hpre
    obtain ⟨data, transactions, hknown, hdigest, hparse, hget⟩ :=
      hc.content k digests[k] (List.getElem?_eq_getElem hk)
    rw [hget]
    refine (hc'.assigned hcollision ⟨data, transactions, hknown, ?_, hparse, ?_⟩).symm
    · rw [List.mk_mem_zipIdx_iff_getElem?, List.getElem?_append_left hk,
        List.getElem?_eq_getElem hk, hdigest]
    · rw [hdigest]
  · rename_i hk
    exact List.getElem?_eq_none (Nat.le_of_not_lt hk)

omit [LinearOrder Digest] [AsBytes Digest] [Sha512 Digest] in
/-- The state that transactions leave is also what a first part of more transactions leaves. -/
theorem Execution.Shows.mono {cfg : Fusion.Settings} {transactions transactions' : List Bytes}
    {store : AccountStore} {x : Execution PublicKey Digest} {a : ℕ}
    (hpre : transactions <+: transactions') (h : x.Shows cfg transactions store a) :
    x.Shows cfg transactions' store a := by
  obtain ⟨state, k, final, hcopies, hfinal, hstate⟩ := h
  refine ⟨state, min k transactions.length, final, hcopies, ?_, hstate⟩
  rw [← hfinal, List.prefix_iff_eq_take.mp hpre, List.take_take, List.length_take]
  congr 2
  have := hpre.length_le
  omega

/-- Validators agree: two validators whose outputs of consensus are comparable, with other numbers
    of executors and other partitions, whatever is lost on the way and in whatever order their
    tasks take steps, at all times hold states of an account that belong to the same sequence of
    transactions. When both are through with the same outputs and have lost nothing then they
    hold the same accounts. -/
theorem validators_agree {Signature : Type} (u u' : Validator) (v v' : Backend)
    (hbincode : v.bincode = v'.bincode) (known : Bytes → Prop)
    (hcollision : CollisionFree Digest known)
    (outputs outputs' : List (ConsensusOutput PublicKey Digest Signature))
    (hpre : outputs <+: outputs')
    (hworkers : ∀ k certificate, outputs[k]? = some (.certificate certificate) →
      workersFor u k certificate = workersFor u' k certificate)
    (sent sent' : List (List (ℕ × PrimaryWorkerMessage PublicKey Digest)))
    (hsent : analyze u outputs = some sent) (hsent' : analyze u' outputs' = some sent')
    (cfg cfg' : Fusion.Settings) (hexecutors : ∀ e, e ∈ v.executors ↔ e < cfg.numExecutors)
    (hexecutors' : ∀ e, e ∈ v'.executors ↔ e < cfg'.numExecutors)
    (partition partition' : Fusion.Partition) (stores stores' : ℕ → AccountStore)
    (hsame : Fusion.unionStore partition stores = Fusion.unionStore partition' stores')
    (batches batches' : List Fusion.Batch)
    (hc : Contents v.bincode known (dispatchedFrom u 0 outputs) batches)
    (hc' : Contents v'.bincode known (dispatchedFrom u' 0 outputs') batches')
    (hadm : Fusion.Admissible cfg partition stores batches)
    (hadm' : Fusion.Admissible cfg' partition' stores' batches')
    (events events' : List (ExecutionEvent Digest))
    (hfits : ∀ event ∈ events, event.Fits known batches)
    (hfits' : ∀ event ∈ events', event.Fits known batches')
    (x x' : Execution PublicKey Digest)
    (hrun : exec (Execution.step v cfg sent) (Execution.initial partition stores) events = some x)
    (hrun' : exec (Execution.step v' cfg' sent') (Execution.initial partition' stores') events' =
      some x') :
    (∀ a, (Fusion.unionStore partition stores a).isSome →
      x.Shows cfg (Fusion.sequenceOf batches') (Fusion.unionStore partition stores) a ∧
      x'.Shows cfg' (Fusion.sequenceOf batches') (Fusion.unionStore partition stores) a) ∧
    (outputs = outputs' → (∀ event ∈ events, ¬ event.Loses) →
      (∀ event ∈ events', ¬ event.Loses) →
      (∀ data, known data →
        ∃ transactions, v.bincode.deserialize data = some (.batch transactions)) →
      x.Done v sent → x'.Done v' sent' →
      ∀ a state, (∃ e ∈ v.executors, (x.executors e).accountStore a = some state) ↔
        ∃ e ∈ v'.executors, (x'.executors e).accountStore a = some state) := by
  have hnumbered := executes_analyzeFrom hsent
  have hnumbered' := executes_analyzeFrom hsent'
  have hin : ∀ e ∈ v.executors, e < cfg.numExecutors := fun e he => (hexecutors e).mp he
  have hin' : ∀ e ∈ v'.executors, e < cfg'.numExecutors := fun e he => (hexecutors' e).mp he
  have hbatches : batches <+: batches' :=
    hc.mono hcollision (hbincode ▸ hc') (prefix_dispatched hpre hworkers)
  refine ⟨fun a ha => ⟨?_, ?_⟩, fun heq hnone hnone' hparse hdone hdone' a state => ?_⟩
  · have hi := Execution.inv_of_run False hcollision hnumbered hc hin hadm hfits False.elim hrun
    exact (hi.shows hadm (isSome_partition ha)).mono (hbatches.flatMap _)
  · have hi := Execution.inv_of_run False hcollision hnumbered' hc' hin' hadm' hfits' False.elim
      hrun'
    rw [hsame] at ha ⊢
    exact hi.shows hadm' (isSome_partition ha)
  · have hi := Execution.inv_of_run True hcollision hnumbered hc hin hadm hfits (fun _ => hnone)
      hrun
    have hi' := Execution.inv_of_run True hcollision hnumbered' hc' hin' hadm' hfits'
      (fun _ => hnone') hrun'
    obtain ⟨final, hfinal, hall⟩ :=
      hi.executed hcollision hnumbered hc hexecutors hadm hparse hdone
    obtain ⟨final', hfinal', hall'⟩ :=
      hi'.executed hcollision hnumbered' hc' hexecutors' hadm' (hbincode ▸ hparse) hdone'
    -- as many batches, so the same ones
    have hlength : batches.length = batches'.length := by
      subst heq
      rw [hc.length, hc'.length, dispatched_congr hworkers]
    obtain rfl := hbatches.eq_of_length hlength
    rw [hsame] at hfinal
    obtain rfl := Except.ok.inj (hfinal.symm.trans hfinal')
    exact (hall a state).trans (hall' a state).symm

/-! ## A payment between two executors

A batch with a payment from account 0 to account 1 is committed. Executor 1 sends its account to
executor 0, which executes the payment. -/

section Sample

open Toy NumberSample
open DispatchSample (backend)
open Fusion.AgreementSample (settings partition payment owned_partition wellFormed_payment)
open Fusion.SerialSample (stores isSome_stores iteration)
open Worker.PipelineSample (bincode)

namespace ExecutionSample

def data : Bytes := bincode.serialize [payment]

def digest : ℕ := Sha512.sha512 data

def decided : List (ConsensusOutput ℕ ℕ Unit) :=
  [.certificate (certificate ((∅ : OrdMap ℕ ℕ).insert digest 0))]

def sent : List (List (ℕ × PrimaryWorkerMessage ℕ ℕ)) := (analyze oneFirst decided).getD []

def batches : List Fusion.Batch := [⟨AsBytes.asRef digest, [payment]⟩]

def events : List (ExecutionEvent ℕ) :=
  [.dispatch .output, .dispatch (.write 0 data), .dispatch (.commandArrives 0),
    .dispatch (.commandArrives 0), .dispatch (.read 0), .dispatch (.broadcast 0),
    .dispatch (.batchArrives 1), .receive 1, .execute 1 iteration, .send 1, .process 1 iteration,
    .dispatch (.batchArrives 0), .receive 0, .execute 0 iteration, .deliver 0,
    .process 0 iteration]

def final : Execution ℕ ℕ :=
  (exec (Execution.step backend settings sent) (.initial partition stores) events).getD
    (.initial partition stores)

theorem analyze_sent : analyze oneFirst decided = some sent :=
  eq_some_of_isSome _ (by decide +kernel)

theorem run_final :
    exec (Execution.step backend settings sent) (.initial partition stores) events =
      some final :=
  eq_some_of_isSome _ (by decide +kernel)

theorem mem_executors (e : ℕ) : e ∈ backend.executors ↔ e < settings.numExecutors := by
  show e ∈ [0, 1] ↔ e < 2
  rw [List.mem_pair]
  omega

theorem contents :
    Contents bincode (· = data) (dispatchedFrom oneFirst 0 decided) batches := by
  have hdigests : dispatchedFrom oneFirst 0 decided = [digest] := by decide +kernel
  have hparse : bincode.deserialize data = some (.batch [payment]) :=
    bincode.batch _ (by decide) (by decide)
  rw [hdigests]
  refine ⟨rfl, fun k d hd => ?_⟩
  cases k with
  | zero =>
      obtain rfl : digest = d := Option.some.inj hd
      exact ⟨data, [payment], rfl, rfl, hparse, rfl⟩
  | succ k => cases hd

theorem admissible : Fusion.Admissible settings partition stores batches where
  owned := owned_partition
  stores := isSome_stores
  wellFormed b hb tx htx := by
    rw [List.mem_singleton.mp hb] at htx
    rw [List.mem_singleton.mp htx]
    exact wellFormed_payment
  distinct := List.nodup_singleton _

theorem fits : ∀ event ∈ events, event.Fits (· = data) batches := by
  have hlen : (Fusion.sequenceOf batches).length = 1 := rfl
  unfold events
  simp [ExecutionEvent.Fits, DispatchEvent.InPlay, Fusion.Event.Enough, hlen, iteration]

theorem collisionFree : CollisionFree ℕ (· = data) := fun _ _ hx hy _ => hx.trans hy.symm

theorem lossless : ∀ event ∈ events, ¬ event.Loses := by
  unfold events
  simp [ExecutionEvent.Loses, DispatchEvent.Loses]

theorem parses (bytes : Bytes) (h : bytes = data) :
    ∃ transactions, bincode.deserialize bytes = some (.batch transactions) :=
  ⟨[payment], h ▸ bincode.batch _ (by decide) (by decide)⟩

theorem done_final : final.Done backend sent where
  dispatched := by decide +kernel
  idle := by
    unfold Dispatch.Idle
    decide +kernel
  read := by decide +kernel
  waiting := by decide +kernel
  drained e he a := by
    have htwo : ∀ e ∈ backend.executors, ∀ a < 2,
        ((final.executors e).pendingQueues a).getD [] = [] := by
      decide +kernel
    by_cases ha : a < 2
    · exact htwo e he a ha
    · have hi := Execution.inv_of_run False collisionFree (executes_analyzeFrom analyze_sent)
        contents (fun e he => (mem_executors e).mp he) admissible fits False.elim run_final
      rw [hi.pendingQueues_eq_none admissible ((mem_executors e).mp he) (if_neg ha)]
      rfl

end ExecutionSample

open ExecutionSample

example : ((final.executors 0).executed.length, (final.loops 0).nextSequence) = (1, 1) := by
  decide +kernel

theorem committed_executed_sample :
    final.failed = none ∧
    (∀ e ∈ backend.executors, ∀ abort, (final.loops e).phase = .stopped abort →
      abort = .syncMarker ∨ abort = .bufferFull) ∧
    (∀ a, (partition a).isSome → final.Shows settings (Fusion.sequenceOf batches)
      (Fusion.unionStore partition stores) a) ∧
    ∃ store, Fusion.executeAll (Fusion.sequenceOf batches)
        (Fusion.unionStore partition stores) = .ok store ∧
      ∀ a state, (∃ e ∈ backend.executors, (final.executors e).accountStore a = some state) ↔
        store a = some state := by
  obtain ⟨hfailed, hstopped, hshows, hexecuted⟩ :=
    committed_executed oneFirst backend (· = data) collisionFree decided sent analyze_sent settings
      mem_executors partition stores batches contents admissible events fits final run_final
  exact ⟨hfailed, hstopped, hshows, hexecuted lossless parses done_final⟩

/-- One validator is done, the other one has not begun. -/
theorem validators_agree_sample :
    final.Shows settings (Fusion.sequenceOf batches) (Fusion.unionStore partition stores) 0 ∧
      (Execution.initial partition stores : Execution ℕ ℕ).Shows settings
        (Fusion.sequenceOf batches) (Fusion.unionStore partition stores) 0 :=
  (validators_agree oneFirst oneFirst backend backend rfl (· = data) collisionFree decided decided
    List.prefix_rfl (fun _ _ _ => rfl) sent sent analyze_sent analyze_sent settings settings
    mem_executors mem_executors partition partition stores stores rfl batches batches contents
    contents admissible admissible events [] fits (by simp) final (.initial partition stores)
    run_final rfl).1 0 (by decide)

end Sample

end DagBft.Node
