/-
  The strict sequence order of a `BatchExecutor` (`process_execute` in
  `worker/src/batch_executor.rs`, the dispatch of its messages in `worker/src/executor.rs`):
  batches that come too early are kept in a reorder buffer.

  What happens besides the messages of the router is an environment: the transfers that
  the `StateHelper` has put into the shared map when a batch is executed, and the orders in
  which that execution goes through its hash maps. `batches` logs the calls of
  `execute_batch`. The receiver of the feedback is taken to be there.
-/
import DagBft.Fusion.Executor
import DagBft.Lib.Reorder

namespace DagBft.Fusion

open Worker

/-- Messages from the router. -/
inductive WorkerToExecutorMessage
  | execute (digest : Bytes) (sequence : ℕ) (transactions : List Bytes)
  /-- The batch with this number is empty. -/
  | sequenceSync (sequence : ℕ)
deriving DecidableEq

/-- Buffered batch waiting for its sequence number to be executed. -/
structure BufferedBatch where
  digest : Bytes
  transactions : List Bytes
deriving DecidableEq

/-- `Digest::default`. -/
def defaultDigest : Bytes := List.replicate 32 0

namespace WorkerToExecutorMessage

/-- `ExecutorReceiverHandler::dispatch`: the number and the batch. -/
def dispatch : WorkerToExecutorMessage → ℕ × BufferedBatch
  | execute digest sequence transactions => (sequence, ⟨digest, transactions⟩)
  | sequenceSync sequence => (sequence, ⟨defaultDigest, []⟩)

end WorkerToExecutorMessage

/-- `transactions.is_empty() && digest == Digest::default()`. -/
def BufferedBatch.isSyncMarker (b : BufferedBatch) : Bool :=
  b.transactions.isEmpty && b.digest = defaultDigest

/-- Why a `BatchExecutor` stops. -/
inductive Abort
  /-- `execute_batch` panics. -/
  | batch (p : Panic)
  /-- A sync marker comes too early. -/
  | syncMarker
  /-- The buffer exceeds its limit. -/
  | bufferFull
  /-- A batch with a past sequence number. -/
  | pastSequence
deriving DecidableEq, Repr

/-- What else a batch meets when it is executed, by sequence number. -/
structure Environment where
  cfg : Settings
  iter : ℕ → Iteration
  arrivals : ℕ → List StateTransfer

/-- Flow control feedback interval. -/
def feedbackInterval : ℕ := 100

def bufferLimit : ℕ := 5000

/-- The executor with what `process_execute` keeps besides the buffer. -/
structure BatchExecutor where
  executor : Executor
  lastFeedbackSent : ℕ
  txFeedback : List (ℕ × ℕ)
  batches : List (ℕ × BufferedBatch)

namespace BatchExecutor

variable (env : Environment)

def executeBatch (sequence : ℕ) (batch : BufferedBatch) (executor : Executor) :
    Except Panic Executor :=
  Executor.executeBatch env.cfg (env.iter sequence)
    { executor with
      incomingTransfers := (env.arrivals sequence).foldl TransferMap.push
        executor.incomingTransfers }
    batch.digest batch.transactions

def sendFeedbackIfNeeded (s : BatchExecutor) (nextSequence : ℕ) : BatchExecutor :=
  if s.lastFeedbackSent + feedbackInterval ≤ nextSequence - 1 then
    { s with
      txFeedback := s.txFeedback ++ [(s.executor.executorId, nextSequence - 1)]
      lastFeedbackSent := nextSequence - 1 }
  else s

/-- `execute_batch`, and the feedback for the number after it. -/
def take (sequence : ℕ) (batch : BufferedBatch) (s : BatchExecutor) :
    Except Abort BatchExecutor :=
  match executeBatch env sequence batch s.executor with
  | .error p => .error (.batch p)
  | .ok executor =>
      .ok (sendFeedbackIfNeeded
        { s with executor := executor, batches := s.batches ++ [(sequence, batch)] }
        (sequence + 1))

/-- `process_execute` refuses sync markers that come too early, and past numbers. -/
def rules : ReorderRules BatchExecutor BufferedBatch Abort where
  take := take env
  -- `panic!`: the router always broadcasts the full batch
  early batch := if batch.isSyncMarker then some .syncMarker else none
  limit := bufferLimit
  full := .bufferFull
  -- `unreachable!`
  past := some .pastSequence

def processExecute (s : Reorder BatchExecutor BufferedBatch) (sequence : ℕ)
    (batch : BufferedBatch) : Except Abort (Reorder BatchExecutor BufferedBatch) :=
  s.accept (rules env) sequence batch

/-- `run`, on the messages received. -/
def run (messages : List WorkerToExecutorMessage) (s : Reorder BatchExecutor BufferedBatch) :
    Except Abort (Reorder BatchExecutor BufferedBatch) :=
  messages.foldlM (fun s message => processExecute env s message.dispatch.1 message.dispatch.2) s

/-- A `BatchExecutor` that is spawned. -/
def spawn (executor : Executor) : Reorder BatchExecutor BufferedBatch :=
  Reorder.initial ⟨executor, 0, [], []⟩

/-! ## Execution in order -/

/-- The first `n` batches are executed one after the other. -/
def executeBatches (batches : ℕ → BufferedBatch) (n : ℕ) (executor : Executor) :
    Except Panic Executor :=
  (List.range n).foldlM (fun executor k => executeBatch env k (batches k) executor) executor

variable {env} {batches : ℕ → BufferedBatch} {executor : Executor}

theorem executeBatches_succ (n : ℕ) : executeBatches env batches (n + 1) executor =
    executeBatches env batches n executor >>= executeBatch env n (batches n) := by
  unfold executeBatches
  rw [List.range_succ, List.foldlM_append]
  congr 1
  funext s
  rw [List.foldlM_cons]
  cases executeBatch env n (batches n) s <;> rfl

@[simp]
theorem sendFeedbackIfNeeded_executor (s : BatchExecutor) (n : ℕ) :
    (s.sendFeedbackIfNeeded n).executor = s.executor := by
  unfold sendFeedbackIfNeeded
  split <;> rfl

@[simp]
theorem sendFeedbackIfNeeded_batches (s : BatchExecutor) (n : ℕ) :
    (s.sendFeedbackIfNeeded n).batches = s.batches := by
  unfold sendFeedbackIfNeeded
  split <;> rfl

variable (env executor) in
/-- Taking the batches in order fails only if executing them does. -/
theorem inOrder_cases (n : ℕ) :
    (∃ s, Reorder.inOrder (rules env) batches n ⟨executor, 0, [], []⟩ = .ok s ∧
        executeBatches env batches n executor = .ok s.executor ∧
        s.batches = (List.range n).map fun k => (k, batches k)) ∨
      ∃ e p, Reorder.inOrder (rules env) batches n ⟨executor, 0, [], []⟩ = .error e ∧
        executeBatches env batches n executor = .error p := by
  induction n with
  | zero => exact Or.inl ⟨_, rfl, rfl, rfl⟩
  | succ n ih =>
      rw [Reorder.inOrder_succ, executeBatches_succ]
      rcases ih with ⟨s, hs, hexec, hlog⟩ | ⟨e, p, he, hp⟩
      · rw [hs, hexec]
        show (∃ s', take env n (batches n) s = .ok s' ∧
            executeBatch env n (batches n) s.executor = .ok s'.executor ∧ _) ∨
          ∃ e p, take env n (batches n) s = .error e ∧
            executeBatch env n (batches n) s.executor = .error p
        unfold take
        cases hbatch : executeBatch env n (batches n) s.executor with
        | error p => exact Or.inr ⟨_, _, rfl, rfl⟩
        | ok executor' =>
            refine Or.inl ⟨_, rfl, by simp, ?_⟩
            rw [sendFeedbackIfNeeded_batches, hlog, List.range_succ, List.map_append]
            rfl
      · rw [he, hp]
        exact Or.inr ⟨e, p, rfl, rfl⟩

/-! ## Any order of arrival -/

/-- What the router sends for a sequence number. -/
inductive Assignment
  | execute (digest : Bytes) (transactions : List Bytes)
  | sequenceSync
deriving DecidableEq

namespace Assignment

def message (sequence : ℕ) : Assignment → WorkerToExecutorMessage
  | execute digest transactions => .execute digest sequence transactions
  | sequenceSync => .sequenceSync sequence

def batch : Assignment → BufferedBatch
  | execute digest transactions => ⟨digest, transactions⟩
  | sequenceSync => ⟨defaultDigest, []⟩

theorem dispatch_message (sequence : ℕ) (a : Assignment) :
    (a.message sequence).dispatch = (sequence, a.batch) := by
  cases a <;> rfl

end Assignment

/-- The messages with these numbers, in this order. -/
def arriving (assigned : ℕ → Assignment) (order : List ℕ) : List WorkerToExecutorMessage :=
  order.map fun k => (assigned k).message k

theorem run_arriving (assigned : ℕ → Assignment) (order : List ℕ)
    (s : Reorder BatchExecutor BufferedBatch) :
    run env (arriving assigned order) s =
      Reorder.acceptAll (rules env) (fun k => (assigned k).batch) order s := by
  unfold run arriving Reorder.acceptAll
  rw [List.foldlM_map]
  congr 1
  funext s k
  rw [Assignment.dispatch_message]
  rfl

/-- The executor does not stop, executes each batch once and in the order of the sequence
    numbers, and ends up as it does if the messages come in order. -/
def ExecutesInOrder (env : Environment) (assigned : ℕ → Assignment) (n : ℕ) (order : List ℕ)
    (executor : Executor) : Prop :=
  ∃ s, run env (arriving assigned order) (spawn executor) = .ok s ∧
    run env (arriving assigned (List.range n)) (spawn executor) = .ok s ∧
    s.state.batches = (List.range n).map fun k => (k, (assigned k).batch)

/-- No sync marker comes before a message of a lower number. -/
def NoEarlyMarker (assigned : ℕ → Assignment) (order : List ℕ) : Prop :=
  ∀ pre k post, order = pre ++ k :: post → (assigned k).batch.isSyncMarker = true →
    ∀ j < k, j ∈ pre

theorem early_eq_none_iff {batch : BufferedBatch} :
    (rules env).early batch = none ↔ batch.isSyncMarker = false := by
  show (if batch.isSyncMarker then some Abort.syncMarker else none) = none ↔ _
  cases batch.isSyncMarker <;> simp

/-- In the order of the numbers nothing comes too early. -/
theorem mem_of_range_eq {n k : ℕ} {pre post : List ℕ} (h : List.range n = pre ++ k :: post)
    {j : ℕ} (hj : j < k) : j ∈ pre := by
  have hk : k < n := List.mem_range.mp (h ▸ by simp)
  have hmem : j ∈ pre ++ k :: post := h ▸ List.mem_range.mpr (by omega)
  have hsorted : (pre ++ k :: post).Pairwise (· < ·) := h ▸ List.pairwise_lt_range
  rcases List.mem_append.mp hmem with hpre | hpost
  · exact hpre
  · rcases List.mem_cons.mp hpost with rfl | hpost
    · exact absurd hj (lt_irrefl j)
    · have := (List.pairwise_cons.mp (List.pairwise_append.mp hsorted).2.1).1 j hpost
      omega

/-- The numbers that came before one of a lower number, which are in the buffer. -/
abbrev waiting (arrived : List ℕ) : List ℕ := Reorder.waiting arrived

/-- A run in any order that does not overflow the buffer executes the batches in order
    exactly if no sync marker comes too early and no batch makes `execute_batch` panic. -/
theorem executesInOrder_iff (env : Environment) (assigned : ℕ → Assignment) (n : ℕ)
    (order : List ℕ) (executor : Executor) (hperm : order.Perm (List.range n))
    (hroom : ∀ pre k post, order = pre ++ k :: post → (∃ j < k, j ∉ pre) →
      (waiting pre).length < bufferLimit) :
    ExecutesInOrder env assigned n order executor ↔ NoEarlyMarker assigned order ∧
      ∃ s, executeBatches env (fun k => (assigned k).batch) n executor = .ok s := by
  have hnodup : order.Nodup := hperm.nodup_iff.mpr List.nodup_range
  unfold ExecutesInOrder
  simp only [run_arriving]
  constructor
  · rintro ⟨s, horder, hrange, -⟩
    refine ⟨fun pre k post he hmarker j hj => ?_, ?_⟩
    · by_contra hnot
      have hnone := (Reorder.pending_of_acceptAll hnodup horder).2 pre k post he ⟨j, hj, hnot⟩
      rw [early_eq_none_iff, hmarker] at hnone
      cases hnone
    · obtain ⟨hp, -⟩ := Reorder.pending_of_acceptAll List.nodup_range hrange
      obtain ⟨-, -, hstate⟩ := hp.complete (List.Perm.refl _)
      rcases inOrder_cases env executor n with
        ⟨s', -, hexec, -⟩ | ⟨e, p, he, -⟩
      · exact ⟨_, hexec⟩
      · rw [hstate] at he
        cases he
  · rintro ⟨hmarker, sfinal, hexec⟩
    have htake : ∃ s, Reorder.inOrder (rules env) (fun k => (assigned k).batch) n
        ⟨executor, 0, [], []⟩ = .ok s ∧
        s.batches = (List.range n).map fun k => (k, (assigned k).batch) := by
      rcases inOrder_cases env executor n with
        ⟨s, hs, -, hlog⟩ | ⟨e, p, -, hp⟩
      · exact ⟨s, hs, hlog⟩
      · rw [hexec] at hp
        cases hp
    obtain ⟨s, hs, hlog⟩ := htake
    -- a run of all messages that refuses none ends where the run in order ends
    have key : ∀ l : List ℕ, l.Perm (List.range n) →
        (∀ pre k post, l = pre ++ k :: post → (∃ j < k, j ∉ pre) →
          (rules env).early (assigned k).batch = none ∧
            (waiting pre).length < (rules env).limit) →
        Reorder.acceptAll (rules env) (fun k => (assigned k).batch) l (spawn executor) =
          .ok ⟨s, n, ∅⟩ := by
      intro l hl hearly
      have hnodup : l.Nodup := hl.nodup_iff.mpr List.nodup_range
      obtain ⟨b, hb⟩ := Reorder.acceptAll_ok hnodup hearly fun k hk =>
        Reorder.inOrder_of_le (List.mem_range.mp (hl.mem_iff.mp hk)) hs
      obtain ⟨hnext, hbuffer, hstate⟩ :=
        (Reorder.pending_of_acceptAll hnodup hb).1.complete hl
      obtain rfl := Except.ok.inj (hs.symm.trans hstate)
      refine hb.trans ?_
      rw [← hnext, ← hbuffer]
    refine ⟨⟨s, n, ∅⟩, key order hperm fun pre k post he hearly => ⟨?_, hroom pre k post he hearly⟩,
      key _ (List.Perm.refl _) fun pre k post he hearly => ?_, hlog⟩
    · rw [early_eq_none_iff, Bool.eq_false_iff]
      intro hm
      obtain ⟨j, hj, hnot⟩ := hearly
      exact hnot (hmarker pre k post he hm j hj)
    · obtain ⟨j, hj, hnot⟩ := hearly
      exact absurd (mem_of_range_eq he hj) hnot

section Sample

namespace SequenceSample

theorem perm_self (_ : ℕ) (l : List (ℕ × ℕ)) : l.Perm l := List.Perm.refl l

def iteration : Iteration where
  votes _ l := l
  transfers l := l
  picks _ := 0
  fuel := 10
  votes_perm := perm_self
  transfers_perm l := List.Perm.refl l

/-- One executor, nothing arrives from others. -/
def environment : Environment := ⟨⟨1, false, fun _ => none⟩, fun _ => iteration, fun _ => []⟩

/-- The executor owns all accounts, and has the state of account 0. -/
def soleExecutor : Executor :=
  ⟨0, fun a => if a = 0 then some ⟨100, 100⟩ else none, fun _ => some 0, fun _ => none, ∅, ∅, [],
    [], []⟩

/-- A deposit into account 0: type 1 at offset 26. -/
def deposit : Bytes := List.replicate 26 0 ++ [1] ++ List.replicate 8 0

def firstMessage : Assignment := .execute [1] [deposit]

def assigned (last : Assignment) (k : ℕ) : Assignment := if k = 0 then firstMessage else last

/-- Number 1 comes before number 0. -/
def swapped : List ℕ := [1, 0]

theorem room (pre : List ℕ) (k : ℕ) (post : List ℕ) (h : swapped = pre ++ k :: post) :
    (waiting pre).length < bufferLimit := by
  have hlen : pre.length < 2 := by
    have := congrArg List.length h
    rw [List.length_append, List.length_cons] at this
    show pre.length < swapped.length
    omega
  have hle : (waiting pre).length ≤ pre.length := List.length_filter_le _ _
  show (waiting pre).length < 5000
  omega

end SequenceSample

open SequenceSample

theorem executesInOrder_iff_sample :
    ExecutesInOrder environment (assigned (.execute [2] [deposit])) 2 swapped soleExecutor ↔
      NoEarlyMarker (assigned (.execute [2] [deposit])) swapped ∧
        ∃ s, executeBatches environment (fun k => (assigned (.execute [2] [deposit]) k).batch) 2
          soleExecutor = .ok s :=
  executesInOrder_iff environment (assigned (.execute [2] [deposit])) 2 swapped soleExecutor
    (by decide) fun pre k post h _ => room pre k post h

/-- A sync marker that comes too early stops the executor. -/
theorem early_marker_stops :
    ¬ ∀ (env : Environment) (assigned : ℕ → Assignment) (n : ℕ) (order : List ℕ)
        (executor : Executor), order.Perm (List.range n) →
        (∀ pre k post, order = pre ++ k :: post → (∃ j < k, j ∉ pre) →
          (waiting pre).length < bufferLimit) →
        (∃ s, executeBatches env (fun k => (assigned k).batch) n executor = .ok s) →
          ExecutesInOrder env assigned n order executor := by
  intro h
  obtain ⟨s, hs, -⟩ := h environment (assigned .sequenceSync) 2 swapped soleExecutor (by decide)
    (fun pre k post he _ => room pre k post he) ⟨_, rfl⟩
  have herror : run environment (arriving (assigned .sequenceSync) swapped) (spawn soleExecutor) =
      .error .syncMarker := rfl
  rw [herror] at hs
  cases hs

end Sample

end BatchExecutor

end DagBft.Fusion
