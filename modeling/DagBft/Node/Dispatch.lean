/-
  The way of a batch from the output of consensus to the executors of a validator: the primary
  numbers it and sends it to a worker (`analyze`), the `Router` of the worker reads it from the
  storage and sends it to all executors (`worker/src/router.rs`), and each executor takes the
  batches in the order of their numbers (`process_execute`).

  The connections are of `SimpleSender`s: messages may be lost, and those of different workers
  come in any order. What the storage of a worker holds at a time is left open, but that each
  batch is stored under its digest.

  `executed_in_order`: whatever is lost, every executor executes the batches that were numbered,
  in the order of the numbers; if nothing is lost it executes all of them. `executed_agree`: two
  executors, of one validator or of two that number alike, execute the same.
-/
import DagBft.Fusion.Sequence
import DagBft.Lib.Runs
import DagBft.Node.Analyze
import DagBft.Worker.Pipeline

namespace DagBft.Node

open Fusion (WorkerToExecutorMessage BufferedBatch BatchExecutor Abort)
open Fusion.BatchExecutor (rules spawn processExecute)

/-- What a validator has behind `analyze`: the executors that its `Router`s know. -/
structure Backend where
  executors : List ℕ
  nodup : executors.Nodup
  bincode : Worker.Bincode

variable (PublicKey Digest : Type)

/-- Command from the primary to execute a committed batch, and the worker it is for. -/
structure ExecuteCommand where
  worker : ℕ
  digest : Digest
  sequence : ℕ
deriving DecidableEq

structure Dispatch where
  /-- How many outputs of consensus the primary has dispatched. -/
  read : ℕ
  toWorkers : List (ℕ × PrimaryWorkerMessage PublicKey Digest)
  /-- `rx_execute` of all workers. -/
  rxExecute : List (ExecuteCommand Digest)
  store : ℕ → Digest → Option Bytes
  /-- What the `Router`s have read and not yet sent on. -/
  inHand : List (ExecuteCommand Digest × Bytes)
  toExecutors : List (ℕ × WorkerToExecutorMessage)
  /-- What each executor has received. -/
  received : ℕ → List WorkerToExecutorMessage

inductive DispatchEvent
  /-- The primary dispatches the next output. -/
  | output
  | loseCommand (i : ℕ)
  /-- Message `i` to the workers arrives. -/
  | commandArrives (i : ℕ)
  /-- A batch is stored by a worker. -/
  | write (worker : ℕ) (data : Bytes)
  /-- The worker deletes a batch. -/
  | delete (worker : ℕ) (digest : Digest)
  /-- The `Router` of a worker reads the next batch, for which it may have waited. -/
  | read (worker : ℕ)
  /-- It sends the batch on. -/
  | broadcast (worker : ℕ)
  | loseBatch (i : ℕ)
  /-- Message `i` to the executors arrives. -/
  | batchArrives (i : ℕ)

variable {PublicKey Digest}

namespace Dispatch

def initial : Dispatch PublicKey Digest where
  read := 0
  toWorkers := []
  rxExecute := []
  store _ _ := none
  inHand := []
  toExecutors := []
  received _ := []

/-- `PrimaryReceiverHandler`: what is not for the `Router` is for the `Synchronizer`. -/
def receive (s : Dispatch PublicKey Digest) (worker : ℕ) :
    PrimaryWorkerMessage PublicKey Digest → Dispatch PublicKey Digest
  | .execute digest _ sequence =>
      { s with rxExecute := s.rxExecute ++ [⟨worker, digest, sequence⟩] }
  | .committedBatches _ _ | .migrationNotices _ => s

variable [LinearOrder Digest] [AsBytes Digest] [Sha512 Digest]

/-- What the `Router` sends of a batch. -/
def routed (digest : Digest) (sequence : ℕ) (transactions : List Bytes) :
    WorkerToExecutorMessage :=
  if transactions.isEmpty then .sequenceSync sequence
  else .execute (AsBytes.asRef digest) sequence transactions

/-- Broadcast to all executors. What is no batch is only logged. -/
def broadcast (v : Backend) (command : ExecuteCommand Digest) (data : Bytes) :
    List (ℕ × WorkerToExecutorMessage) :=
  match v.bincode.deserialize data with
  | some (.batch transactions) =>
      v.executors.map fun e => (e, routed command.digest command.sequence transactions)
  | _ => []

/-- One step, `none` if it cannot be taken. -/
def step (v : Backend) (sent : List (List (ℕ × PrimaryWorkerMessage PublicKey Digest)))
    (s : Dispatch PublicKey Digest) : DispatchEvent Digest → Option (Dispatch PublicKey Digest)
  | .output => sent[s.read]?.map fun messages =>
      { s with read := s.read + 1, toWorkers := s.toWorkers ++ messages }
  | .loseCommand i => s.toWorkers[i]?.map fun _ =>
      { s with toWorkers := s.toWorkers.eraseIdx i }
  | .commandArrives i => s.toWorkers[i]?.map fun x =>
      { s with toWorkers := s.toWorkers.eraseIdx i }.receive x.1 x.2
  | .write worker data => some { s with
      store := Function.update s.store worker
        (Function.update (s.store worker) (Sha512.sha512 data) (some data)) }
  | .delete worker digest => some { s with
      store := Function.update s.store worker (Function.update (s.store worker) digest none) }
  | .read worker =>
      match s.rxExecute.find? fun command => command.worker = worker with
      | none => none
      | some command =>
          match s.store worker command.digest with
          | none => none
          | some data =>
              if ∃ x ∈ s.inHand, x.1.worker = worker then none
              else some { s with
                rxExecute := s.rxExecute.erase command
                inHand := s.inHand ++ [(command, data)] }
  | .broadcast worker =>
      (s.inHand.find? fun x => x.1.worker = worker).map fun x => { s with
        inHand := s.inHand.erase x
        toExecutors := s.toExecutors ++ broadcast v x.1 x.2 }
  | .loseBatch i => s.toExecutors[i]?.map fun _ =>
      { s with toExecutors := s.toExecutors.eraseIdx i }
  | .batchArrives i => s.toExecutors[i]?.map fun x => { s with
      toExecutors := s.toExecutors.eraseIdx i
      received := Function.update s.received x.1 (s.received x.1 ++ [x.2]) }

end Dispatch

/-- Nothing is on its way. -/
def Dispatch.Idle (s : Dispatch PublicKey Digest) : Prop :=
  s.toWorkers = [] ∧ s.rxExecute = [] ∧ s.inHand = [] ∧ s.toExecutors = []

/-- What is stored is in play. -/
def DispatchEvent.InPlay (known : Bytes → Prop) : DispatchEvent Digest → Prop
  | .write _ data => known data
  | _ => True

/-- The messages of this step are lost. -/
def DispatchEvent.Loses : DispatchEvent Digest → Prop
  | .loseCommand _ | .loseBatch _ => True
  | _ => False

variable [AsBytes Digest]

/-- What an executor gets for a batch: of an empty one only its number. -/
def batchOf (digest : Digest) (transactions : List Bytes) : BufferedBatch :=
  if transactions.isEmpty then ⟨Fusion.defaultDigest, []⟩ else ⟨AsBytes.asRef digest, transactions⟩

theorem dispatch_routed (digest : Digest) (sequence : ℕ) (transactions : List Bytes) :
    (Dispatch.routed digest sequence transactions).dispatch =
      (sequence, batchOf digest transactions) := by
  unfold Dispatch.routed batchOf
  split <;> rfl

variable [Sha512 Digest]

/-- The batch that the executors get for a number. -/
def Assigned (bincode : Worker.Bincode) (known : Bytes → Prop) (commands : List (Digest × ℕ))
    (sequence : ℕ) (batch : BufferedBatch) : Prop :=
  ∃ data transactions, known data ∧ (Sha512.sha512 data, sequence) ∈ commands ∧
    bincode.deserialize data = some (.batch transactions) ∧
    batch = batchOf (Sha512.sha512 data : Digest) transactions

/-! ## Where a number is -/

section Numbers

variable {α : Type} {f : α → Option ℕ}

/-- The numbers that the elements of a list have. -/
def numbers (f : α → Option ℕ) (l : List α) : Multiset ℕ := (l.filterMap f : List ℕ)

@[simp]
theorem numbers_nil : numbers f [] = 0 := rfl

theorem numbers_append (l l' : List α) : numbers f (l ++ l') = numbers f l + numbers f l' := by
  unfold numbers
  rw [List.filterMap_append]
  rfl

theorem numbers_singleton (x : α) : numbers f [x] = ((f x).toList : Multiset ℕ) := by
  unfold numbers
  cases hf : f x with
  | none => rw [List.filterMap_cons_none hf]; rfl
  | some n => rw [List.filterMap_cons_some hf]; rfl

theorem numbers_perm {l l' : List α} (h : l.Perm l') : numbers f l = numbers f l' :=
  Multiset.coe_eq_coe.mpr (h.filterMap f)

theorem numbers_eraseIdx {l : List α} {i : ℕ} {x : α} (h : l[i]? = some x) :
    numbers f l = numbers f [x] + numbers f (l.eraseIdx i) := by
  obtain ⟨hlt, rfl⟩ := List.getElem?_eq_some_iff.mp h
  rw [← numbers_append]
  exact numbers_perm (List.getElem_cons_eraseIdx_perm hlt).symm

theorem numbers_erase [BEq α] [LawfulBEq α] {l : List α} {x : α} (h : x ∈ l) :
    numbers f l = numbers f [x] + numbers f (l.erase x) := by
  rw [← numbers_append]
  exact numbers_perm (List.perm_cons_erase h)

end Numbers

/-- The number that a message to a worker carries. -/
def commandNumber (x : ℕ × PrimaryWorkerMessage PublicKey Digest) : Option ℕ :=
  x.2.executed.map Prod.snd

/-- The number of a message, if it is for this executor. -/
def batchNumber (e : ℕ) (x : ℕ × WorkerToExecutorMessage) : Option ℕ :=
  if x.1 = e then some x.2.dispatch.1 else none

namespace Dispatch

/-- The numbers of the batches that are on their way to an executor. -/
def underway (s : Dispatch PublicKey Digest) (e : ℕ) : Multiset ℕ :=
  numbers commandNumber s.toWorkers + numbers (fun x => some x.sequence) s.rxExecute +
    numbers (fun x => some x.1.sequence) s.inHand + numbers (batchNumber e) s.toExecutors

/-- The invariant, for the batches `items` that the numbers stand for: every number that was
    sent is on its way to an executor, has arrived there, or is lost. -/
structure Inv (v : Backend) (known : Bytes → Prop)
    (sent : List (List (ℕ × PrimaryWorkerMessage PublicKey Digest))) (items : ℕ → BufferedBatch)
    (lossless : Prop) (s : Dispatch PublicKey Digest) : Prop where
  toWorkers : ∀ x ∈ s.toWorkers, x ∈ sent.flatten
  rxExecute : ∀ x ∈ s.rxExecute, (x.digest, x.sequence) ∈ executes sent.flatten
  store : ∀ worker digest data, s.store worker digest = some data →
    known data ∧ Sha512.sha512 data = digest
  inHand : ∀ x ∈ s.inHand, (x.1.digest, x.1.sequence) ∈ executes sent.flatten ∧ known x.2 ∧
    Sha512.sha512 x.2 = x.1.digest
  toExecutors : ∀ x ∈ s.toExecutors,
    Assigned v.bincode known (executes sent.flatten) x.2.dispatch.1 x.2.dispatch.2
  executors : ∀ e ∈ v.executors, ∃ (arrived : List ℕ) (lost : Multiset ℕ),
    s.underway e + arrived + lost =
      numbers commandNumber (sent.take s.read).flatten ∧
    (∀ k ∈ arrived, Assigned v.bincode known (executes sent.flatten) k (items k)) ∧
    (s.received e).map WorkerToExecutorMessage.dispatch = arrived.map (fun k => (k, items k)) ∧
    (lossless → lost = 0)

variable {v : Backend} {known : Bytes → Prop}
  {sent : List (List (ℕ × PrimaryWorkerMessage PublicKey Digest))} {items : ℕ → BufferedBatch}
  {lossless : Prop} {s s' : Dispatch PublicKey Digest}

theorem inv_initial : Inv v known sent items lossless initial where
  toWorkers x hx := absurd hx List.not_mem_nil
  rxExecute x hx := absurd hx List.not_mem_nil
  store worker digest data hd := absurd hd (by simp [initial])
  inHand x hx := absurd hx List.not_mem_nil
  toExecutors x hx := absurd hx List.not_mem_nil
  executors e he := ⟨[], 0, rfl, fun k hk => absurd hk List.not_mem_nil, rfl, fun _ => rfl⟩

/-- What stays as it is when a message moves on. -/
theorem Inv.moved (hi : Inv v known sent items lossless s)
    (hread : s'.read = s.read) (hreceived : s'.received = s.received)
    (htoWorkers : ∀ x ∈ s'.toWorkers, x ∈ s.toWorkers)
    (hrxExecute : ∀ x ∈ s'.rxExecute, (x.digest, x.sequence) ∈ executes sent.flatten)
    (hstore : ∀ worker digest data, s'.store worker digest = some data →
      known data ∧ Sha512.sha512 data = digest)
    (hinHand : ∀ x ∈ s'.inHand, (x.1.digest, x.1.sequence) ∈ executes sent.flatten ∧
      known x.2 ∧ Sha512.sha512 x.2 = x.1.digest)
    (htoExecutors : ∀ x ∈ s'.toExecutors,
      Assigned v.bincode known (executes sent.flatten) x.2.dispatch.1 x.2.dispatch.2)
    (hmove : ∀ e ∈ v.executors, ∃ lost, s.underway e = s'.underway e + lost ∧
      (lossless → lost = 0)) : Inv v known sent items lossless s' where
  toWorkers x hx := hi.toWorkers x (htoWorkers x hx)
  rxExecute := hrxExecute
  store := hstore
  inHand := hinHand
  toExecutors := htoExecutors
  executors e he := by
    obtain ⟨arrived, lost, hsum, hassigned, hexec, hlossless⟩ := hi.executors e he
    obtain ⟨more, hsame, hnone⟩ := hmove e he
    refine ⟨arrived, lost + more, ?_, hassigned, hreceived ▸ hexec, fun h => ?_⟩
    · rw [hread, ← hsum, hsame]
      abel
    · rw [hlossless h, hnone h, add_zero]

/-- A message to a worker is in one piece with its command. -/
theorem Inv.commanded (hi : Inv v known sent items lossless s) {worker target sequence : ℕ}
    {digest : Digest} (hx : (worker, .execute digest target sequence) ∈ s.toWorkers) :
    (digest, sequence) ∈ executes sent.flatten :=
  List.mem_filterMap.mpr ⟨_, hi.toWorkers _ hx, rfl⟩

theorem Inv.commandArrives (hi : Inv v known sent items lossless s) {i : ℕ}
    {x : ℕ × PrimaryWorkerMessage PublicKey Digest} (hx : s.toWorkers[i]? = some x) :
    Inv v known sent items lossless
      ({ s with toWorkers := s.toWorkers.eraseIdx i }.receive x.1 x.2) := by
  have hmem : x ∈ s.toWorkers := List.mem_of_getElem? hx
  obtain ⟨worker, message⟩ := x
  have hmove := fun e : ℕ => numbers_eraseIdx (f := commandNumber) hx
  cases message with
  | execute digest target sequence =>
      refine hi.moved rfl rfl (fun x hx => List.mem_of_mem_eraseIdx hx) (fun x hx => ?_) hi.store
        hi.inHand hi.toExecutors fun e he => ⟨0, ?_, fun _ => rfl⟩
      · rcases List.mem_append.mp hx with hx | hx
        · exact hi.rxExecute x hx
        · rw [List.mem_singleton.mp hx]
          exact hi.commanded hmem
      · unfold underway receive
        dsimp only
        rw [numbers_append, hmove e, numbers_singleton, numbers_singleton]
        unfold commandNumber PrimaryWorkerMessage.executed
        dsimp only [Option.map_some, Option.toList_some]
        abel
  | committedBatches round digests =>
      refine hi.moved rfl rfl (fun x hx => List.mem_of_mem_eraseIdx hx) hi.rxExecute hi.store
        hi.inHand hi.toExecutors fun e he => ⟨0, ?_, fun _ => rfl⟩
      unfold underway receive
      dsimp only
      rw [hmove e, numbers_singleton, add_zero]
      exact congrArg (fun n => n + _ + _ + _) (zero_add _)
  | migrationNotices notices =>
      refine hi.moved rfl rfl (fun x hx => List.mem_of_mem_eraseIdx hx) hi.rxExecute hi.store
        hi.inHand hi.toExecutors fun e he => ⟨0, ?_, fun _ => rfl⟩
      unfold underway receive
      dsimp only
      rw [hmove e, numbers_singleton, add_zero]
      exact congrArg (fun n => n + _ + _ + _) (zero_add _)

theorem Inv.output (hi : Inv v known sent items lossless s)
    {messages : List (ℕ × PrimaryWorkerMessage PublicKey Digest)}
    (hm : sent[s.read]? = some messages) : Inv v known sent items lossless
      { s with read := s.read + 1, toWorkers := s.toWorkers ++ messages } where
  toWorkers x hx := by
    rcases List.mem_append.mp hx with hx | hx
    · exact hi.toWorkers x hx
    · exact List.mem_flatten.mpr ⟨messages, List.mem_of_getElem? hm, hx⟩
  rxExecute := hi.rxExecute
  store := hi.store
  inHand := hi.inHand
  toExecutors := hi.toExecutors
  executors e he := by
    obtain ⟨arrived, lost, hsum, hassigned, hexec, hlossless⟩ := hi.executors e he
    refine ⟨arrived, lost, ?_, hassigned, hexec, hlossless⟩
    have htake : sent.take (s.read + 1) = sent.take s.read ++ [messages] := by
      rw [List.take_add_one, hm]
      rfl
    dsimp only
    rw [htake, List.flatten_append, List.flatten_singleton, numbers_append, ← hsum]
    unfold underway
    dsimp only
    rw [numbers_append]
    abel

theorem Inv.loseCommand (hi : Inv v known sent items lossless s) {i : ℕ}
    {x : ℕ × PrimaryWorkerMessage PublicKey Digest} (hx : s.toWorkers[i]? = some x)
    (hlossy : ¬ lossless) : Inv v known sent items lossless
      { s with toWorkers := s.toWorkers.eraseIdx i } := by
  refine hi.moved rfl rfl (fun x hx => List.mem_of_mem_eraseIdx hx) hi.rxExecute hi.store
    hi.inHand hi.toExecutors fun e he => ⟨numbers commandNumber [x], ?_, fun h => absurd h hlossy⟩
  unfold underway
  dsimp only
  rw [numbers_eraseIdx hx]
  abel

theorem Inv.loseBatch (hi : Inv v known sent items lossless s) {i : ℕ}
    {x : ℕ × WorkerToExecutorMessage} (hx : s.toExecutors[i]? = some x)
    (hlossy : ¬ lossless) : Inv v known sent items lossless
      { s with toExecutors := s.toExecutors.eraseIdx i } := by
  refine hi.moved rfl rfl (fun x hx => hx) hi.rxExecute hi.store hi.inHand
    (fun x hx => hi.toExecutors x (List.mem_of_mem_eraseIdx hx))
    fun e he => ⟨numbers (batchNumber e) [x], ?_, fun h => absurd h hlossy⟩
  unfold underway
  dsimp only
  rw [numbers_eraseIdx hx]
  abel

theorem Inv.batchArrives (hi : Inv v known sent items lossless s) {i : ℕ}
    (hitems : ∀ k batch, Assigned v.bincode known (executes sent.flatten) k batch →
      items k = batch)
    {x : ℕ × WorkerToExecutorMessage} (hx : s.toExecutors[i]? = some x) :
    Inv v known sent items lossless { s with
      toExecutors := s.toExecutors.eraseIdx i
      received := Function.update s.received x.1 (s.received x.1 ++ [x.2]) } where
  toWorkers := hi.toWorkers
  rxExecute := hi.rxExecute
  store := hi.store
  inHand := hi.inHand
  toExecutors x hx := hi.toExecutors x (List.mem_of_mem_eraseIdx hx)
  executors e he := by
    obtain ⟨arrived, lost, hsum, hassigned, hexec, hlossless⟩ := hi.executors e he
    have hbatch := hi.toExecutors x (List.mem_of_getElem? hx)
    unfold underway at hsum ⊢
    rw [numbers_eraseIdx hx, numbers_singleton] at hsum
    by_cases h : x.1 = e
    · subst h
      refine ⟨arrived ++ [x.2.dispatch.1], lost, ?_, fun k hk => ?_, ?_, hlossless⟩
      · rw [← hsum, ← Multiset.coe_add]
        unfold batchNumber
        rw [if_pos rfl]
        dsimp only [Option.toList_some]
        abel
      · rcases List.mem_append.mp hk with hk | hk
        · exact hassigned k hk
        · rw [List.mem_singleton.mp hk, hitems _ _ hbatch]
          exact hbatch
      · dsimp only
        rw [Function.update_self, List.map_append, List.map_append, hexec, List.map_singleton,
          List.map_singleton, hitems _ _ hbatch]
    · refine ⟨arrived, lost, ?_, hassigned, ?_, hlossless⟩
      · rw [← hsum]
        unfold batchNumber
        rw [if_neg h]
        dsimp only [Option.toList_none]
        rw [Multiset.coe_nil, zero_add]
      · dsimp only
        rw [Function.update_of_ne (Ne.symm h)]
        exact hexec

omit [AsBytes Digest] [Sha512 Digest] in
/-- Of a broadcast each executor gets one message. -/
theorem numbers_broadcast (v : Backend) {e : ℕ} (he : e ∈ v.executors)
    (message : WorkerToExecutorMessage) :
    numbers (batchNumber e) (v.executors.map fun e => (e, message)) = {message.dispatch.1} := by
  have key : ∀ {l : List ℕ}, l.Nodup → numbers (batchNumber e) (l.map fun e => (e, message)) =
      if e ∈ l then {message.dispatch.1} else 0 := by
    intro l hl
    induction l with
    | nil => rfl
    | cons e' l ih =>
        obtain ⟨hnot, hl⟩ := List.nodup_cons.mp hl
        rw [List.map_cons, ← List.singleton_append, numbers_append, numbers_singleton, ih hl]
        unfold batchNumber
        dsimp only
        by_cases h : e' = e
        · subst h
          rw [if_pos rfl, if_neg hnot, if_pos List.mem_cons_self]
          rfl
        · rw [if_neg h, Option.toList_none]
          refine (zero_add _).trans (if_congr ?_ rfl rfl)
          rw [List.mem_cons]
          exact (or_iff_right fun he => h he.symm).symm
  rw [key v.nodup, if_pos he]

variable [LinearOrder Digest]

theorem Inv.write (hi : Inv v known sent items lossless s) (worker : ℕ) {data : Bytes}
    (hdata : known data) : Inv v known sent items lossless { s with
      store := Function.update s.store worker
        (Function.update (s.store worker) (Sha512.sha512 data) (some data)) } := by
  refine hi.moved rfl rfl (fun x hx => hx) hi.rxExecute (fun w digest d hd => ?_) hi.inHand
    hi.toExecutors fun e he => ⟨0, (add_zero _).symm, fun _ => rfl⟩
  dsimp only at hd
  by_cases hw : w = worker
  · subst hw
    rw [Function.update_self] at hd
    by_cases hdigest : digest = Sha512.sha512 data
    · subst hdigest
      rw [Function.update_self] at hd
      obtain rfl := Option.some.inj hd
      exact ⟨hdata, rfl⟩
    · rw [Function.update_of_ne hdigest] at hd
      exact hi.store w digest d hd
  · rw [Function.update_of_ne hw] at hd
    exact hi.store w digest d hd

theorem Inv.delete (hi : Inv v known sent items lossless s) (worker : ℕ) (digest : Digest) :
    Inv v known sent items lossless { s with
      store := Function.update s.store worker (Function.update (s.store worker) digest none) } := by
  refine hi.moved rfl rfl (fun x hx => hx) hi.rxExecute (fun w d data hd => ?_) hi.inHand
    hi.toExecutors fun e he => ⟨0, (add_zero _).symm, fun _ => rfl⟩
  dsimp only at hd
  by_cases hw : w = worker
  · subst hw
    rw [Function.update_self] at hd
    by_cases hdigest : d = digest
    · subst hdigest
      rw [Function.update_self] at hd
      cases hd
    · rw [Function.update_of_ne hdigest] at hd
      exact hi.store w d data hd
  · rw [Function.update_of_ne hw] at hd
    exact hi.store w d data hd

theorem Inv.read (hi : Inv v known sent items lossless s) {worker : ℕ}
    {command : ExecuteCommand Digest} {data : Bytes} (hcommand : command ∈ s.rxExecute)
    (hdata : s.store worker command.digest = some data) : Inv v known sent items lossless { s with
      rxExecute := s.rxExecute.erase command
      inHand := s.inHand ++ [(command, data)] } := by
  refine hi.moved rfl rfl (fun x hx => hx) (fun x hx => hi.rxExecute x (List.mem_of_mem_erase hx))
    hi.store (fun x hx => ?_) hi.toExecutors fun e he => ⟨0, ?_, fun _ => rfl⟩
  · rcases List.mem_append.mp hx with hx | hx
    · exact hi.inHand x hx
    · rw [List.mem_singleton.mp hx]
      exact ⟨hi.rxExecute command hcommand, hi.store worker command.digest data hdata⟩
  · unfold underway
    dsimp only
    rw [numbers_erase hcommand, numbers_append, numbers_singleton, numbers_singleton]
    dsimp only
    abel

theorem Inv.broadcast (hi : Inv v known sent items lossless s)
    {x : ExecuteCommand Digest × Bytes} (hx : x ∈ s.inHand)
    (hbatch : lossless → ∃ transactions, v.bincode.deserialize x.2 = some (.batch transactions)) :
    Inv v known sent items lossless { s with
      inHand := s.inHand.erase x
      toExecutors := s.toExecutors ++ Dispatch.broadcast v x.1 x.2 } := by
  obtain ⟨hcommand, hknown, hdigest⟩ := hi.inHand x hx
  refine hi.moved rfl rfl (fun x hx => hx) hi.rxExecute hi.store
    (fun x hx => hi.inHand x (List.mem_of_mem_erase hx)) (fun m hm => ?_) fun e he => ?_
  · rcases List.mem_append.mp hm with hm | hm
    · exact hi.toExecutors m hm
    · unfold Dispatch.broadcast at hm
      split at hm
      · rename_i transactions hparse
        obtain ⟨e, -, rfl⟩ := List.mem_map.mp hm
        dsimp only
        rw [dispatch_routed]
        exact ⟨x.2, transactions, hknown, hdigest ▸ hcommand, hparse, by rw [hdigest]⟩
      · exact absurd hm List.not_mem_nil
  · unfold underway
    dsimp only
    rw [numbers_erase hx, numbers_append, numbers_singleton]
    by_cases hparse : ∃ transactions, v.bincode.deserialize x.2 = some (.batch transactions)
    · obtain ⟨transactions, hparse⟩ := hparse
      refine ⟨0, ?_, fun _ => rfl⟩
      unfold Dispatch.broadcast
      rw [hparse]
      dsimp only
      rw [numbers_broadcast v he, dispatch_routed]
      dsimp only [Option.toList_some]
      rw [Multiset.coe_singleton]
      abel
    · refine ⟨{x.1.sequence}, ?_, fun h => absurd (hbatch h) hparse⟩
      have hnone : Dispatch.broadcast v x.1 x.2 = [] := by
        unfold Dispatch.broadcast
        split
        · rename_i transactions h
          exact absurd ⟨transactions, h⟩ hparse
        · rfl
      rw [hnone, numbers_nil]
      dsimp only [Option.toList_some]
      rw [Multiset.coe_singleton]
      abel

/-- The invariant is kept by every step. -/
theorem Inv.step (hi : Inv v known sent items lossless s)
    (hitems : ∀ k batch, Assigned v.bincode known (executes sent.flatten) k batch →
      items k = batch)
    (hbatches : lossless → ∀ data, known data →
      ∃ transactions, v.bincode.deserialize data = some (.batch transactions))
    {event : DispatchEvent Digest} (hplay : event.InPlay known)
    (hlossless : lossless → ¬ event.Loses) (h : s.step v sent event = some s') :
    Inv v known sent items lossless s' := by
  cases event with
  | output =>
      obtain ⟨messages, hm, rfl⟩ := Option.map_eq_some_iff.mp h
      exact hi.output hm
  | loseCommand i =>
      obtain ⟨x, hx, rfl⟩ := Option.map_eq_some_iff.mp h
      exact hi.loseCommand hx fun hl => hlossless hl trivial
  | commandArrives i =>
      obtain ⟨x, hx, rfl⟩ := Option.map_eq_some_iff.mp h
      exact hi.commandArrives hx
  | write worker data =>
      obtain rfl := Option.some.inj h
      exact hi.write worker hplay
  | delete worker digest =>
      obtain rfl := Option.some.inj h
      exact hi.delete worker digest
  | read worker =>
      simp only [Dispatch.step] at h
      split at h
      · cases h
      · rename_i command hcommand
        split at h
        · cases h
        · rename_i data hdata
          split at h
          · cases h
          · obtain rfl := Option.some.inj h
            exact hi.read (List.mem_of_find?_eq_some hcommand) hdata
  | broadcast worker =>
      obtain ⟨x, hx, rfl⟩ := Option.map_eq_some_iff.mp h
      have hmem := List.mem_of_find?_eq_some hx
      exact hi.broadcast hmem fun hl => hbatches hl _ (hi.inHand x hmem).2.1
  | loseBatch i =>
      obtain ⟨x, hx, rfl⟩ := Option.map_eq_some_iff.mp h
      exact hi.loseBatch hx fun hl => hlossless hl trivial
  | batchArrives i =>
      obtain ⟨x, hx, rfl⟩ := Option.map_eq_some_iff.mp h
      exact hi.batchArrives hitems hx

variable (lossless) in
theorem inv_of_run
    (hitems : ∀ k batch, Assigned v.bincode known (executes sent.flatten) k batch →
      items k = batch)
    (hbatches : lossless → ∀ data, known data →
      ∃ transactions, v.bincode.deserialize data = some (.batch transactions))
    {events : List (DispatchEvent Digest)} (hplay : ∀ event ∈ events, event.InPlay known)
    (hlossless : lossless → ∀ event ∈ events, ¬ event.Loses)
    (h : exec (Dispatch.step v sent) initial events = some s) :
    Inv v known sent items lossless s := by
  refine exec_invariant (I := fun events s => (∀ event ∈ events, event.InPlay known) →
    (lossless → ∀ event ∈ events, ¬ event.Loses) → Inv v known sent items lossless s)
    (fun _ _ => inv_initial) (fun events s₁ event s₂ ih hstep hplay hlossless => ?_) h hplay
    hlossless
  have hlast : event ∈ events ++ [event] := List.mem_append_right _ (List.mem_singleton_self _)
  exact (ih (fun e he => hplay e (List.mem_append_left _ he))
    fun hl e he => hlossless hl e (List.mem_append_left _ he)).step hitems hbatches
      (hplay event hlast) (fun hl => hlossless hl event hlast) hstep

end Dispatch

/-! ## What the executors execute -/

section Executed

variable {v : Backend} {known : Bytes → Prop} {digests : List Digest}
  {sent : List (List (ℕ × PrimaryWorkerMessage PublicKey Digest))}
  {s : Dispatch PublicKey Digest} {events : List (DispatchEvent Digest)}

/-- Batches in play have different digests. -/
def CollisionFree (Digest : Type) [Sha512 Digest] (known : Bytes → Prop) : Prop :=
  ∀ x y, known x → known y → (Sha512.sha512 x : Digest) = Sha512.sha512 y → x = y

theorem assigned_unique {bincode : Worker.Bincode} (hcollision : CollisionFree Digest known)
    {k : ℕ} {batch batch' : BufferedBatch}
    (h : Assigned bincode known digests.zipIdx k batch)
    (h' : Assigned bincode known digests.zipIdx k batch') : batch = batch' := by
  obtain ⟨data, transactions, hknown, hmem, hparse, rfl⟩ := h
  obtain ⟨data', transactions', hknown', hmem', hparse', rfl⟩ := h'
  rw [List.mk_mem_zipIdx_iff_getElem?] at hmem hmem'
  have hdigest := Option.some.inj (hmem.symm.trans hmem')
  obtain rfl := hcollision data data' hknown hknown' hdigest
  obtain rfl : transactions = transactions' := by
    rw [hparse, Option.some.injEq, Worker.WorkerMessage.batch.injEq] at hparse'
    exact hparse'
  rfl

/-- The batches that the numbers stand for. -/
theorem exists_items (bincode : Worker.Bincode) (hcollision : CollisionFree Digest known) :
    ∃ items : ℕ → BufferedBatch, ∀ k batch,
      Assigned bincode known digests.zipIdx k batch → items k = batch := by
  classical
  refine ⟨fun k => if h : ∃ batch, Assigned bincode known digests.zipIdx k batch then h.choose
    else ⟨[], []⟩, fun k batch hbatch => ?_⟩
  have h : ∃ batch, Assigned bincode known digests.zipIdx k batch := ⟨batch, hbatch⟩
  exact (dif_pos h).trans (assigned_unique hcollision h.choose_spec hbatch)

/-- What an executor has done: it has executed the batches of the first digests, and nothing
    else, in their order. -/
structure Executed (bincode : Worker.Bincode) (known : Bytes → Prop) (digests : List Digest)
    (env : Fusion.Environment) (executor : Fusion.Executor)
    (b : Reorder BatchExecutor BufferedBatch) : Prop where
  numbers : b.state.batches.map Prod.fst = List.range b.next
  assigned : ∀ x ∈ b.state.batches, Assigned bincode known digests.zipIdx x.1 x.2
  state : b.state.batches.foldlM (fun executor x =>
    BatchExecutor.executeBatch env x.1 x.2 executor) executor = .ok b.state.executor

variable {bincode : Worker.Bincode} {env env' : Fusion.Environment}
  {executor executor' : Fusion.Executor} {b b' : Reorder BatchExecutor BufferedBatch}

/-- More digests may follow. -/
theorem Executed.mono {digests' : List Digest} (hdigests : digests <+: digests')
    (h : Executed bincode known digests env executor b) :
    Executed bincode known digests' env executor b where
  numbers := h.numbers
  assigned x hx := by
    obtain ⟨data, transactions, hknown, hmem, hparse, hb⟩ := h.assigned x hx
    obtain ⟨more, rfl⟩ := hdigests
    refine ⟨data, transactions, hknown, ?_, hparse, hb⟩
    rw [List.zipIdx_append]
    exact List.mem_append_left _ hmem
  state := h.state

theorem Executed.getElem? (h : Executed bincode known digests env executor b) {k : ℕ}
    (hk : k < b.next) : ∃ batch, b.state.batches[k]? = some (k, batch) ∧
      Assigned bincode known digests.zipIdx k batch := by
  have key := congrArg (fun l => l[k]?) h.numbers
  rw [List.getElem?_map, List.getElem?_range hk] at key
  obtain ⟨⟨number, batch⟩, hget, hnumber⟩ := Option.map_eq_some_iff.mp key
  obtain rfl : number = k := hnumber
  exact ⟨batch, hget, h.assigned _ (List.mem_of_getElem? hget)⟩

/-- Executors that have executed the batches of the same digests agree. -/
theorem Executed.prefix_of_le (h : Executed bincode known digests env executor b)
    (h' : Executed bincode known digests env' executor' b')
    (hcollision : CollisionFree Digest known) (hle : b.next ≤ b'.next) :
    b.state.batches <+: b'.state.batches := by
  have hlen : b.state.batches.length = b.next := by
    rw [← List.length_map (f := Prod.fst), h.numbers, List.length_range]
  refine List.prefix_iff_eq_take.mpr (List.ext_getElem? fun k => ?_)
  rw [hlen, List.getElem?_take]
  split
  · rename_i hk
    obtain ⟨batch, hget, hbatch⟩ := h.getElem? hk
    obtain ⟨batch', hget', hbatch'⟩ := h'.getElem? (by omega : k < b'.next)
    rw [hget, hget', assigned_unique hcollision hbatch hbatch']
  · rw [List.getElem?_eq_none (by omega)]

/-- An executor that gets numbered batches, none twice. -/
theorem executed_of_received {messages : List WorkerToExecutorMessage}
    {items : ℕ → BufferedBatch} {arrived : List ℕ} (env : Fusion.Environment)
    (executor : Fusion.Executor) (hnodup : arrived.Nodup)
    (hassigned : ∀ k ∈ arrived, Assigned bincode known digests.zipIdx k (items k))
    (hmessages : messages.map WorkerToExecutorMessage.dispatch =
      arrived.map (fun k => (k, items k))) :
    BatchExecutor.run env messages (spawn executor) ≠ .error .pastSequence ∧
    ∀ b, BatchExecutor.run env messages (spawn executor) = .ok b →
      Executed bincode known digests env executor b ∧
      (arrived.Perm (List.range digests.length) → b.next = digests.length ∧ b.buffer = ∅) := by
  have hexec : BatchExecutor.run env messages (spawn executor) =
      Reorder.acceptAll (rules env) items arrived (spawn executor) := by
    have key := congrArg (fun l => l.foldlM
      (fun (s : Reorder BatchExecutor BufferedBatch) (x : ℕ × BufferedBatch) =>
        processExecute env s x.1 x.2) (spawn executor)) hmessages
    rwa [List.foldlM_map, List.foldlM_map] at key
  rw [hexec]
  refine ⟨fun hpast => ?_, fun b hb => ?_⟩
  · -- none of the other errors is this one
    rcases Reorder.error_of_acceptAll hnodup hpast with ⟨k, state, htake⟩ | ⟨k, hearly⟩ | hfull
    · change BatchExecutor.take env k (items k) state = _ at htake
      unfold BatchExecutor.take at htake
      split at htake
      · cases htake
      · cases htake
    · change (if (items k).isSyncMarker then some Abort.syncMarker else none) = _ at hearly
      split at hearly
      · cases hearly
      · cases hearly
    · cases hfull
  · obtain ⟨hp, -⟩ := Reorder.pending_of_acceptAll hnodup hb
    obtain ⟨hbatches, hstate⟩ : b.state.batches = (List.range b.next).map (fun k => (k, items k)) ∧
        BatchExecutor.executeBatches env items b.next executor = .ok b.state.executor := by
      rcases BatchExecutor.inOrder_cases env executor b.next with
        ⟨state, hok, hrun', hlog⟩ | ⟨error, p, herror, -⟩
      · obtain rfl : state = b.state := Except.ok.inj (hok.symm.trans hp.state)
        exact ⟨hlog, hrun'⟩
      · have key := herror.symm.trans hp.state
        cases key
    refine ⟨⟨?_, fun x hx => ?_, ?_⟩, fun hperm => ?_⟩
    · rw [hbatches, List.map_map]
      exact List.map_id _
    · rw [hbatches] at hx
      obtain ⟨k, hk, rfl⟩ := List.mem_map.mp hx
      exact hassigned k (hp.taken k (List.mem_range.mp hk))
    · rw [hbatches, List.foldlM_map]
      exact hstate
    · obtain ⟨hnext, hbuffer, -⟩ := hp.complete hperm
      exact ⟨hnext, hbuffer⟩

variable [LinearOrder Digest]

/-- What an executor receives are numbered batches, none twice; all of them, if nothing is lost
    and nothing is on its way. -/
theorem received_of_run (hcollision : CollisionFree Digest known)
    (hnumbered : executes sent.flatten = digests.zipIdx)
    (hplay : ∀ event ∈ events, event.InPlay known)
    (hrun : exec (Dispatch.step v sent) Dispatch.initial events = some s) {e : ℕ}
    (he : e ∈ v.executors) :
    ∃ (items : ℕ → BufferedBatch) (arrived : List ℕ), arrived.Nodup ∧
      (∀ k ∈ arrived, Assigned v.bincode known digests.zipIdx k (items k)) ∧
      (s.received e).map WorkerToExecutorMessage.dispatch = arrived.map (fun k => (k, items k)) ∧
      ((∀ event ∈ events, ¬ event.Loses) →
        (∀ data, known data →
          ∃ transactions, v.bincode.deserialize data = some (.batch transactions)) →
        s.read = sent.length → s.Idle → arrived.Perm (List.range digests.length)) := by
  obtain ⟨items, hitems⟩ := exists_items v.bincode hcollision
  rw [← hnumbered] at hitems
  have hnumbers : numbers commandNumber sent.flatten = Multiset.range digests.length := by
    have key : sent.flatten.filterMap commandNumber = (executes sent.flatten).map Prod.snd := by
      unfold executes commandNumber
      rw [List.map_filterMap]
    unfold numbers
    rw [key, hnumbered, List.zipIdx_map_snd, ← List.range_eq_range']
    rfl
  obtain ⟨-, -, -, -, -, hexecutors⟩ := Dispatch.inv_of_run
    ((∀ event ∈ events, ¬ event.Loses) ∧ ∀ data, known data →
      ∃ transactions, v.bincode.deserialize data = some (.batch transactions))
    hitems (fun h => h.2) hplay (fun h => h.1) hrun
  obtain ⟨arrived, lost, hsum, hassigned, hreceived, hlossless⟩ := hexecutors e he
  rw [hnumbered] at hassigned
  refine ⟨items, arrived, ?_, hassigned, hreceived, fun hnone hparse hread hidle => ?_⟩
  · have hsub : numbers commandNumber (sent.take s.read).flatten ≤
        Multiset.range digests.length := by
      rw [← hnumbers]
      conv_rhs => rw [← List.take_append_drop s.read sent, List.flatten_append, numbers_append]
      exact Multiset.le_add_right _ _
    rw [← Multiset.coe_nodup]
    refine Multiset.nodup_of_le ?_ (Multiset.nodup_range digests.length)
    refine le_trans ?_ (hsum ▸ hsub)
    exact (Multiset.le_add_left _ _).trans (Multiset.le_add_right _ _)
  · obtain ⟨h1, h2, h3, h4⟩ := hidle
    have hunder : s.underway e = 0 := by
      unfold Dispatch.underway
      rw [h1, h2, h3, h4]
      rfl
    rw [hunder, hlossless ⟨hnone, hparse⟩, hread, List.take_length, hnumbers, zero_add,
      add_zero] at hsum
    exact Multiset.coe_eq_coe.mp hsum

end Executed

variable [LinearOrder Digest]

/-- In every state that a validator reaches, whatever messages are lost and in whatever order
    they come, each of its executors that does not stop has executed the first of the batches
    that consensus has committed and nothing else, in the order in which the primary numbered
    them. No executor stops because a number comes twice. If no message is lost and nothing is on
    its way any more, then it has executed all of them. -/
theorem executed_in_order {Signature : Type} (u : Validator) (v : Backend)
    (known : Bytes → Prop) (hcollision : CollisionFree Digest known)
    (outputs : List (ConsensusOutput PublicKey Digest Signature))
    (sent : List (List (ℕ × PrimaryWorkerMessage PublicKey Digest)))
    (hsent : analyze u outputs = some sent) (events : List (DispatchEvent Digest))
    (hplay : ∀ event ∈ events, event.InPlay known) (s : Dispatch PublicKey Digest)
    (hrun : exec (Dispatch.step v sent) Dispatch.initial events = some s) (e : ℕ)
    (he : e ∈ v.executors) (env : Fusion.Environment) (executor : Fusion.Executor) :
    BatchExecutor.run env (s.received e) (spawn executor) ≠ .error .pastSequence ∧
    ∀ b, BatchExecutor.run env (s.received e) (spawn executor) = .ok b →
      Executed v.bincode known (dispatchedFrom u 0 outputs) env executor b ∧
      ((∀ event ∈ events, ¬ event.Loses) →
        (∀ data, known data →
          ∃ transactions, v.bincode.deserialize data = some (.batch transactions)) →
        s.read = sent.length → s.Idle →
          b.next = (dispatchedFrom u 0 outputs).length ∧ b.buffer = ∅) := by
  obtain ⟨items, arrived, hnodup, hassigned, hreceived, hcomplete⟩ :=
    received_of_run hcollision (executes_analyzeFrom hsent) hplay hrun he
  obtain ⟨hpast, hall⟩ := executed_of_received env executor hnodup hassigned hreceived
  refine ⟨hpast, fun b hb => ⟨(hall b hb).1, fun hnone hparse hread hidle => ?_⟩⟩
  exact (hall b hb).2 (hcomplete hnone hparse hread hidle)

/-- Executors agree: of two executors, of one validator or of two validators that go through the
    same workers for each certificate, one has executed the first of the batches that the other
    one has executed, in the same order and under the same numbers. -/
theorem executed_agree {Signature : Type} (u u' : Validator) (v v' : Backend)
    (hbincode : v.bincode = v'.bincode) (known : Bytes → Prop)
    (hcollision : CollisionFree Digest known)
    (outputs outputs' : List (ConsensusOutput PublicKey Digest Signature))
    (hpre : outputs <+: outputs')
    (hworkers : ∀ k certificate, outputs[k]? = some (.certificate certificate) →
      workersFor u k certificate = workersFor u' k certificate)
    (sent sent' : List (List (ℕ × PrimaryWorkerMessage PublicKey Digest)))
    (hsent : analyze u outputs = some sent) (hsent' : analyze u' outputs' = some sent')
    (events events' : List (DispatchEvent Digest))
    (hplay : ∀ event ∈ events, event.InPlay known)
    (hplay' : ∀ event ∈ events', event.InPlay known) (s s' : Dispatch PublicKey Digest)
    (hrun : exec (Dispatch.step v sent) Dispatch.initial events = some s)
    (hrun' : exec (Dispatch.step v' sent') Dispatch.initial events' = some s')
    (e e' : ℕ) (he : e ∈ v.executors) (he' : e' ∈ v'.executors) (env env' : Fusion.Environment)
    (executor executor' : Fusion.Executor) (b b' : Reorder BatchExecutor BufferedBatch)
    (hb : BatchExecutor.run env (s.received e) (spawn executor) = .ok b)
    (hb' : BatchExecutor.run env' (s'.received e') (spawn executor') = .ok b') :
    b.state.batches <+: b'.state.batches ∨ b'.state.batches <+: b.state.batches := by
  have hdigests := prefix_dispatched hpre hworkers
  obtain ⟨items, arrived, hnodup, hassigned, hreceived, -⟩ :=
    received_of_run hcollision (executes_analyzeFrom hsent) hplay hrun he
  obtain ⟨items', arrived', hnodup', hassigned', hreceived', -⟩ :=
    received_of_run hcollision (executes_analyzeFrom hsent') hplay' hrun' he'
  have hexec := ((executed_of_received env executor hnodup hassigned hreceived).2 b hb).1
  have hexec' := ((executed_of_received env' executor' hnodup' hassigned' hreceived').2 b' hb').1
  rw [← hbincode] at hexec'
  rcases Nat.le_total b.next b'.next with hle | hle
  · exact Or.inl ((hexec.mono hdigests).prefix_of_le hexec' hcollision hle)
  · exact Or.inr (hexec'.prefix_of_le (hexec.mono hdigests) hcollision hle)

/-! ## Two batches and two executors

A header with two batches is committed. The second batch comes first to executor 1. In one run the
first one never comes to executor 0. -/

section Sample

open Toy NumberSample Fusion.BatchExecutor.SequenceSample
open Worker.PipelineSample (bincode)

namespace DispatchSample

def data (k : ℕ) : Bytes := bincode.serialize (List.replicate k deposit)

def digest (k : ℕ) : ℕ := Sha512.sha512 (data k)

theorem nodup_executors : [0, 1].Nodup := by decide

def backend : Backend := ⟨[0, 1], nodup_executors, bincode⟩

def known : List Bytes := [data 1, data 2]

theorem collisionFree : CollisionFree ℕ (· ∈ known) := by
  have key : ∀ x ∈ known, ∀ y ∈ known, (Sha512.sha512 x : ℕ) = Sha512.sha512 y → x = y := by
    decide +kernel
  exact fun x y hx hy => key x hx y hy

def decided : List (ConsensusOutput ℕ ℕ Unit) :=
  [.certificate (certificate (((∅ : OrdMap ℕ ℕ).insert (digest 1) 0).insert (digest 2) 0))]

def sent : List (List (ℕ × PrimaryWorkerMessage ℕ ℕ)) := (analyze oneFirst decided).getD []

theorem analyze_sent : analyze oneFirst decided = some sent :=
  eq_some_of_isSome _ (by decide +kernel)

def events : List (DispatchEvent ℕ) :=
  [.output, .write 0 (data 1), .commandArrives 0, .commandArrives 0, .commandArrives 0, .read 0,
    .broadcast 0, .write 0 (data 2), .read 0, .broadcast 0, .batchArrives 3, .batchArrives 1,
    .loseBatch 0, .batchArrives 0]

def final : Dispatch ℕ ℕ := (exec (Dispatch.step backend sent) .initial events).getD .initial

theorem run_final : exec (Dispatch.step backend sent) .initial events = some final :=
  eq_some_of_isSome _ (by decide +kernel)

theorem inPlay : ∀ event ∈ events, event.InPlay (· ∈ known) := by
  unfold events
  simp [DispatchEvent.InPlay, known]

/-- The same, but nothing is lost. -/
def events' : List (DispatchEvent ℕ) :=
  [.output, .write 0 (data 1), .commandArrives 0, .commandArrives 0, .commandArrives 0, .read 0,
    .broadcast 0, .write 0 (data 2), .read 0, .broadcast 0, .batchArrives 3, .batchArrives 1,
    .batchArrives 0, .batchArrives 0]

def final' : Dispatch ℕ ℕ := (exec (Dispatch.step backend sent) .initial events').getD .initial

theorem run_final' : exec (Dispatch.step backend sent) .initial events' = some final' :=
  eq_some_of_isSome _ (by decide +kernel)

theorem inPlay' : ∀ event ∈ events', event.InPlay (· ∈ known) := by
  unfold events'
  simp [DispatchEvent.InPlay, known]

theorem lossless : ∀ event ∈ events', ¬ event.Loses := by
  unfold events'
  simp [DispatchEvent.Loses]

theorem parses (bytes : Bytes) (h : bytes ∈ known) :
    ∃ transactions, bincode.deserialize bytes = some (.batch transactions) := by
  rcases List.mem_pair.mp h with rfl | rfl
  · exact ⟨_, bincode.batch _ (by decide) (by decide)⟩
  · exact ⟨_, bincode.batch _ (by decide) (by decide)⟩

theorem idle_final' : final'.Idle := by
  unfold Dispatch.Idle
  decide +kernel

/-- How many batches an executor has executed, if it has not stopped. -/
def executedBy (e : ℕ) : Option ℕ :=
  match BatchExecutor.run environment (final.received e) (spawn soleExecutor) with
  | .ok b => some b.state.batches.length
  | .error _ => none

example : (executedBy 0, executedBy 1) = (some 0, some 2) := by decide +kernel

end DispatchSample

open DispatchSample

theorem executed_in_order_sample :
    ∃ b, BatchExecutor.run environment (final'.received 1) (spawn soleExecutor) = .ok b ∧
      Executed bincode (· ∈ known) (dispatchedFrom oneFirst 0 decided) environment soleExecutor b ∧
      b.next = (dispatchedFrom oneFirst 0 decided).length ∧ b.buffer = ∅ := by
  have hok : (BatchExecutor.run environment (final'.received 1) (spawn soleExecutor)).isOk =
      true := by
    decide +kernel
  have hb := eq_ok_of_isOk (spawn soleExecutor) hok
  obtain ⟨-, hall⟩ := executed_in_order oneFirst backend (· ∈ known) collisionFree decided sent
    analyze_sent events' inPlay' final' run_final' 1 (by decide) environment soleExecutor
  obtain ⟨hexecuted, hcomplete⟩ := hall _ hb
  exact ⟨_, hb, hexecuted, hcomplete lossless parses (by decide +kernel) idle_final'⟩

theorem executed_agree_sample :
    ∃ b b', BatchExecutor.run environment (final.received 0) (spawn soleExecutor) = .ok b ∧
      BatchExecutor.run environment (final.received 1) (spawn soleExecutor) = .ok b' ∧
      (b.state.batches <+: b'.state.batches ∨ b'.state.batches <+: b.state.batches) := by
  have hsome : ∀ e ∈ [0, 1], (executedBy e).isSome = true := by decide +kernel
  have hok : ∀ e ∈ [0, 1],
      ∃ b, BatchExecutor.run environment (final.received e) (spawn soleExecutor) = .ok b := by
    intro e he
    have key := hsome e he
    unfold executedBy at key
    split at key
    · rename_i b hb
      exact ⟨b, hb⟩
    · cases key
  obtain ⟨b, hb⟩ := hok 0 (by decide)
  obtain ⟨b', hb'⟩ := hok 1 (by decide)
  exact ⟨b, b', hb, hb', executed_agree oneFirst oneFirst backend backend rfl (· ∈ known)
    collisionFree decided decided List.prefix_rfl (fun _ _ _ => rfl) sent sent analyze_sent
    analyze_sent events events inPlay inPlay final final run_final run_final 0 1 (by decide)
    (by decide) environment environment soleExecutor soleExecutor b b' hb hb'⟩

end Sample

end DagBft.Node
