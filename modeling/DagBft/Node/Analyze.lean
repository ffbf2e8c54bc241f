/-
  The task of the primary that receives the output of consensus and dispatches it to its
  own workers (`analyze` in `node/src/main.rs`).

  The messages are listed with the worker they go to. The order in which a `HashMap` keyed
  by worker is iterated over is a parameter, `Validator.order`. `none` stands for a panic.
-/
import DagBft.Primary.Core
import DagBft.Consensus.State
import DagBft.Lib.AssocMap

namespace DagBft.Node

variable (PublicKey Digest Signature : Type)

/-- Reroute an account to a new validator. -/
structure MigrationNotice where
  accountId : ℕ
  newTarget : PublicKey
deriving DecidableEq

/-- Output from consensus to application layer. -/
inductive ConsensusOutput [LinearOrder Digest]
  | certificate (c : Certificate PublicKey Digest Signature)
  | migrations (notices : List (MigrationNotice PublicKey))

/-- The messages sent by `analyze` to the workers. -/
inductive PrimaryWorkerMessage
  /-- The primary indicates that these batches have been committed by consensus. -/
  | committedBatches (round : ℕ) (digests : List Digest)
  /-- Migration notices from consensus. -/
  | migrationNotices (notices : List (MigrationNotice PublicKey))
  /-- Execute a committed batch. -/
  | execute (digest : Digest) (workerId : ℕ) (sequence : ℕ)
deriving DecidableEq

variable {PublicKey Digest Signature}

/-- Max migration notices per serialized message. -/
def migrationChunkSize : ℕ := 5000

/-- `slice::chunks`. -/
def chunks {α : Type} (size : ℕ) (l : List α) : List (List α) :=
  if size = 0 ∨ l = [] then [] else l.take size :: chunks size (l.drop size)
termination_by l.length
decreasing_by
  rename_i h
  push Not at h
  have := List.length_pos_of_ne_nil h.2
  rw [List.length_drop]
  omega

/-- What a validator brings to `analyze`: its workers, and the order in which the map made
    for the `i`-th output is iterated over. -/
structure Validator where
  ourWorkers : List ℕ
  nodup : ourWorkers.Nodup
  order : ℕ → List ℕ → List ℕ
  order_perm : ∀ i l, (order i l).Perm l

/-- Send Execute for each batch digest with a global sequence number. -/
def sendExecutes (worker : ℕ) : List Digest → ℕ →
    List (ℕ × PrimaryWorkerMessage PublicKey Digest) × ℕ
  | [], next => ([], next)
  | digest :: digests, next =>
      let (messages, next') := sendExecutes worker digests (next + 1)
      ((worker, .execute digest worker next) :: messages, next')

/-- Send `CommittedBatches` and `Execute` to each of our workers. -/
def sendCommitted (ourWorkers : List ℕ) (round : ℕ) (perWorker : AList fun _ : ℕ => List Digest) :
    List ℕ → ℕ → List (ℕ × PrimaryWorkerMessage PublicKey Digest) × ℕ
  | [], next => ([], next)
  | worker :: workers, next =>
      if worker ∈ ourWorkers then
        let digests := (perWorker.lookup worker).getD []
        let (executes, next) := sendExecutes worker digests next
        let (messages, next) := sendCommitted ourWorkers round perWorker workers next
        ((worker, .committedBatches round digests) :: executes ++ messages, next)
      else sendCommitted ourWorkers round perWorker workers next

section

variable [LinearOrder Digest]

/-- Group committed batch digests by worker. -/
def perWorker (certificate : Certificate PublicKey Digest Signature) :
    AList fun _ : ℕ => List Digest :=
  AList.group (certificate.header.payload.entries.map Prod.swap)

/-- Distribute migration notices across workers by account. -/
def perWorkerNotices (numWorkers : ℕ) (notices : List (MigrationNotice PublicKey)) :
    AList fun _ : ℕ => List (MigrationNotice PublicKey) :=
  AList.group (notices.map fun notice => (u32 (notice.accountId % numWorkers), notice))

def sendNotices (ourWorkers : List ℕ)
    (perWorker : AList fun _ : ℕ => List (MigrationNotice PublicKey)) (workers : List ℕ) :
    List (ℕ × PrimaryWorkerMessage PublicKey Digest) :=
  (workers.filter (· ∈ ourWorkers)).flatMap fun worker =>
    (chunks migrationChunkSize ((perWorker.lookup worker).getD [])).map fun chunk =>
      (worker, .migrationNotices chunk)

/-- One iteration of the loop, for the `i`-th output: the messages, and the next sequence
    number. -/
def analyzeOutput (v : Validator) (i : ℕ) (next : ℕ) :
    ConsensusOutput PublicKey Digest Signature →
      Option (List (ℕ × PrimaryWorkerMessage PublicKey Digest) × ℕ)
  | .certificate certificate =>
      let perWorker := perWorker certificate
      some (sendCommitted v.ourWorkers certificate.round perWorker (v.order i perWorker.keys) next)
  | .migrations notices =>
      if v.ourWorkers = [] then
        none
      else
        let perWorker := perWorkerNotices v.ourWorkers.length notices
        some (sendNotices v.ourWorkers perWorker (v.order i perWorker.keys), next)

/-- The messages sent for each output, from the `i`-th one on. -/
def analyzeFrom (v : Validator) : ℕ → ℕ → List (ConsensusOutput PublicKey Digest Signature) →
    Option (List (List (ℕ × PrimaryWorkerMessage PublicKey Digest)))
  | _, _, [] => some []
  | i, next, output :: outputs => do
      let (messages, next) ← analyzeOutput v i next output
      let rest ← analyzeFrom v (i + 1) next outputs
      some (messages :: rest)

def analyze (v : Validator) (outputs : List (ConsensusOutput PublicKey Digest Signature)) :
    Option (List (List (ℕ × PrimaryWorkerMessage PublicKey Digest))) :=
  analyzeFrom v 0 0 outputs

end

/-! ## The batches that are dispatched -/

/-- The batch and the sequence number of an `Execute`. -/
def PrimaryWorkerMessage.executed : PrimaryWorkerMessage PublicKey Digest → Option (Digest × ℕ)
  | .execute digest _ sequence => some (digest, sequence)
  | _ => none

/-- The batches that are to be executed, with their sequence numbers. -/
def executes (messages : List (ℕ × PrimaryWorkerMessage PublicKey Digest)) :
    List (Digest × ℕ) :=
  messages.filterMap fun x => x.2.executed

theorem executes_append (xs ys : List (ℕ × PrimaryWorkerMessage PublicKey Digest)) :
    executes (xs ++ ys) = executes xs ++ executes ys := List.filterMap_append

variable (PublicKey) in
theorem executes_sendExecutes (worker : ℕ) (digests : List Digest) (next : ℕ) :
    executes (sendExecutes worker digests next :
        List (ℕ × PrimaryWorkerMessage PublicKey Digest) × ℕ).1 = digests.zipIdx next ∧
      (sendExecutes worker digests next :
        List (ℕ × PrimaryWorkerMessage PublicKey Digest) × ℕ).2 = next + digests.length := by
  induction digests generalizing next with
  | nil => exact ⟨rfl, rfl⟩
  | cons digest digests ih =>
      obtain ⟨hmessages, hnext⟩ := ih (next + 1)
      refine ⟨?_, ?_⟩
      · rw [List.zipIdx_cons, ← hmessages]
        rfl
      · rw [List.length_cons]
        have : (sendExecutes worker (digest :: digests) next :
            List (ℕ × PrimaryWorkerMessage PublicKey Digest) × ℕ).2 =
            next + 1 + digests.length := hnext
        omega

variable (PublicKey) in
theorem executes_sendCommitted (ourWorkers : List ℕ) (round : ℕ)
    (perWorker : AList fun _ : ℕ => List Digest) (workers : List ℕ) (next : ℕ) :
    executes (sendCommitted ourWorkers round perWorker workers next :
        List (ℕ × PrimaryWorkerMessage PublicKey Digest) × ℕ).1 =
        ((workers.filter (· ∈ ourWorkers)).flatMap fun worker =>
          (perWorker.lookup worker).getD []).zipIdx next ∧
      (sendCommitted ourWorkers round perWorker workers next :
        List (ℕ × PrimaryWorkerMessage PublicKey Digest) × ℕ).2 =
        next + ((workers.filter (· ∈ ourWorkers)).flatMap fun worker =>
          (perWorker.lookup worker).getD []).length := by
  induction workers generalizing next with
  | nil => exact ⟨rfl, rfl⟩
  | cons worker workers ih =>
      by_cases hw : worker ∈ ourWorkers
      · have hfilter : (worker :: workers).filter (· ∈ ourWorkers) =
            worker :: workers.filter (· ∈ ourWorkers) := List.filter_cons_of_pos (by simpa using hw)
        obtain ⟨hexec, hnext⟩ := executes_sendExecutes PublicKey worker
          ((perWorker.lookup worker).getD []) next
        obtain ⟨hmessages, hrest⟩ := ih (next + ((perWorker.lookup worker).getD []).length)
        rw [hfilter, List.flatMap_cons, List.zipIdx_append, List.length_append, ← hmessages,
          ← hexec]
        simp only [sendCommitted, hw, if_true, hnext]
        refine ⟨?_, ?_⟩
        · rw [List.cons_append, ← executes_append]
          rfl
        · rw [hrest]
          omega
      · have hfilter : (worker :: workers).filter (· ∈ ourWorkers) =
            workers.filter (· ∈ ourWorkers) := List.filter_cons_of_neg (by simpa using hw)
        rw [hfilter]
        simp only [sendCommitted, hw, if_false]
        exact ih next

theorem executes_sendNotices (ourWorkers : List ℕ)
    (perWorker : AList fun _ : ℕ => List (MigrationNotice PublicKey)) (workers : List ℕ) :
    executes (sendNotices ourWorkers perWorker workers :
      List (ℕ × PrimaryWorkerMessage PublicKey Digest)) = [] := by
  unfold executes
  rw [List.filterMap_eq_nil_iff]
  intro x hx
  obtain ⟨worker, -, hx⟩ := List.mem_flatMap.mp hx
  obtain ⟨chunk, -, rfl⟩ := List.mem_map.mp hx
  rfl

variable [LinearOrder Digest]

/-- The batches of a certificate that a validator dispatches, worker after worker. -/
def dispatched (v : Validator) (i : ℕ) :
    ConsensusOutput PublicKey Digest Signature → List Digest
  | .certificate certificate =>
      ((v.order i (perWorker certificate).keys).filter (· ∈ v.ourWorkers)).flatMap fun worker =>
        ((perWorker certificate).lookup worker).getD []
  | .migrations _ => []

/-- One iteration numbers the batches that it dispatches. -/
theorem executes_analyzeOutput {v : Validator} {i next next' : ℕ}
    {output : ConsensusOutput PublicKey Digest Signature}
    {messages : List (ℕ × PrimaryWorkerMessage PublicKey Digest)}
    (h : analyzeOutput v i next output = some (messages, next')) :
    executes messages = (dispatched v i output).zipIdx next ∧
      next' = next + (dispatched v i output).length := by
  cases output with
  | certificate certificate =>
      obtain ⟨hexec, hnext⟩ := executes_sendCommitted PublicKey v.ourWorkers
        certificate.round (perWorker certificate) (v.order i (perWorker certificate).keys) next
      simp only [analyzeOutput, Option.some.injEq] at h
      rw [h] at hexec hnext
      exact ⟨hexec, hnext⟩
  | migrations notices =>
      by_cases hw : v.ourWorkers = []
      · simp [analyzeOutput, hw] at h
      · simp only [analyzeOutput, hw, if_false, Option.some.injEq, Prod.mk.injEq] at h
        obtain ⟨rfl, rfl⟩ := h
        exact ⟨executes_sendNotices _ _ _, rfl⟩

/-! ## One counter for everything that is dispatched -/

/-- The batches dispatched for the outputs from the `i`-th one on. -/
def dispatchedFrom (v : Validator) : ℕ → List (ConsensusOutput PublicKey Digest Signature) →
    List Digest
  | _, [] => []
  | i, output :: outputs => dispatched v i output ++ dispatchedFrom v (i + 1) outputs

theorem executes_analyzeFrom {v : Validator} {i next : ℕ}
    {outputs : List (ConsensusOutput PublicKey Digest Signature)}
    {sent : List (List (ℕ × PrimaryWorkerMessage PublicKey Digest))}
    (h : analyzeFrom v i next outputs = some sent) :
    executes sent.flatten = (dispatchedFrom v i outputs).zipIdx next := by
  induction outputs generalizing i next sent with
  | nil =>
      obtain rfl : [] = sent := by simpa [analyzeFrom] using h
      rfl
  | cons output outputs ih =>
      simp only [analyzeFrom, Option.bind_eq_bind, Option.bind_eq_some_iff] at h
      obtain ⟨⟨messages, next'⟩, hout, rest, hrest, hsent⟩ := h
      obtain rfl := Option.some.inj hsent
      obtain ⟨hexec, hnext⟩ := executes_analyzeOutput hout
      rw [List.flatten_cons, executes_append, hexec, ih hrest, hnext, dispatchedFrom,
        List.zipIdx_append]

/-! ## What is dispatched for a certificate -/

/-- The workers of the payload that a validator has, in the order in which it goes
    through them. -/
def workersFor (v : Validator) (i : ℕ) (certificate : Certificate PublicKey Digest Signature) :
    List ℕ :=
  (v.order i (perWorker certificate).keys).filter (· ∈ v.ourWorkers)

theorem dispatched_certificate (v : Validator) (i : ℕ)
    (certificate : Certificate PublicKey Digest Signature) :
    dispatched v i (.certificate certificate) = (workersFor v i certificate).flatMap fun worker =>
      ((perWorker certificate).lookup worker).getD [] := rfl

theorem mem_perWorker {certificate : Certificate PublicKey Digest Signature} {worker : ℕ}
    {digest : Digest} : digest ∈ ((perWorker certificate).lookup worker).getD [] ↔
      (digest, worker) ∈ certificate.header.payload.entries := by
  unfold perWorker
  rw [AList.lookup_group]
  simp only [List.mem_map, List.mem_filter, decide_eq_true_eq, Prod.exists, Prod.swap_prod_mk]
  constructor
  · rintro ⟨_, _, ⟨⟨d, w, hmem, he⟩, rfl⟩, rfl⟩
    obtain ⟨rfl, rfl⟩ := Prod.mk.inj he
    exact hmem
  · intro hmem
    exact ⟨worker, digest, ⟨⟨digest, worker, hmem, rfl⟩, rfl⟩, rfl⟩

theorem mem_workersFor {v : Validator} {i worker : ℕ}
    {certificate : Certificate PublicKey Digest Signature} :
    worker ∈ workersFor v i certificate ↔ worker ∈ v.ourWorkers ∧
      ∃ digest, (digest, worker) ∈ certificate.header.payload.entries := by
  have hkeys : worker ∈ (perWorker certificate).keys ↔
      ∃ digest, (digest, worker) ∈ certificate.header.payload.entries := by
    rw [← AList.mem_keys, perWorker, AList.mem_group]
    simp
  rw [workersFor, List.mem_filter, (v.order_perm i _).mem_iff, hkeys, decide_eq_true_eq]
  exact and_comm

theorem nodup_workersFor (v : Validator) (i : ℕ)
    (certificate : Certificate PublicKey Digest Signature) :
    (workersFor v i certificate).Nodup :=
  List.Nodup.filter _ ((v.order_perm i _).nodup_iff.mpr (AList.keys_nodup _))

/-! ## Agreement on the sequence numbers -/

/-- A batch listed by the `k`-th output is given this sequence number. -/
def Numbered (sent : List (List (ℕ × PrimaryWorkerMessage PublicKey Digest))) (k : ℕ)
    (digest : Digest) (sequence : ℕ) : Prop :=
  ∃ messages, sent[k]? = some messages ∧ (digest, sequence) ∈ executes messages

/-- Lists with the same elements at the same numbers are equal. -/
theorem eq_of_zipIdx {α : Type} {l l' : List α} {n : ℕ}
    (h : ∀ a i, (a, i) ∈ l.zipIdx n ↔ (a, i) ∈ l'.zipIdx n) : l = l' := by
  refine List.ext_getElem? fun i => Option.ext fun a => ?_
  have key := h a (n + i)
  rw [List.mk_mem_zipIdx_iff_le_and_getElem?_sub, List.mk_mem_zipIdx_iff_le_and_getElem?_sub,
    Nat.add_sub_cancel_left] at key
  simpa using key

/-- A concatenation of groups determines their order, if an element tells its group. -/
theorem eq_of_flatMap_eq {α β : Type} {g : α → List β} (owner : β → α) {l l' : List α}
    (hne : ∀ a ∈ l ++ l', g a ≠ []) (howner : ∀ a, ∀ b ∈ g a, owner b = a)
    (h : l.flatMap g = l'.flatMap g) : l = l' := by
  induction l generalizing l' with
  | nil =>
      cases l' with
      | nil => rfl
      | cons a' l' =>
          rw [List.flatMap_nil, List.flatMap_cons] at h
          have hnil : g a' = [] := (List.append_eq_nil_iff.mp h.symm).1
          exact absurd hnil (hne a' (by simp))
  | cons a l ih =>
      cases l' with
      | nil =>
          rw [List.flatMap_nil, List.flatMap_cons] at h
          have hnil : g a = [] := (List.append_eq_nil_iff.mp h).1
          exact absurd hnil (hne a (by simp))
      | cons a' l' =>
          rw [List.flatMap_cons, List.flatMap_cons] at h
          -- the first element tells that the first groups are the same
          have haa' : a = a' := by
            cases hg : g a with
            | nil => exact absurd hg (hne a (by simp))
            | cons b bs =>
                cases hg' : g a' with
                | nil => exact absurd hg' (hne a' (by simp))
                | cons b' bs' =>
                    rw [hg, hg', List.cons_append, List.cons_append, List.cons.injEq] at h
                    rw [← howner a b (by simp [hg]), ← howner a' b' (by simp [hg']), h.1]
          subst haa'
          rw [ih (fun b hb => hne b (by simp at hb ⊢; tauto)) (List.append_cancel_left h)]

theorem dispatched_eq_iff {v v' : Validator} {i : ℕ}
    {certificate : Certificate PublicKey Digest Signature} :
    dispatched v i (.certificate certificate) = dispatched v' i (.certificate certificate) ↔
      workersFor v i certificate = workersFor v' i certificate := by
  rw [dispatched_certificate, dispatched_certificate]
  constructor
  · refine eq_of_flatMap_eq (fun digest => (certificate.header.payload.get digest).getD 0) ?_ ?_
    · intro worker hw hnil
      have hmem : ∃ digest, (digest, worker) ∈ certificate.header.payload.entries := by
        rcases List.mem_append.mp hw with hw | hw
        · exact (mem_workersFor.mp hw).2
        · exact (mem_workersFor.mp hw).2
      obtain ⟨digest, hmem⟩ := hmem
      have := mem_perWorker.mpr hmem
      rw [hnil] at this
      exact absurd this List.not_mem_nil
    · intro worker digest hd
      rw [OrdMap.get_of_mem (mem_perWorker.mp hd)]
      rfl
  · intro h
    rw [h]

/-- Validators that go through the same workers dispatch the same batches in the same order. -/
theorem prefix_dispatchedFrom {u u' : Validator} {i : ℕ}
    {outputs outputs' : List (ConsensusOutput PublicKey Digest Signature)}
    (hpre : outputs <+: outputs')
    (hworkers : ∀ k certificate, outputs[k]? = some (.certificate certificate) →
      workersFor u (i + k) certificate = workersFor u' (i + k) certificate) :
    dispatchedFrom u i outputs <+: dispatchedFrom u' i outputs' := by
  induction outputs generalizing i outputs' with
  | nil => exact List.nil_prefix
  | cons output outputs ih =>
      obtain ⟨more, rfl⟩ := hpre
      have hfirst : dispatched u i output = dispatched u' i output := by
        cases output with
        | certificate c => exact dispatched_eq_iff.mpr (hworkers 0 c rfl)
        | migrations notices => rfl
      have hrest : dispatchedFrom u (i + 1) outputs <+:
          dispatchedFrom u' (i + 1) (outputs ++ more) :=
        ih (List.prefix_append _ _) fun k c hk => by
          have key := hworkers (k + 1) c hk
          rwa [Nat.add_comm k 1, ← Nat.add_assoc] at key
      rw [List.cons_append, dispatchedFrom, dispatchedFrom, hfirst]
      exact (List.prefix_append_right_inj _).mpr hrest

theorem prefix_dispatched {u u' : Validator}
    {outputs outputs' : List (ConsensusOutput PublicKey Digest Signature)}
    (hpre : outputs <+: outputs')
    (hworkers : ∀ k certificate, outputs[k]? = some (.certificate certificate) →
      workersFor u k certificate = workersFor u' k certificate) :
    dispatchedFrom u 0 outputs <+: dispatchedFrom u' 0 outputs' := by
  refine prefix_dispatchedFrom hpre fun k c hk => ?_
  rw [Nat.zero_add]
  exact hworkers k c hk

theorem dispatched_congr {u u' : Validator}
    {outputs : List (ConsensusOutput PublicKey Digest Signature)}
    (hworkers : ∀ k certificate, outputs[k]? = some (.certificate certificate) →
      workersFor u k certificate = workersFor u' k certificate) :
    dispatchedFrom u 0 outputs = dispatchedFrom u' 0 outputs := by
  have hback : dispatchedFrom u' 0 outputs <+: dispatchedFrom u 0 outputs :=
    prefix_dispatched List.prefix_rfl fun k c hk => (hworkers k c hk).symm
  exact (prefix_dispatched List.prefix_rfl hworkers).eq_of_length_le hback.length_le

omit [LinearOrder Digest] in
theorem numbered_cons_zero {messages : List (ℕ × PrimaryWorkerMessage PublicKey Digest)}
    {rest : List (List (ℕ × PrimaryWorkerMessage PublicKey Digest))} {digest : Digest} {n : ℕ} :
    Numbered (messages :: rest) 0 digest n ↔ (digest, n) ∈ executes messages := by
  simp [Numbered]

omit [LinearOrder Digest] in
theorem numbered_cons_succ {messages : List (ℕ × PrimaryWorkerMessage PublicKey Digest)}
    {rest : List (List (ℕ × PrimaryWorkerMessage PublicKey Digest))} {k : ℕ} {digest : Digest}
    {n : ℕ} : Numbered (messages :: rest) (k + 1) digest n ↔ Numbered rest k digest n := by
  simp [Numbered]

theorem numbered_iff_from {v v' : Validator} {i next : ℕ}
    {outputs : List (ConsensusOutput PublicKey Digest Signature)}
    {sent sent' : List (List (ℕ × PrimaryWorkerMessage PublicKey Digest))}
    (h : analyzeFrom v i next outputs = some sent)
    (h' : analyzeFrom v' i next outputs = some sent') :
    (∀ k digest n, Numbered sent k digest n ↔ Numbered sent' k digest n) ↔
      ∀ k certificate, outputs[k]? = some (.certificate certificate) →
        workersFor v (i + k) certificate = workersFor v' (i + k) certificate := by
  induction outputs generalizing i next sent sent' with
  | nil =>
      obtain rfl : [] = sent := by simpa [analyzeFrom] using h
      obtain rfl : [] = sent' := by simpa [analyzeFrom] using h'
      simp
  | cons output outputs ih =>
      simp only [analyzeFrom, Option.bind_eq_bind, Option.bind_eq_some_iff] at h h'
      obtain ⟨⟨messages, next₁⟩, hout, rest, hrest, hsent⟩ := h
      obtain ⟨⟨messages', next₁'⟩, hout', rest', hrest', hsent'⟩ := h'
      obtain rfl := Option.some.inj hsent
      obtain rfl := Option.some.inj hsent'
      obtain ⟨hexec, hnext⟩ := executes_analyzeOutput hout
      obtain ⟨hexec', hnext'⟩ := executes_analyzeOutput hout'
      -- the numbers of this output agree exactly if the same batches are dispatched
      have hfirst : (∀ digest n, Numbered (messages :: rest) 0 digest n ↔
          Numbered (messages' :: rest') 0 digest n) ↔
          dispatched v i output = dispatched v' i output := by
        simp only [numbered_cons_zero, hexec, hexec']
        exact ⟨eq_of_zipIdx, fun heq => by simp [heq]⟩
      have hhead : dispatched v i output = dispatched v' i output ↔
          ∀ certificate, output = .certificate certificate →
            workersFor v i certificate = workersFor v' i certificate := by
        cases output with
        | certificate c =>
            rw [dispatched_eq_iff]
            constructor
            · rintro heq _ ⟨rfl⟩
              exact heq
            · intro hall
              exact hall c rfl
        | migrations notices => simp [dispatched]
      have htail : dispatched v i output = dispatched v' i output →
          ((∀ k digest n, Numbered rest k digest n ↔ Numbered rest' k digest n) ↔
            ∀ k certificate, outputs[k]? = some (.certificate certificate) →
              workersFor v (i + 1 + k) certificate = workersFor v' (i + 1 + k) certificate) := by
        intro heq
        have hnn : next₁' = next₁ := by rw [hnext, hnext', heq]
        subst hnn
        exact ih hrest hrest'
      constructor
      · intro hall
        have heq := hfirst.mp (hall 0)
        have hrec := (htail heq).mp fun k digest n => by
          have := hall (k + 1) digest n
          rwa [numbered_cons_succ, numbered_cons_succ] at this
        intro k certificate hk
        cases k with
        | zero => exact hhead.mp heq certificate (by simpa using hk)
        | succ k =>
            have := hrec k certificate (by simpa using hk)
            rwa [Nat.add_assoc, Nat.add_comm 1 k] at this
      · intro hall
        have heq := hhead.mpr fun certificate hc => hall 0 certificate (by simp [hc])
        have hrec := (htail heq).mpr fun k certificate hk => by
          have := hall (k + 1) certificate (by simpa using hk)
          rwa [Nat.add_comm k 1, ← Nat.add_assoc] at this
        intro k digest n
        cases k with
        | zero => exact hfirst.mpr heq digest n
        | succ k =>
            rw [numbered_cons_succ, numbered_cons_succ]
            exact hrec k digest n

/-- Two validators give every batch the same sequence number exactly if, for each
    certificate, they go through the same workers in the same order. -/
theorem numbered_iff (v v' : Validator)
    (outputs : List (ConsensusOutput PublicKey Digest Signature))
    (sent sent' : List (List (ℕ × PrimaryWorkerMessage PublicKey Digest)))
    (h : analyze v outputs = some sent) (h' : analyze v' outputs = some sent') :
    (∀ k digest n, Numbered sent k digest n ↔ Numbered sent' k digest n) ↔
      ∀ k certificate, outputs[k]? = some (.certificate certificate) →
        workersFor v k certificate = workersFor v' k certificate := by
  have key := numbered_iff_from h h'
  simpa using key

section Sample

open Toy

namespace NumberSample

/-- A validator with two workers, that goes through each map in the given order. -/
def validator (order : List ℕ → List ℕ) (hperm : ∀ l, (order l).Perm l) : Validator where
  ourWorkers := [0, 1]
  nodup := by decide
  order _ := order
  order_perm _ := hperm

/-- The batches of a certificate are grouped by worker, worker 1 comes first. -/
def oneFirst : Validator := validator id fun l => List.Perm.refl l

def zeroFirst : Validator := validator List.reverse List.reverse_perm

/-- A certificate with this payload. -/
def certificate (payload : OrdMap ℕ ℕ) : Certificate ℕ ℕ Unit :=
  ⟨{ (default : Header ℕ ℕ Unit) with author := 1, round := 1, payload := payload }, []⟩

/-- One batch for each of the two workers. -/
def twoWorkers : OrdMap ℕ ℕ := ((∅ : OrdMap ℕ ℕ).insert 7 0).insert 8 1

def oneWorker : OrdMap ℕ ℕ := ((∅ : OrdMap ℕ ℕ).insert 7 0).insert 8 0

end NumberSample

open NumberSample

theorem numbered_iff_sample :
    ∃ sent sent' : List (List (ℕ × PrimaryWorkerMessage ℕ ℕ)),
      (∀ k digest n, Numbered sent k digest n ↔ Numbered sent' k digest n) ↔
        ∀ k c, [ConsensusOutput.certificate (certificate oneWorker)][k]? = some (.certificate c) →
          workersFor oneFirst k c = workersFor zeroFirst k c :=
  ⟨_, _, numbered_iff oneFirst zeroFirst [.certificate (certificate oneWorker)] _ _ rfl rfl⟩

/-- With batches of two workers in one certificate the numbers depend on the order in
    which a validator goes through its map. -/
theorem numbers_disagree :
    ¬ ∀ (v v' : Validator) (outputs : List (ConsensusOutput ℕ ℕ Unit))
        (sent sent' : List (List (ℕ × PrimaryWorkerMessage ℕ ℕ))),
        analyze v outputs = some sent → analyze v' outputs = some sent' →
          ∀ k digest n, Numbered sent k digest n ↔ Numbered sent' k digest n := by
  intro h
  have key := h oneFirst zeroFirst [.certificate (certificate twoWorkers)] _ _ rfl rfl 0 8 0
  obtain ⟨messages, hmessages, hmem⟩ := key.mp ⟨_, rfl, by decide⟩
  obtain rfl := Option.some.inj hmessages
  exact absurd hmem (by decide)

end Sample

/-! ## One `Execute` for each listing -/

/-- Whether the output lists the batch for a worker of the validator. -/
def listsBatch (v : Validator) (digest : Digest) :
    ConsensusOutput PublicKey Digest Signature → Bool
  | .certificate certificate =>
      (certificate.header.payload.get digest).any fun worker => worker ∈ v.ourWorkers
  | .migrations _ => false

theorem nodup_dispatched (v : Validator) (i : ℕ)
    (output : ConsensusOutput PublicKey Digest Signature) : (dispatched v i output).Nodup := by
  cases output with
  | migrations notices => exact List.nodup_nil
  | certificate certificate =>
      rw [dispatched_certificate, List.nodup_flatMap]
      constructor
      · intro worker _
        unfold perWorker
        rw [AList.lookup_group]
        have hnodup := certificate.header.payload.nodup_keys
        rw [List.filter_map, List.map_map]
        refine (List.Nodup.sublist (List.Sublist.map _ List.filter_sublist) hnodup)
      · refine (nodup_workersFor v i certificate).imp_of_mem ?_
        intro worker worker' _ _ hne digest hd hd'
        have h := OrdMap.get_eq_some_iff.mpr (mem_perWorker.mp hd)
        have h' := OrdMap.get_eq_some_iff.mpr (mem_perWorker.mp hd')
        exact hne (Option.some.inj (h.symm.trans h'))

theorem mem_dispatched {v : Validator} {i : ℕ}
    {output : ConsensusOutput PublicKey Digest Signature} {digest : Digest} :
    digest ∈ dispatched v i output ↔ listsBatch v digest output = true := by
  cases output with
  | migrations notices => simp [dispatched, listsBatch]
  | certificate certificate =>
      rw [dispatched_certificate, List.mem_flatMap]
      simp only [listsBatch, Option.any_eq_true, decide_eq_true_eq]
      constructor
      · rintro ⟨worker, hw, hd⟩
        exact ⟨worker, OrdMap.get_eq_some_iff.mpr (mem_perWorker.mp hd), (mem_workersFor.mp hw).1⟩
      · rintro ⟨worker, hget, hw⟩
        have hmem := OrdMap.get_eq_some_iff.mp hget
        exact ⟨worker, mem_workersFor.mpr ⟨hw, digest, hmem⟩, mem_perWorker.mpr hmem⟩

theorem count_dispatchedFrom (v : Validator) (i : ℕ)
    (outputs : List (ConsensusOutput PublicKey Digest Signature)) (digest : Digest) :
    (dispatchedFrom v i outputs).count digest = outputs.countP (listsBatch v digest) := by
  induction outputs generalizing i with
  | nil => rfl
  | cons output outputs ih =>
      rw [dispatchedFrom, List.count_append, ih, List.countP_cons]
      by_cases hmem : listsBatch v digest output = true
      · rw [List.count_eq_one_of_mem (nodup_dispatched v i output) (mem_dispatched.mpr hmem),
          if_pos hmem, Nat.add_comm]
      · rw [List.count_eq_zero_of_not_mem (fun hm => hmem (mem_dispatched.mp hm)), if_neg hmem]
        omega

/-- `analyze` sends one `Execute` for each certificate that lists a batch for a worker of
    the validator, and numbers all of them 0, 1, 2, ... -/
theorem executes_spec (v : Validator)
    (outputs : List (ConsensusOutput PublicKey Digest Signature))
    (sent : List (List (ℕ × PrimaryWorkerMessage PublicKey Digest)))
    (h : analyze v outputs = some sent) :
    (executes sent.flatten).map Prod.snd = List.range (executes sent.flatten).length ∧
      ∀ digest, ((executes sent.flatten).map Prod.fst).count digest =
        outputs.countP (listsBatch v digest) := by
  rw [executes_analyzeFrom h, List.length_zipIdx]
  refine ⟨?_, fun digest => ?_⟩
  · rw [List.zipIdx_map_snd, List.range_eq_range']
  · rw [List.zipIdx_map_fst]
    exact count_dispatchedFrom v 0 outputs digest

section Sample

open Toy NumberSample

theorem executes_spec_sample :
    ∃ sent : List (List (ℕ × PrimaryWorkerMessage ℕ ℕ)),
      (executes sent.flatten).map Prod.snd = List.range (executes sent.flatten).length ∧
        ∀ digest, ((executes sent.flatten).map Prod.fst).count digest =
          [ConsensusOutput.certificate (certificate twoWorkers)].countP
            (listsBatch oneFirst digest) :=
  ⟨_, executes_spec oneFirst [.certificate (certificate twoWorkers)] _ rfl⟩

/-! ### A batch that is listed by two headers

Authority 0 has a quorum of the stake. The leader of round 4 is authority 1, both of whose
earlier headers list the batch 7. -/

namespace Relisting

def committee : Committee ℕ := ⟨⟨[(0, ⟨5, [0]⟩), (1, ⟨1, [0]⟩), (2, ⟨1, [0]⟩)], by decide⟩⟩

/-- The primary of authority 2. -/
def primary : Core.Params ℕ := ⟨2, committee, 50, false⟩

def consensus : Consensus.Params ℕ := ⟨committee, 50⟩

def validator : Validator := ⟨[0], by decide, fun _ l => l, fun _ l => List.Perm.refl l⟩

/-- The digest of the certificate of an authority in a round. -/
def certificateDigest (round author : ℕ) : ℕ := Sha512.sha512 (voteBytes 0 round author)

/-- A certificate of an authority, with the parents that are by the given authors. -/
def certificate (round author : ℕ) (parents : List ℕ) (payload : OrdMap ℕ ℕ) :
    Certificate ℕ ℕ Unit :=
  let h : Header ℕ ℕ Unit :=
    { author := author, round := round, payload := payload, accountCounts := ∅
      avgQueueDelayMs := 0, createdAt := 0, id := 0, signature := ()
      parents := OrdSet.ofList (parents.map (certificateDigest (round - 1))) }
  ⟨{ h with id := h.digest }, [(0, ())]⟩

def batch : OrdMap ℕ ℕ := (∅ : OrdMap ℕ ℕ).insert 7 0

def certificates : List (Certificate ℕ ℕ Unit) :=
  [certificate 1 0 [0] ∅, certificate 1 1 [0] batch, certificate 2 0 [0] ∅,
    certificate 2 1 [0, 1] batch, certificate 3 0 [0, 1] ∅, certificate 4 0 [0] ∅,
    certificate 4 1 [0] ∅, certificate 5 0 [0, 1] ∅, certificate 6 0 [0] ∅, certificate 7 0 [0] ∅]

/-- What consensus outputs. -/
def ordered : List (Certificate ℕ ℕ Unit) :=
  [certificate 1 1 [0] batch, certificate 1 0 [0] ∅, certificate 2 1 [0, 1] batch,
    certificate 2 0 [0] ∅, certificate 3 0 [0, 1] ∅, certificate 4 1 [0] ∅]

/-- The batch is reported, and the certificates come from other primaries. -/
def events : List (Core.Event ℕ ℕ Unit × ℕ) :=
  (.othersBatch 7 0 ∅, 0) :: certificates.map fun c => (.primaryCertificate c, 0)

theorem run_events : Core.Run primary (fun _ _ => True) (events.map Prod.fst)
    (Core.replay primary events) :=
  Core.run_replay primary events (by decide +kernel) (fun _ _ _ _ => trivial)

end Relisting

open Relisting

/-- The certificates that `Core` sends to consensus. -/
def admitted (outputs : List (Core.Output ℕ ℕ Unit)) : List (Certificate ℕ ℕ Unit) :=
  outputs.filterMap fun o => match o with
    | .newCertificate c => some c
    | _ => none

/-- A batch that two certificates list is sent for execution twice. -/
theorem executed_twice :
    ¬ ∀ (p : Core.Params ℕ) (q : Consensus.Params ℕ) (v : Validator)
        (events : List (Core.Event ℕ ℕ Unit)) (s : Core.State ℕ ℕ Unit)
        (log : Consensus.Log ℕ ℕ Unit) (sent : List (List (ℕ × PrimaryWorkerMessage ℕ ℕ))),
        q.committee = p.committee → Core.Run p (fun _ _ => True) events s →
          Consensus.run q (admitted s.outputs) = some log → log.output.Nodup →
          analyze v (log.output.map .certificate) = some sent →
            ∀ digest, ((executes sent.flatten).map Prod.fst).count digest ≤ 1 := by
  intro h
  have hsome : (Consensus.run consensus
      (admitted (Core.replay primary events).outputs)).isSome = true := by decide +kernel
  obtain ⟨log, hlog⟩ := Option.isSome_iff_exists.mp hsome
  have houtput : ∀ log ∈ Consensus.run consensus (admitted (Core.replay primary events).outputs),
      log.output = ordered := by decide +kernel
  have hout := houtput log hlog
  have key := h primary consensus validator _ _ log _ rfl run_events hlog
    (by rw [hout]; decide +kernel) (by rw [hout]; rfl) 7
  exact absurd key (by decide +kernel)

end Sample

end DagBft.Node
