/-
  The `Core` of the primary (`primary/src/core.rs`) with its `Synchronizer`
  (`primary/src/synchronizer.rs`), the store they share with `PayloadReceiver`, and the
  loop that takes messages from the network, from the proposer and from the two waiters.

  Everything that `Core` sends is appended to `outputs`: broadcasts, votes, the commands to
  the waiters, the parents for the `Proposer` and the certificates for consensus. What the
  waiters give back is an input: they may loop back, at any later moment and in any
  order, what they were given (`Event.Enabled`).

  Not modelled: the handlers of messages in flight, and failures of the storage, on which
  the node is killed. A batch that is stored while `Core` handles a message counts as
  stored before it: `Core` reads each payload key at most twice, and keys are never deleted.
-/
import Mathlib
import DagBft.Primary.Aggregators

namespace DagBft

/-- A key of the storage: 32 bytes of a digest, or 36 bytes of a digest and a worker id. -/
inductive StoreKey (Digest : Type)
  | digest (d : Digest)
  | payload (d : Digest) (worker : ℕ)
deriving DecidableEq

/-- What the primary stores. -/
inductive StoreValue (PublicKey Digest Signature : Type) [LinearOrder Digest]
  | header (h : Header PublicKey Digest Signature)
  | certificate (c : Certificate PublicKey Digest Signature)
  | accountCounts (counts : OrdMap ℕ ℕ)

abbrev Store (PublicKey Digest Signature : Type) [LinearOrder Digest] :=
  StoreKey Digest → Option (StoreValue PublicKey Digest Signature)

namespace Core

variable (PublicKey Digest Signature : Type) [LinearOrder PublicKey] [LinearOrder Digest]

/-- What `Core` sends to other tasks and to other nodes. -/
inductive Output
  | broadcastHeader (h : Header PublicKey Digest Signature)
  | broadcastCertificate (c : Certificate PublicKey Digest Signature)
  /-- A vote is created: it is given to `process_vote` or sent to the author. -/
  | createdVote (v : Vote PublicKey Digest Signature)
  | sendVote (v : Vote PublicKey Digest Signature)
  | syncBatches (missing : List (Digest × ℕ)) (h : Header PublicKey Digest Signature)
  | syncParents (missing : List Digest) (h : Header PublicKey Digest Signature)
  | syncCertificate (c : Certificate PublicKey Digest Signature)
  | newParents (parents : List Digest) (round : ℕ)
  | newCertificate (c : Certificate PublicKey Digest Signature)
deriving DecidableEq

structure State where
  /-- The last garbage collected round. -/
  gcRound : ℕ
  /-- The authors of the last voted headers. -/
  lastVoted : ℕ → List PublicKey
  /-- The set of headers we are currently processing. -/
  processing : ℕ → List Digest
  /-- The last header we proposed (for which we are waiting votes). -/
  currentHeader : Header PublicKey Digest Signature
  votesAggregator : VotesAggregator PublicKey Signature
  certificatesAggregators : ℕ → CertificatesAggregator PublicKey Digest
  store : Store PublicKey Digest Signature
  outputs : List (Output PublicKey Digest Signature)
  /-- The consensus round read last. -/
  consensusRound : ℕ
  /-- Whether the task is still running: it stops when it panics. -/
  alive : Bool

/-- The immutable part of `Core`. -/
structure Params where
  name : PublicKey
  committee : Committee PublicKey
  gcDepth : ℕ
  baselineMode : Bool

/-- Why a function of `Core` returns early. `fuel` is never seen, see
    `handle_fuel`. -/
inductive Fault
  | dag (e : DagError PublicKey Digest)
  | panic
  | fuel

abbrev M := ExceptT (Fault PublicKey Digest) (StateM (State PublicKey Digest Signature))

variable {PublicKey Digest Signature}

/-- The `?` operator. -/
def orReturn {α : Type} (x : Except (DagError PublicKey Digest) α) :
    M PublicKey Digest Signature α :=
  match x with
  | .ok a => pure a
  | .error e => throw (.dag e)

/-- `expect`: an error is a panic. -/
def expect {α : Type} (m : M PublicKey Digest Signature α) : M PublicKey Digest Signature α :=
  tryCatch m fun e => match e with
    | .dag _ => throw .panic
    | e => throw e

def send (o : Output PublicKey Digest Signature) : M PublicKey Digest Signature Unit :=
  modify fun s => { s with outputs := s.outputs ++ [o] }

def State.write (s : State PublicKey Digest Signature) (k : StoreKey Digest)
    (v : StoreValue PublicKey Digest Signature) : State PublicKey Digest Signature :=
  { s with store := Function.update s.store k (some v) }

/-- The `HeaderWaiter` was given this header. -/
def State.SuspendedHeader (s : State PublicKey Digest Signature)
    (header : Header PublicKey Digest Signature) : Prop :=
  (∃ missing, .syncBatches missing header ∈ s.outputs) ∨
    ∃ missing, .syncParents missing header ∈ s.outputs

/-- The header that an output gives to the `HeaderWaiter`. -/
def Output.suspended :
    Output PublicKey Digest Signature → Option (Header PublicKey Digest Signature)
  | .syncBatches _ h | .syncParents _ h => some h
  | _ => none

omit [LinearOrder PublicKey] in
theorem State.suspendedHeader_iff {s : State PublicKey Digest Signature}
    {header : Header PublicKey Digest Signature} :
    s.SuspendedHeader header ↔ ∃ o ∈ s.outputs, o.suspended = some header := by
  constructor
  · rintro (⟨missing, hm⟩ | ⟨missing, hm⟩)
    · exact ⟨_, hm, rfl⟩
    · exact ⟨_, hm, rfl⟩
  · rintro ⟨o, ho, hm⟩
    cases o with
    | syncBatches missing h => exact Or.inl ⟨missing, Option.some.inj hm ▸ ho⟩
    | syncParents missing h => exact Or.inr ⟨missing, Option.some.inj hm ▸ ho⟩
    | _ => cases hm

instance (s : State PublicKey Digest Signature) (header : Header PublicKey Digest Signature)
    [DecidableEq Signature] : Decidable (s.SuspendedHeader header) :=
  decidable_of_iff' _ State.suspendedHeader_iff

/-- The `CertificateWaiter` was given this certificate. -/
def State.SuspendedCertificate (s : State PublicKey Digest Signature)
    (certificate : Certificate PublicKey Digest Signature) : Prop :=
  .syncCertificate certificate ∈ s.outputs

instance (s : State PublicKey Digest Signature)
    (certificate : Certificate PublicKey Digest Signature) [DecidableEq Signature] :
    Decidable (s.SuspendedCertificate certificate) :=
  inferInstanceAs (Decidable (_ ∈ s.outputs))

variable [AsBytes PublicKey] [AsBytes Digest] [Sha512 Digest]
  [Inhabited PublicKey] [Inhabited Digest] [Inhabited Signature]
  [Ed25519 PublicKey Digest Signature]

variable (p : Params PublicKey)

/-! ## Synchronizer -/

/-- The genesis certificate with this digest. -/
def findGenesis (d : Digest) : Option (Certificate PublicKey Digest Signature) :=
  (Certificate.genesis p.committee).find? fun x => x.digest = d

/-- The loop of `get_parents`: the parents that are there, and the digests of those that
    are missing. -/
def readParents (store : Store PublicKey Digest Signature) :
    List Digest → Except (DagError PublicKey Digest)
      (List (Certificate PublicKey Digest Signature) × List Digest)
  | [] => .ok ([], [])
  | digest :: digests =>
      match findGenesis p digest with
      | some genesis => do
          let (parents, missing) ← readParents store digests
          .ok (genesis :: parents, missing)
      | none =>
          match store (.digest digest) with
          | some (.certificate certificate) => do
              let (parents, missing) ← readParents store digests
              .ok (certificate :: parents, missing)
          -- these are not the bytes of a certificate
          | some _ => .error .serializationError
          | none => do
              let (parents, missing) ← readParents store digests
              .ok (parents, digest :: missing)

/-- Returns the parents of a header if we have them all, and the empty list otherwise. -/
def getParents (header : Header PublicKey Digest Signature) :
    M PublicKey Digest Signature (List (Certificate PublicKey Digest Signature)) := do
  let s ← get
  let (parents, missing) ← orReturn (readParents p s.store header.parents.toList)
  if missing = [] then
    return parents
  send (.syncParents missing header)
  return []

/-- The batches of the payload that we do not have. -/
def missingBatches (store : Store PublicKey Digest Signature)
    (header : Header PublicKey Digest Signature) : List (Digest × ℕ) :=
  header.payload.entries.filter fun x => (store (.payload x.1 x.2)).isNone

/-- Whether part of the payload is missing. -/
def missingPayload (header : Header PublicKey Digest Signature) :
    M PublicKey Digest Signature Bool := do
  -- We don't store the payload of our own workers.
  if header.author = p.name then
    return false
  let s ← get
  let missing := missingBatches s.store header
  if missing = [] then
    return false
  send (.syncBatches missing header)
  return true

/-- Check whether we have all the ancestors of the certificate. -/
def deliverCertificate (certificate : Certificate PublicKey Digest Signature) :
    M PublicKey Digest Signature Bool := do
  let s ← get
  if certificate.header.parents.toList.all fun d =>
      (findGenesis p d : Option (Certificate PublicKey Digest Signature)).isSome ||
        (s.store (.digest d)).isSome then
    return true
  send (.syncCertificate certificate)
  return false

/-! ## Processing -/

/-- The loop of `process_header` over the parents: their stake. -/
def checkParents (header : Header PublicKey Digest Signature) :
    List (Certificate PublicKey Digest Signature) → ℕ → Except (DagError PublicKey Digest) ℕ
  | [], stake => .ok stake
  | x :: parents, stake => do
      ensure (x.round + 1 = header.round) (.malformedHeader header.id)
      checkParents header parents (u32 (stake + p.committee.stake x.origin))

/-- Add the counts of a batch to those of the header, on `u16`. -/
def addCounts (expected counts : OrdMap ℕ ℕ) : OrdMap ℕ ℕ :=
  counts.entries.foldl (fun m x => m.insert x.1 (((m.get x.1).getD 0 + x.2) % 2 ^ 16)) expected

/-- The sum of per-batch counts we computed. -/
def expectedCounts (store : Store PublicKey Digest Signature)
    (header : Header PublicKey Digest Signature) : OrdMap ℕ ℕ :=
  header.payload.entries.foldl (fun expected x =>
    match store (.payload x.1 x.2) with
    | some (.accountCounts counts) => addCounts expected counts
    | _ => expected) ∅

/-- Indicate that we are processing this header. -/
def markProcessing (header : Header PublicKey Digest Signature) :
    M PublicKey Digest Signature Unit :=
  modify fun s => { s with
    processing := Function.update s.processing header.round
      (header.id :: s.processing header.round) }

/-- Make a vote, if we can vote for this header: it is the first of its author and round
    that `last_voted` knows of. -/
def createVote (header : Header PublicKey Digest Signature) :
    M PublicKey Digest Signature (Option (Vote PublicKey Digest Signature)) := do
  let s ← get
  if header.author ∈ s.lastVoted header.round then
    return none
  set { s with
    lastVoted := Function.update s.lastVoted header.round
      (header.author :: s.lastVoted header.round) }
  let vote := Vote.new header p.name
  send (.createdVote vote)
  return some vote

def writeStore (k : StoreKey Digest) (v : StoreValue PublicKey Digest Signature) :
    M PublicKey Digest Signature Unit :=
  modify fun s => s.write k v

/-- Append a certificate to the aggregator of its round. -/
def appendCertificate (certificate : Certificate PublicKey Digest Signature) :
    M PublicKey Digest Signature (Option (List Digest)) := do
  let s ← get
  let agg := (s.certificatesAggregators certificate.round).append certificate p.committee
  set { s with
    certificatesAggregators := Function.update s.certificatesAggregators certificate.round agg.1 }
  return agg.2

/-- Append a vote for the current header. -/
def appendVote (vote : Vote PublicKey Digest Signature) :
    M PublicKey Digest Signature (Option (Certificate PublicKey Digest Signature)) := do
  let s ← get
  let agg ← orReturn (s.votesAggregator.append vote p.committee s.currentHeader)
  set { s with votesAggregator := agg.1 }
  return agg.2

/-- `process_certificate`, given what it calls for the embedded header. -/
def processCertificateWith
    (processHeader : Header PublicKey Digest Signature → M PublicKey Digest Signature Unit)
    (certificate : Certificate PublicKey Digest Signature) : M PublicKey Digest Signature Unit := do
  -- Process the header embedded in the certificate if we haven't already voted for it.
  let s ← get
  if certificate.header.id ∉ s.processing certificate.header.round then
    processHeader certificate.header
  -- Ensure we have all the ancestors of this certificate yet.
  if ! (← deliverCertificate p certificate) then
    return
  -- Store the certificate.
  writeStore (.digest certificate.digest) (.certificate certificate)
  -- Check if we have enough certificates to enter a new dag round and propose a header.
  match ← appendCertificate p certificate with
  | some parents => send (.newParents parents certificate.round)
  | none => pure ()
  -- Send it to the consensus layer.
  send (.newCertificate certificate)

/-- `process_vote`, given what `process_certificate` calls for the embedded header. -/
def processVoteWith
    (processHeader : Header PublicKey Digest Signature → M PublicKey Digest Signature Unit)
    (vote : Vote PublicKey Digest Signature) : M PublicKey Digest Signature Unit := do
  -- Add it to the votes' aggregator and try to make a new certificate.
  match ← appendVote p vote with
  | some certificate =>
      -- Broadcast the certificate.
      send (.broadcastCertificate certificate)
      -- Process the new certificate.
      expect (processCertificateWith p processHeader certificate)
  | none => pure ()

/-- `process_header`. The fuel bounds the recursion through our own vote. -/
def processHeader : ℕ → Header PublicKey Digest Signature → M PublicKey Digest Signature Unit
  | 0, _ => throw .fuel
  | n + 1, header => do
      markProcessing header
      -- Ensure we have the parents.
      let parents ← getParents p header
      if parents = [] then
        return
      -- Ensure the parents form a quorum and are all from the previous round.
      let stake ← orReturn (checkParents p header parents 0)
      orReturn (ensure (p.committee.quorumThreshold ≤ stake) (.headerRequiresQuorum header.id))
      -- Ensure we have the payload.
      if ← missingPayload p header then
        return
      -- Verify that the header's account_counts matches the per-batch counts we computed.
      if header.author ≠ p.name ∧ p.baselineMode = false then
        let s ← get
        orReturn (ensure (expectedCounts s.store header = header.accountCounts)
          (.malformedHeader header.id))
      -- Store the header.
      writeStore (.digest header.id) (.header header)
      -- Check if we can vote for this header.
      match ← createVote p header with
      | none => pure ()
      | some vote =>
          -- Send it to the header's creator.
          if vote.origin = p.name then
            expect (processVoteWith p (processHeader n) vote)
          else if header.author ∈ p.committee.keys then
            send (.sendVote vote)
          else
            throw .panic

/-- The recursion ends at the header that is certified by our own vote. -/
def recursionDepth : ℕ := 2

def processVote (vote : Vote PublicKey Digest Signature) : M PublicKey Digest Signature Unit :=
  processVoteWith p (processHeader p recursionDepth) vote

def processCertificate (certificate : Certificate PublicKey Digest Signature) :
    M PublicKey Digest Signature Unit :=
  processCertificateWith p (processHeader p recursionDepth) certificate

def processOwnHeader (header : Header PublicKey Digest Signature) :
    M PublicKey Digest Signature Unit := do
  -- Reset the votes aggregator.
  modify fun s => { s with currentHeader := header, votesAggregator := VotesAggregator.new }
  -- Broadcast the new header in a reliable manner.
  send (.broadcastHeader header)
  -- Process the header.
  processHeader p recursionDepth header

/-! ## Sanitizing -/

def sanitizeHeader (header : Header PublicKey Digest Signature) :
    M PublicKey Digest Signature Unit := do
  let s ← get
  orReturn (ensure (s.gcRound ≤ header.round) (.tooOld header.id header.round))
  -- Verify the header's signature.
  orReturn (header.verify p.committee)

def sanitizeVote (vote : Vote PublicKey Digest Signature) : M PublicKey Digest Signature Unit := do
  let s ← get
  orReturn (ensure (s.currentHeader.round = vote.round) (.tooOld vote.digest vote.round))
  -- Ensure we receive a vote on the expected header.
  orReturn (ensure (vote.id = s.currentHeader.id ∧ vote.origin = s.currentHeader.author ∧
    vote.round = s.currentHeader.round) (.unexpectedVote vote.id))
  -- Verify the vote.
  orReturn (vote.verify p.committee)

def sanitizeCertificate (certificate : Certificate PublicKey Digest Signature) :
    M PublicKey Digest Signature Unit := do
  let s ← get
  orReturn (ensure (s.gcRound ≤ certificate.round) (.tooOld certificate.digest certificate.round))
  -- Verify the certificate (and the embedded header).
  orReturn (certificate.verify p.committee)

/-! ## The main loop -/

variable (PublicKey Digest Signature) in
/-- What the task receives, and the batches that `PayloadReceiver` stores meanwhile. -/
inductive Event
  /-- From other primaries. -/
  | primaryHeader (header : Header PublicKey Digest Signature)
  | primaryVote (vote : Vote PublicKey Digest Signature)
  | primaryCertificate (certificate : Certificate PublicKey Digest Signature)
  /-- From `HeaderWaiter`. -/
  | loopbackHeader (header : Header PublicKey Digest Signature)
  /-- From `CertificateWaiter`. -/
  | loopbackCertificate (certificate : Certificate PublicKey Digest Signature)
  /-- From the `Proposer`. -/
  | ownHeader (header : Header PublicKey Digest Signature)
  /-- A batch of another authority, stored by `PayloadReceiver`. -/
  | othersBatch (digest : Digest) (worker : ℕ) (counts : OrdMap ℕ ℕ)

/-- The branches of `select!`. -/
def handle : Event PublicKey Digest Signature → M PublicKey Digest Signature Unit
  | .primaryHeader header => do
      sanitizeHeader p header
      processHeader p recursionDepth header
  | .primaryVote vote => do
      sanitizeVote p vote
      processVote p vote
  | .primaryCertificate certificate => do
      sanitizeCertificate p certificate
      processCertificate p certificate
  | .loopbackHeader header => processHeader p recursionDepth header
  | .loopbackCertificate certificate => processCertificate p certificate
  | .ownHeader header => processOwnHeader p header
  | .othersBatch digest worker counts => writeStore (.payload digest worker) (.accountCounts counts)

/-- Whether it is `Core` that handles the event. -/
def Event.ofCore : Event PublicKey Digest Signature → Bool
  | .othersBatch .. => false
  | _ => true

/-- Cleanup internal state. -/
def State.cleanup (s : State PublicKey Digest Signature) (gcDepth round : ℕ) :
    State PublicKey Digest Signature :=
  if gcDepth < round then
    let gcRound := round - gcDepth
    { s with
      lastVoted := fun k => if gcRound ≤ k then s.lastVoted k else []
      processing := fun k => if gcRound ≤ k then s.processing k else []
      certificatesAggregators := fun k =>
        if gcRound ≤ k then s.certificatesAggregators k else CertificatesAggregator.new
      gcRound := gcRound
      consensusRound := round }
  else { s with consensusRound := round }

section Cleanup

variable (s : State PublicKey Digest Signature) (gcDepth round : ℕ)

omit [LinearOrder PublicKey] [AsBytes PublicKey] [AsBytes Digest] [Sha512 Digest]
  [Inhabited PublicKey] [Inhabited Digest] [Inhabited Signature]
  [Ed25519 PublicKey Digest Signature]

@[simp]
theorem State.cleanup_store : (s.cleanup gcDepth round).store = s.store := by
  unfold State.cleanup
  split <;> rfl

@[simp]
theorem State.cleanup_currentHeader :
    (s.cleanup gcDepth round).currentHeader = s.currentHeader := by
  unfold State.cleanup
  split <;> rfl

@[simp]
theorem State.cleanup_outputs : (s.cleanup gcDepth round).outputs = s.outputs := by
  unfold State.cleanup
  split <;> rfl

end Cleanup

/-- One iteration of the loop, with the consensus round that the clean-up reads. A panic
    ends the task; other errors are only logged. -/
def step (s : State PublicKey Digest Signature) (e : Event PublicKey Digest Signature)
    (round : ℕ) : State PublicKey Digest Signature :=
  match (handle p e).run.run s with
  | (.error .panic, s) | (.error .fuel, s) => { s with alive := false }
  | (_, s) => if e.ofCore then s.cleanup p.gcDepth round else s

/-- A step is what the event does, followed by the end of the task or by a clean-up. -/
theorem step_of_handle {I J : State PublicKey Digest Signature → Prop}
    {s : State PublicKey Digest Signature} {e : Event PublicKey Digest Signature} {round : ℕ}
    (hkeep : I ((handle p e).run.run s).2) (hstop : ∀ s, I s → J { s with alive := false })
    (hclean : ∀ s, I s → J (s.cleanup p.gcDepth round)) (hskip : ∀ s, I s → J s) :
    J (step p s e round) := by
  unfold step
  generalize (handle p e).run.run s = x at hkeep ⊢
  obtain ⟨result, s'⟩ := x
  have hend : J (if e.ofCore then s'.cleanup p.gcDepth round else s') := by
    by_cases hc : e.ofCore
    · rw [if_pos hc]
      exact hclean s' hkeep
    · rw [if_neg hc]
      exact hskip s' hkeep
  match result with
  | .ok _ => exact hend
  | .error (.dag _) => exact hend
  | .error .panic => exact hstop s' hkeep
  | .error .fuel => exact hstop s' hkeep

/-- What can happen next: the task is running, the waiters loop back what they were given,
    and the consensus round does not decrease. -/
def Enabled (s : State PublicKey Digest Signature) (e : Event PublicKey Digest Signature)
    (round : ℕ) : Prop :=
  s.alive ∧ s.consensusRound ≤ round ∧
    match e with
    | .loopbackHeader header => s.SuspendedHeader header
    | .loopbackCertificate certificate => s.SuspendedCertificate certificate
    | _ => True

instance (s : State PublicKey Digest Signature) (e : Event PublicKey Digest Signature)
    (round : ℕ) [DecidableEq Signature] : Decidable (Enabled s e round) := by
  unfold Enabled
  cases e <;> infer_instance

/-- The state in which the task is spawned. -/
def State.initial : State PublicKey Digest Signature where
  gcRound := 0
  lastVoted _ := []
  processing _ := []
  currentHeader := default
  votesAggregator := VotesAggregator.new
  certificatesAggregators _ := CertificatesAggregator.new
  store _ := none
  outputs := []
  consensusRound := 0
  alive := true

/-- The states that `Core` goes through. Every step satisfies `C` in the state before it. -/
inductive Run (C : State PublicKey Digest Signature → Event PublicKey Digest Signature → Prop) :
    List (Event PublicKey Digest Signature) → State PublicKey Digest Signature → Prop
  | initial : Run C [] State.initial
  | step {events : List (Event PublicKey Digest Signature)}
      {s : State PublicKey Digest Signature} (run : Run C events s)
      (e : Event PublicKey Digest Signature) (round : ℕ) (enabled : Enabled s e round)
      (cond : C s e) : Run C (events ++ [e]) (step p s e round)

/-- The state after some events, with the consensus rounds that the clean-ups read. -/
def replay (events : List (Event PublicKey Digest Signature × ℕ)) :
    State PublicKey Digest Signature :=
  events.foldl (fun s x => step p s x.1 x.2) State.initial

/-- Whether a list of events is a run can be evaluated. -/
theorem run_replay {C : State PublicKey Digest Signature → Event PublicKey Digest Signature → Prop}
    (events : List (Event PublicKey Digest Signature × ℕ))
    (henabled : ∀ i ∈ List.range events.length, ∀ x ∈ events[i]?,
      Enabled (replay p (events.take i)) x.1 x.2)
    (hcond : ∀ i ∈ List.range events.length, ∀ x ∈ events[i]?, C (replay p (events.take i)) x.1) :
    Run p C (events.map Prod.fst) (replay p events) := by
  induction events using List.reverseRecOn with
  | nil => exact Run.initial
  | append_singleton events x ih =>
      have hlast : ∀ D : State PublicKey Digest Signature →
          Event PublicKey Digest Signature × ℕ → Prop,
          (∀ i ∈ List.range (events ++ [x]).length, ∀ y ∈ (events ++ [x])[i]?,
            D (replay p ((events ++ [x]).take i)) y) →
          D (replay p events) x ∧ ∀ i ∈ List.range events.length, ∀ y ∈ events[i]?,
            D (replay p (events.take i)) y := by
        intro D hD
        refine ⟨?_, fun i hi y hy => ?_⟩
        · have key := hD events.length (by simp) x (by simp)
          rwa [List.take_left] at key
        · have hlt := List.mem_range.mp hi
          have key := hD i (List.mem_range.mpr (by simp; omega)) y
            (by rwa [List.getElem?_append_left hlt])
          rwa [List.take_append_of_le_length hlt.le] at key
      obtain ⟨hen, henabled⟩ := hlast (fun s y => Enabled s y.1 y.2) henabled
      obtain ⟨hc, hcond⟩ := hlast (fun s y => C s y.1) hcond
      have hstep := Run.step (ih henabled hcond) x.1 x.2 hen hc
      unfold replay at hstep ⊢
      rw [List.map_append, List.foldl_append]
      exact hstep

end Core

end DagBft
