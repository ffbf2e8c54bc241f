/-
  One primary with its consensus task (`primary/src/primary.rs`): the tasks that
  `Primary::spawn` starts, in any order of their steps, and the channels between them.

  `Core`, the `Proposer` and `Consensus` are those of their own modules. The
  `CertificateWaiter` (`primary/src/certificate_waiter.rs`) and the `GarbageCollector`
  (`primary/src/garbage_collector.rs`) are modelled here. A `notify_read` is answered once its
  key is in the storage, from which a primary deletes nothing, so a waiter is done when all
  the parents it waits for are there. Of the `HeaderWaiter` it is only used that it loops back
  what it was given. Channels are not bounded.

  `node_refines`: such a primary is a run of `Core` in which what `Primary/Core` and
  `Primary/Assembly` assume of the other tasks holds.
-/
import DagBft.Consensus.State
import DagBft.Lib.Runs
import DagBft.Primary.Advance
import DagBft.Primary.Proposals

namespace DagBft.Primaries

open DagBft.Core

variable (PublicKey Digest Signature : Type) [LinearOrder PublicKey] [LinearOrder Digest]

/-- The options of a primary. -/
structure Params where
  name : PublicKey
  committee : Committee PublicKey
  gcDepth : ℕ
  baselineMode : Bool
  headerSize : ℕ

/-- The state of the tasks, what is in the channels, and how many messages have been read from
    those that `Core` and `Consensus` send to. -/
structure Node where
  core : Core.State PublicKey Digest Signature
  proposer : Proposer.State Digest
  /-- From the `Proposer` to `Core`. -/
  rxProposer : List (Header PublicKey Digest Signature)
  parentsRead : ℕ
  /-- The futures of the `CertificateWaiter`. -/
  waiting : List (Certificate PublicKey Digest Signature)
  suspendedRead : ℕ
  /-- From the `CertificateWaiter` to `Core`. -/
  rxCertificateWaiter : List (Certificate PublicKey Digest Signature)
  /-- The state of `Consensus`, `none` once it has panicked. -/
  log : Option (Consensus.Log PublicKey Digest Signature)
  certificatesRead : ℕ
  /-- From `Consensus` to the `GarbageCollector`. -/
  feedback : List (Certificate PublicKey Digest Signature)
  feedbackRead : ℕ
  /-- The variable of the `GarbageCollector`. -/
  lastCommittedRound : ℕ
  /-- The atomic variable that all tasks share. -/
  consensusRound : ℕ
  /-- The rounds of the `Cleanup` messages to our workers. -/
  cleanups : List ℕ

inductive Action
  /-- `Core` takes a message of another primary, or a header that is looped back; or a batch of
      another authority is stored. -/
  | message (e : Core.Event PublicKey Digest Signature)
  /-- `Core` takes a header of the `Proposer`. -/
  | ownHeader
  /-- `Core` takes a certificate of the `CertificateWaiter`. -/
  | loopbackCertificate
  /-- One iteration of the loop of the `Proposer`. -/
  | propose (now : ℕ) (timerExpired : Bool) (e : Proposer.Event Digest)
  /-- The `CertificateWaiter` takes a certificate. -/
  | wait
  /-- One of its futures is done. -/
  | done (certificate : Certificate PublicKey Digest Signature)
  | consensus
  | collectGarbage

variable {PublicKey Digest Signature}

namespace Params

variable (p : Params PublicKey)

def core : Core.Params PublicKey := ⟨p.name, p.committee, p.gcDepth, p.baselineMode⟩

def proposer : Proposer.Params PublicKey := ⟨p.name, p.committee, p.headerSize⟩

def consensus : Consensus.Params PublicKey := ⟨p.committee, p.gcDepth⟩

end Params

/-! ## Channels -/

/-- What `Core` has sent to the `Proposer`. -/
def parentsSent (s : Core.State PublicKey Digest Signature) : List (List Digest × ℕ) :=
  s.outputs.filterMap fun o => match o with
    | .newParents parents round => some (parents, round)
    | _ => none

/-- What `Core` has sent to the `CertificateWaiter`. -/
def suspended (s : Core.State PublicKey Digest Signature) :
    List (Certificate PublicKey Digest Signature) :=
  s.outputs.filterMap fun o => match o with
    | .syncCertificate c => some c
    | _ => none

/-- The certificate that an output sends to `Consensus`. -/
def deliveredBy :
    Output PublicKey Digest Signature → Option (Certificate PublicKey Digest Signature)
  | .newCertificate c => some c
  | _ => none

/-- What `Core` has sent to `Consensus`. -/
def delivered (s : Core.State PublicKey Digest Signature) :
    List (Certificate PublicKey Digest Signature) :=
  s.outputs.filterMap deliveredBy

/-- The certificates that came back to `Core`. -/
def returned (events : List (Core.Event PublicKey Digest Signature)) :
    List (Certificate PublicKey Digest Signature) :=
  events.filterMap fun e => match e with
    | .loopbackCertificate c => some c
    | _ => none

omit [LinearOrder PublicKey] in
theorem mem_parentsSent {s : Core.State PublicKey Digest Signature} {parents : List Digest}
    {round : ℕ} : (parents, round) ∈ parentsSent s ↔ .newParents parents round ∈ s.outputs := by
  unfold parentsSent
  rw [List.mem_filterMap]
  constructor
  · rintro ⟨o, ho, hsent⟩
    cases o <;> simp_all
  · exact fun ho => ⟨_, ho, rfl⟩

omit [LinearOrder PublicKey] in
theorem mem_suspended {s : Core.State PublicKey Digest Signature}
    {c : Certificate PublicKey Digest Signature} :
    c ∈ suspended s ↔ s.SuspendedCertificate c := by
  unfold suspended
  rw [List.mem_filterMap]
  constructor
  · rintro ⟨o, ho, hsent⟩
    cases o <;> simp_all [State.SuspendedCertificate]
  · exact fun ho => ⟨_, ho, rfl⟩

omit [LinearOrder PublicKey] in
theorem deliveredBy_eq_some {o : Output PublicKey Digest Signature}
    {c : Certificate PublicKey Digest Signature} :
    deliveredBy o = some c ↔ o = .newCertificate c := by
  cases o <;> simp [deliveredBy]

omit [LinearOrder PublicKey] in
theorem mem_delivered {s : Core.State PublicKey Digest Signature}
    {c : Certificate PublicKey Digest Signature} :
    c ∈ delivered s ↔ .newCertificate c ∈ s.outputs := by
  simp [delivered, deliveredBy_eq_some]

/-! ## Steps -/

variable [AsBytes PublicKey] [AsBytes Digest] [Sha512 Digest]
  [Inhabited PublicKey] [Inhabited Digest] [Inhabited Signature]
  [Ed25519 PublicKey Digest Signature]

/-- Not from the channels within the primary. -/
def External : Core.Event PublicKey Digest Signature → Bool
  | .ownHeader _ | .loopbackCertificate _ => false
  | _ => true

namespace Node

def initial (p : Params PublicKey) : Node PublicKey Digest Signature where
  core := Core.State.initial
  proposer := Proposer.State.initial Signature p.proposer
  rxProposer := []
  parentsRead := 0
  waiting := []
  suspendedRead := 0
  rxCertificateWaiter := []
  log := some (Consensus.Log.initial p.consensus)
  certificatesRead := 0
  feedback := []
  feedbackRead := 0
  lastCommittedRound := 0
  consensusRound := 0
  cleanups := []

variable (p : Params PublicKey) (n : Node PublicKey Digest Signature)

/-- The event that `Core` handles, if any, in an action that can be taken. -/
def coreEvent : Action PublicKey Digest Signature →
    Option (Core.Event PublicKey Digest Signature)
  | .message e => if External e then some e else none
  | .ownHeader => n.rxProposer.head?.map .ownHeader
  | .loopbackCertificate => n.rxCertificateWaiter.head?.map .loopbackCertificate
  | _ => none

/-- `Core` handles an event, unless it has panicked. -/
def coreStep (e : Core.Event PublicKey Digest Signature) :
    Option (Node PublicKey Digest Signature) :=
  if n.core.alive then some { n with core := Core.step p.core n.core e n.consensusRound } else none

/-- The iteration of the `Proposer`: the header it makes goes to `Core`. -/
def proposerStep (now : ℕ) (timerExpired : Bool) (e : Proposer.Event Digest) :
    Node PublicKey Digest Signature :=
  { n with
    rxProposer := n.rxProposer ++
      if Proposer.proposes p.proposer timerExpired n.proposer then
        [Proposer.newHeader Signature p.proposer now n.proposer]
      else []
    proposer := Proposer.step p.proposer n.proposer timerExpired e }

/-- `Consensus` takes a certificate, and sends what it outputs to the `GarbageCollector`. -/
def consensusStep (log : Consensus.Log PublicKey Digest Signature)
    (c : Certificate PublicKey Digest Signature) : Node PublicKey Digest Signature :=
  match Consensus.logStep p.consensus log c with
  | none => { n with log := none, certificatesRead := n.certificatesRead + 1 }
  | some log =>
      { n with log := some log, certificatesRead := n.certificatesRead + 1, feedback := log.output }

/-- The `GarbageCollector` takes a certificate. -/
def collect (c : Certificate PublicKey Digest Signature) : Node PublicKey Digest Signature :=
  if n.lastCommittedRound < c.round then
    { n with
      feedbackRead := n.feedbackRead + 1
      lastCommittedRound := c.round
      -- Trigger cleanup on the primary.
      consensusRound := c.round
      -- Trigger cleanup on the workers.
      cleanups := n.cleanups ++ [c.round] }
  else { n with feedbackRead := n.feedbackRead + 1 }

/-- The storage has all the parents that the waiter asks for: those of genesis certificates
    too. -/
def Stored (store : Store PublicKey Digest Signature)
    (c : Certificate PublicKey Digest Signature) : Bool :=
  c.header.parents.toList.all fun d => (store (.digest d)).isSome

/-- One step of one task, `none` if it cannot be taken. -/
def step [DecidableEq Signature] (p : Params PublicKey) (n : Node PublicKey Digest Signature) :
    Action PublicKey Digest Signature → Option (Node PublicKey Digest Signature)
  | .message e => if External e then n.coreStep p e else none
  | .ownHeader =>
      match n.rxProposer with
      | [] => none
      | header :: headers => { n with rxProposer := headers }.coreStep p (.ownHeader header)
  | .loopbackCertificate =>
      match n.rxCertificateWaiter with
      | [] => none
      | certificate :: certificates =>
          { n with rxCertificateWaiter := certificates }.coreStep p
            (.loopbackCertificate certificate)
  | .propose now timerExpired e =>
      match e with
      | .newParents parents round =>
          if (parentsSent n.core)[n.parentsRead]? = some (parents, round) then
            some { n.proposerStep p now timerExpired e with parentsRead := n.parentsRead + 1 }
          else none
      | _ => some (n.proposerStep p now timerExpired e)
  | .wait =>
      (suspended n.core)[n.suspendedRead]?.map fun certificate =>
        { n with
          suspendedRead := n.suspendedRead + 1
          waiting := n.waiting ++ [certificate] }
  | .done certificate =>
      if certificate ∈ n.waiting ∧ Stored n.core.store certificate then
        some { n with
          waiting := n.waiting.erase certificate
          rxCertificateWaiter := n.rxCertificateWaiter ++ [certificate] }
      else none
  | .consensus =>
      match n.log, (delivered n.core)[n.certificatesRead]? with
      | some log, some certificate => some (n.consensusStep p log certificate)
      | _, _ => none
  | .collectGarbage => n.feedback[n.feedbackRead]?.map n.collect

end Node

/-- What the other primaries and our workers promise: `C` of the messages to `Core`, and that
    batches are reported by workers of ours. A header that is looped back was given to the
    `HeaderWaiter`. -/
def Permitted (p : Params PublicKey)
    (C : Core.State PublicKey Digest Signature → Core.Event PublicKey Digest Signature → Prop)
    (n : Node PublicKey Digest Signature) (a : Action PublicKey Digest Signature) : Prop :=
  (∀ e, n.coreEvent a = some e → C n.core e) ∧
    match a with
    | .message (.loopbackHeader h) => n.core.SuspendedHeader h
    | .propose _ _ (.ourBatch _ worker _ _) => p.committee.hasWorker p.name worker = true
    | _ => True

/-! ## The invariant -/

/-- What the `Proposer` waits with: batches of our workers, and parents that `Core` has sent it
    or those of the start. -/
structure Proposable (p : Params PublicKey) (s : Core.State PublicKey Digest Signature)
    (ps : Proposer.State Digest) : Prop where
  workers : ∀ x ∈ ps.digests, p.committee.hasWorker p.name x.2 = true
  parents : ps.lastParents ≠ [] →
    ps.round = 1 ∧ ps.lastParents = genesisDigests p.committee Signature ∨
      ∃ round, ps.round = round + 1 ∧ .newParents ps.lastParents round ∈ s.outputs

/-- The headers on their way to `Core` are of later and later rounds. -/
structure Proposing (p : Params PublicKey) (n : Node PublicKey Digest Signature) : Prop where
  waiting : Proposable p n.core n.proposer
  made : ∀ h ∈ n.rxProposer, ∃ ps now, h = Proposer.newHeader Signature p.proposer now ps ∧
    ps.lastParents ≠ [] ∧ Proposable p n.core ps
  increasing : (n.core.currentHeader :: n.rxProposer).Pairwise fun h h' => h.round < h'.round
  lt_round : ∀ h ∈ n.core.currentHeader :: n.rxProposer,
    h.round < n.proposer.round ∨ h.round = n.proposer.round ∧ n.proposer.lastParents = []

/-- A certificate that was suspended waits, or is on its way back, or came back to `Core`. -/
structure Waiting (p : Params PublicKey) (events : List (Core.Event PublicKey Digest Signature))
    (n : Node PublicKey Digest Signature) : Prop where
  read_le : n.suspendedRead ≤ (suspended n.core).length
  accounted : ((suspended n.core).take n.suspendedRead).Perm
    (n.waiting ++ n.rxCertificateWaiter ++ returned events)
  held : ∀ c ∈ n.rxCertificateWaiter, ParentsHeld p.core n.core.store c

/-- `Consensus` is at some point of what it is sent, and garbage is collected for what it has
    committed. -/
structure Committing (p : Params PublicKey) (n : Node PublicKey Digest Signature) : Prop where
  read_le : n.certificatesRead ≤ (delivered n.core).length
  log : n.log = Consensus.run p.consensus ((delivered n.core).take n.certificatesRead)
  output : ∀ l, n.log = some l → n.feedback = l.output
  feedback : ∃ k ≤ n.certificatesRead, ∃ l,
    Consensus.run p.consensus ((delivered n.core).take k) = some l ∧ n.feedback = l.output
  shared : n.consensusRound = n.lastCommittedRound
  committed : n.consensusRound = 0 ∨ ∃ c ∈ n.feedback, c.round = n.consensusRound
  behind : n.core.consensusRound ≤ n.consensusRound
  gcRound : n.core.gcRound = 0 ∨ ∃ c ∈ n.feedback, n.core.gcRound + p.gcDepth = c.round

structure Coupled (p : Params PublicKey) (events : List (Core.Event PublicKey Digest Signature))
    (n : Node PublicKey Digest Signature) : Prop where
  proposing : Proposing p n
  waiting : Waiting p events n
  committing : Committing p n

theorem coupled_initial (p : Params PublicKey) :
    Coupled p [] (Node.initial p : Node PublicKey Digest Signature) where
  proposing :=
    { waiting :=
        { workers := fun x hx => absurd hx List.not_mem_nil
          parents := fun _ => Or.inl ⟨rfl, rfl⟩ }
      made := fun h hh => absurd hh List.not_mem_nil
      increasing := List.pairwise_singleton _ _
      lt_round := fun h hh => by
        rw [List.mem_singleton.mp hh]
        exact Or.inl Nat.zero_lt_one }
  waiting := ⟨Nat.zero_le _, List.Perm.refl _, fun c hc => absurd hc List.not_mem_nil⟩
  committing :=
    { read_le := Nat.zero_le _
      log := rfl
      output := fun l hl => by
        rw [← Option.some.inj hl]
        rfl
      feedback := ⟨0, le_rfl, _, rfl, rfl⟩
      shared := rfl
      committed := Or.inl rfl
      behind := Nat.zero_le _
      gcRound := Or.inl rfl }

variable {p : Params PublicKey} {n n' : Node PublicKey Digest Signature}
  {events : List (Core.Event PublicKey Digest Signature)}
  {s s' : Core.State PublicKey Digest Signature}

/-! ## Steps of `Core` -/

omit [Ed25519 PublicKey Digest Signature] in
/-- What was read from a channel stays what was read. -/
theorem take_sent {α : Type} {f : Output PublicKey Digest Signature → Option α}
    (h : Grows p.core s s') {k : ℕ} (hk : k ≤ (s.outputs.filterMap f).length) :
    k ≤ (s'.outputs.filterMap f).length ∧
      (s'.outputs.filterMap f).take k = (s.outputs.filterMap f).take k := by
  obtain ⟨added, hout, -⟩ := h.outputs
  rw [hout, List.filterMap_append, List.take_append_of_le_length hk, List.length_append]
  exact ⟨Nat.le_add_right_of_le hk, rfl⟩

omit [Ed25519 PublicKey Digest Signature] in
theorem Proposable.mono {ps : Proposer.State Digest} (hp : Proposable p s ps)
    (h : Grows p.core s s') : Proposable p s' ps where
  workers := hp.workers
  parents hne := by
    obtain ⟨added, hout, -⟩ := h.outputs
    refine (hp.parents hne).imp_right fun ⟨round, hround, hsent⟩ => ⟨round, hround, ?_⟩
    rw [hout]
    exact List.mem_append_left _ hsent

theorem Coupled.core (hc : Coupled p events n) (e : Core.Event PublicKey Digest Signature)
    {headers : List (Header PublicKey Digest Signature)}
    {certificates : List (Certificate PublicKey Digest Signature)}
    (hheaders : (currentAfter n.core.currentHeader e :: headers).Sublist
      (n.core.currentHeader :: n.rxProposer)) (hsub : headers ⊆ n.rxProposer)
    (hback : (certificates ++ returned [e]).Perm n.rxCertificateWaiter) :
    Coupled p (events ++ [e]) { n with
      core := Core.step p.core n.core e n.consensusRound
      rxProposer := headers
      rxCertificateWaiter := certificates } := by
  have hstep := step_advances p.core n.core e n.consensusRound
  generalize Core.step p.core n.core e n.consensusRound = s' at hstep ⊢
  have hgrows := hstep.toGrows
  obtain ⟨hproposing, hwaiting, hcommitting⟩ := hc
  refine ⟨⟨hproposing.waiting.mono hgrows, fun h hh => ?_, ?_, fun h hh => ?_⟩,
    ⟨(take_sent hgrows hwaiting.read_le).1, ?_, fun c hmem => ?_⟩,
    ⟨(take_sent hgrows hcommitting.read_le).1, ?_, hcommitting.output, ?_, hcommitting.shared,
      hcommitting.committed, ?_, ?_⟩⟩
  · obtain ⟨ps, now, rfl, hne, hps⟩ := hproposing.made h (hsub hh)
    exact ⟨ps, now, rfl, hne, hps.mono hgrows⟩
  · change (s'.currentHeader :: headers).Pairwise _
    rw [hstep.header]
    exact hproposing.increasing.sublist hheaders
  · change h ∈ s'.currentHeader :: headers at hh
    rw [hstep.header] at hh
    exact hproposing.lt_round h (hheaders.subset hh)
  · have key : returned (events ++ [e]) = returned events ++ returned [e] := List.filterMap_append
    change ((suspended s').take n.suspendedRead).Perm _
    rw [key, show (suspended s').take n.suspendedRead = (suspended n.core).take n.suspendedRead from
      (take_sent hgrows hwaiting.read_le).2]
    refine hwaiting.accounted.trans ?_
    rw [List.append_assoc, List.append_assoc]
    refine List.Perm.append_left _ ?_
    refine (hback.symm.append_right _).trans ?_
    rw [List.append_assoc]
    exact List.perm_append_comm.append_left _
  · exact (hwaiting.held c (hback.subset (List.mem_append_left _ hmem))).mono hgrows.store
  · exact hcommitting.log.trans
      (congrArg (Consensus.run p.consensus) (take_sent hgrows hcommitting.read_le).2.symm)
  · obtain ⟨k, hk, l, hl, hfeedback⟩ := hcommitting.feedback
    refine ⟨k, hk, l, Eq.trans (congrArg (Consensus.run p.consensus) ?_) hl, hfeedback⟩
    exact (take_sent hgrows (hk.trans hcommitting.read_le)).2
  · rcases hstep.consensusRound with hsame | hround
    · exact hsame.trans_le hcommitting.behind
    · exact hround.le
  · rcases hstep.gcRound with hsame | ⟨hlt, hround⟩
    · change s'.gcRound = 0 ∨ ∃ c ∈ n.feedback, s'.gcRound + p.gcDepth = c.round
      rw [hsame]
      exact hcommitting.gcRound
    · change p.gcDepth < n.consensusRound at hlt
      obtain ⟨c, hmem, hc⟩ := hcommitting.committed.resolve_left (by omega)
      refine Or.inr ⟨c, hmem, ?_⟩
      change s'.gcRound + p.gcDepth = c.round
      rw [hround, hc]
      exact Nat.sub_add_cancel hlt.le

/-- The next header that `Core` gets. -/
theorem Proposing.next (hp : Proposing p n) {h : Header PublicKey Digest Signature}
    {headers : List (Header PublicKey Digest Signature)} (hrx : n.rxProposer = h :: headers) :
    ProposedNext p.core n.core h := by
  have hmem : h ∈ n.rxProposer := hrx ▸ List.mem_cons_self
  obtain ⟨ps, now, rfl, hne, hps⟩ := hp.made h hmem
  exact ⟨p.proposer, ps, now, rfl, rfl, hps.workers, (List.pairwise_cons.mp hp.increasing).1 _ hmem,
    hps.parents hne⟩

/-! ## Steps of the other tasks -/

/-- The loop of the `Proposer`: whatever waits at the top, then what it receives. -/
theorem Proposing.receive (hp : Proposing p n) {e : Proposer.Event Digest} {k : ℕ}
    (hsent : ∀ parents round, e = .newParents parents round →
      .newParents parents round ∈ n.core.outputs)
    (hworker : ∀ digest worker counts delay, e = .ourBatch digest worker counts delay →
      p.committee.hasWorker p.name worker = true) :
    Proposing p { n with
      proposer := Proposer.receive n.proposer e
      parentsRead := k } := by
  obtain ⟨hwaiting, hmade, hincreasing, hlt⟩ := hp
  cases e with
  | newParents parents round =>
      refine ⟨?_, hmade, hincreasing, ?_⟩
      · change Proposable p n.core (Proposer.receive n.proposer (.newParents parents round))
        unfold Proposer.receive
        dsimp only
        split
        · exact hwaiting
        · exact ⟨hwaiting.workers, fun _ => Or.inr ⟨round, rfl, hsent parents round rfl⟩⟩
      · intro h hh
        have hbelow := hlt h hh
        change h.round < (Proposer.receive n.proposer (.newParents parents round)).round ∨
          h.round = (Proposer.receive n.proposer (.newParents parents round)).round ∧
            (Proposer.receive n.proposer (.newParents parents round)).lastParents = []
        unfold Proposer.receive
        dsimp only
        split
        · exact hbelow
        · dsimp only
          omega
  | ourBatch digest worker counts delay =>
      refine ⟨⟨fun x hx => ?_, hwaiting.parents⟩, hmade, hincreasing, hlt⟩
      rcases List.mem_append.mp hx with hx | hx
      · exact hwaiting.workers x hx
      · rw [List.mem_singleton.mp hx]
        exact hworker digest worker counts delay rfl
  | timer => exact ⟨hwaiting, hmade, hincreasing, hlt⟩

/-- A new header at the top of the loop. -/
theorem Proposing.propose (hp : Proposing p n) (hne : n.proposer.lastParents ≠ []) (now : ℕ) :
    Proposing p { n with
      rxProposer := n.rxProposer ++ [Proposer.newHeader Signature p.proposer now n.proposer]
      proposer := n.proposer.drained } := by
  obtain ⟨hwaiting, hmade, hincreasing, hlt⟩ := hp
  have hbelow : ∀ h ∈ n.core.currentHeader :: n.rxProposer, h.round < n.proposer.round :=
    fun h hh => (hlt h hh).resolve_right fun hnone => hne hnone.2
  refine ⟨⟨fun x hx => absurd hx List.not_mem_nil, fun h => absurd rfl h⟩, fun h hh => ?_, ?_,
    fun h hh => ?_⟩
  · rcases List.mem_append.mp hh with hh | hh
    · exact hmade h hh
    · exact ⟨n.proposer, now, List.mem_singleton.mp hh, hne, hwaiting⟩
  · change (n.core.currentHeader :: (n.rxProposer ++ [_])).Pairwise _
    rw [← List.cons_append, List.pairwise_append]
    refine ⟨hincreasing, List.pairwise_singleton _ _, fun h hh h' hh' => ?_⟩
    rw [List.mem_singleton.mp hh']
    exact hbelow h hh
  · change h ∈ n.core.currentHeader :: (n.rxProposer ++ [_]) at hh
    rw [← List.cons_append] at hh
    rcases List.mem_append.mp hh with hh | hh
    · exact Or.inl (hbelow h hh)
    · rw [List.mem_singleton.mp hh]
      exact Or.inr ⟨rfl, rfl⟩

theorem Coupled.proposerStep (hc : Coupled p events n) (now : ℕ) (timerExpired : Bool)
    {e : Proposer.Event Digest} {k : ℕ}
    (hsent : ∀ parents round, e = .newParents parents round →
      .newParents parents round ∈ n.core.outputs)
    (hworker : ∀ digest worker counts delay, e = .ourBatch digest worker counts delay →
      p.committee.hasWorker p.name worker = true) :
    Coupled p events { n.proposerStep p now timerExpired e with parentsRead := k } := by
  obtain ⟨hproposing, hwaiting, hcommitting⟩ := hc
  refine ⟨?_, ⟨hwaiting.read_le, hwaiting.accounted, hwaiting.held⟩,
    { hcommitting with read_le := hcommitting.read_le }⟩
  unfold Node.proposerStep Proposer.step
  cases hproposes : Proposer.proposes p.proposer timerExpired n.proposer with
  | true =>
      simp only [if_true]
      exact (hproposing.propose (Proposer.proposes_parents hproposes) now).receive hsent hworker
  | false =>
      simp only [Bool.false_eq_true, if_false, List.append_nil]
      exact hproposing.receive hsent hworker

theorem Coupled.wait (hc : Coupled p events n) {c : Certificate PublicKey Digest Signature}
    (hread : (suspended n.core)[n.suspendedRead]? = some c) :
    Coupled p events { n with
      suspendedRead := n.suspendedRead + 1
      waiting := n.waiting ++ [c] } := by
  obtain ⟨hproposing, hwaiting, hcommitting⟩ := hc
  refine ⟨{ hproposing with }, ⟨(List.getElem?_eq_some_iff.mp hread).1, ?_, hwaiting.held⟩,
    { hcommitting with }⟩
  change ((suspended n.core).take (n.suspendedRead + 1)).Perm
    (n.waiting ++ [c] ++ n.rxCertificateWaiter ++ returned events)
  rw [List.take_add_one, hread, Option.toList_some]
  refine (hwaiting.accounted.append_right [c]).trans ?_
  simp only [List.append_assoc]
  refine List.Perm.append_left _ ?_
  rw [← List.append_assoc]
  exact List.perm_append_comm

/-- `Consensus` commits more, or panics. -/
theorem Coupled.consensusStep (hc : Coupled p events n)
    {l : Consensus.Log PublicKey Digest Signature} {c : Certificate PublicKey Digest Signature}
    (hlog : n.log = some l) (hread : (delivered n.core)[n.certificatesRead]? = some c) :
    Coupled p events (n.consensusStep p l c) := by
  obtain ⟨hproposing, hwaiting, hcommitting⟩ := hc
  have hrun : Consensus.run p.consensus ((delivered n.core).take (n.certificatesRead + 1)) =
      Consensus.logStep p.consensus l c := by
    have hbefore := hcommitting.log
    rw [hlog] at hbefore
    unfold Consensus.run at hbefore ⊢
    rw [List.take_add_one, hread, Option.toList_some, List.foldlM_append, ← hbefore]
    simp
  have hle := (List.getElem?_eq_some_iff.mp hread).1
  have hkept : ∃ k ≤ n.certificatesRead + 1, ∃ l,
      Consensus.run p.consensus ((delivered n.core).take k) = some l ∧ n.feedback = l.output := by
    obtain ⟨k, hk, hl⟩ := hcommitting.feedback
    exact ⟨k, Nat.le_succ_of_le hk, hl⟩
  unfold Node.consensusStep
  cases hstep : Consensus.logStep p.consensus l c with
  | none =>
      refine ⟨{ hproposing with }, { hwaiting with }, { hcommitting with
        read_le := hle
        log := (hrun.trans hstep).symm
        output := fun l hl => by cases hl
        feedback := hkept }⟩
  | some l' =>
      obtain ⟨added, hadded⟩ : ∃ added, l'.output = n.feedback ++ added := by
        rw [hcommitting.output l hlog]
        unfold Consensus.logStep at hstep
        obtain ⟨⟨s, commit⟩, -, rfl⟩ := Option.map_eq_some_iff.mp hstep
        exact ⟨commit.sequence, rfl⟩
      have hkeep : ∀ c ∈ n.feedback, c ∈ l'.output := fun c hc => by
        rw [hadded]
        exact List.mem_append_left _ hc
      refine ⟨{ hproposing with }, { hwaiting with }, { hcommitting with
        read_le := hle
        log := (hrun.trans hstep).symm
        output := fun l hl => by rw [← Option.some.inj hl]
        feedback := ⟨_, le_rfl, l', hrun.trans hstep, rfl⟩
        committed := hcommitting.committed.imp_right fun ⟨c, hc, hround⟩ => ⟨c, hkeep c hc, hround⟩
        gcRound := hcommitting.gcRound.imp_right fun ⟨c, hc, hround⟩ => ⟨c, hkeep c hc, hround⟩ }⟩

theorem Coupled.collect (hc : Coupled p events n) {c : Certificate PublicKey Digest Signature}
    (hread : n.feedback[n.feedbackRead]? = some c) : Coupled p events (n.collect c) := by
  obtain ⟨hproposing, hwaiting, hcommitting⟩ := hc
  unfold Node.collect
  split
  · rename_i hlt
    refine ⟨{ hproposing with }, { hwaiting with }, { hcommitting with
      shared := rfl
      committed := Or.inr ⟨c, List.mem_of_getElem? hread, rfl⟩
      behind := ?_ }⟩
    have hbehind := hcommitting.behind
    rw [hcommitting.shared] at hbehind
    exact hbehind.trans hlt.le
  · exact ⟨{ hproposing with }, { hwaiting with }, { hcommitting with }⟩

variable [DecidableEq Signature]



theorem Coupled.done (hc : Coupled p events n) {c : Certificate PublicKey Digest Signature}
    (hmem : c ∈ n.waiting) (hstored : Node.Stored n.core.store c = true) :
    Coupled p events { n with
      waiting := n.waiting.erase c
      rxCertificateWaiter := n.rxCertificateWaiter ++ [c] } := by
  obtain ⟨hproposing, hwaiting, hcommitting⟩ := hc
  refine ⟨{ hproposing with }, ⟨hwaiting.read_le, hwaiting.accounted.trans ?_, fun x hx => ?_⟩,
    { hcommitting with }⟩
  · refine List.Perm.append_right _ ?_
    change (n.waiting ++ n.rxCertificateWaiter).Perm
      (n.waiting.erase c ++ (n.rxCertificateWaiter ++ [c]))
    refine ((List.perm_cons_erase hmem).append_right _).trans ?_
    rw [← List.append_assoc]
    exact (List.perm_append_singleton c _).symm
  · rcases List.mem_append.mp hx with hx | hx
    · exact hwaiting.held x hx
    · rw [List.mem_singleton.mp hx]
      exact fun d hd => Or.inr (List.all_eq_true.mp hstored d hd)

/-! ## Runs -/

/-- What the tasks around `Core` see to. -/
def Internal (p : Params PublicKey) (s : Core.State PublicKey Digest Signature) :
    Core.Event PublicKey Digest Signature → Prop
  | .ownHeader h => ProposedNext p.core s h
  | .loopbackCertificate c => ParentsHeld p.core s.store c
  | _ => True

variable {C : Core.State PublicKey Digest Signature →
  Core.Event PublicKey Digest Signature → Prop} {a : Action PublicKey Digest Signature}

/-- The steps of `Core`. -/
theorem Coupled.stepCore (hc : Coupled p events n) (hp : Permitted p C n a)
    {e : Core.Event PublicKey Digest Signature} (he : n.coreEvent a = some e)
    (hstep : n.step p a = some n') :
    Enabled n.core e n.consensusRound ∧ Internal p n.core e ∧
      n'.core = Core.step p.core n.core e n.consensusRound ∧ Coupled p (events ++ [e]) n' := by
  have hbehind := hc.committing.behind
  cases a with
  | message e' =>
      simp only [Node.coreEvent, Node.step] at he hstep
      split at he
      · rename_i hexternal
        obtain rfl := Option.some.inj he
        rw [if_pos hexternal] at hstep
        unfold Node.coreStep at hstep
        split at hstep
        · rename_i halive
          obtain rfl := Option.some.inj hstep
          have hcurrent : currentAfter n.core.currentHeader e' = n.core.currentHeader := by
            cases e' with
            | ownHeader h => cases hexternal
            | _ => rfl
          have hreturned : returned [e'] = [] := by
            cases e' with
            | loopbackCertificate c => cases hexternal
            | _ => rfl
          refine ⟨⟨halive, hbehind, ?_⟩, ?_, rfl, hc.core e' (by rw [hcurrent])
            (List.Subset.refl _) (by rw [hreturned, List.append_nil])⟩
          · cases e' with
            | loopbackHeader h => exact hp.2
            | loopbackCertificate c => cases hexternal
            | _ => trivial
          · cases e' with
            | ownHeader h => cases hexternal
            | loopbackCertificate c => cases hexternal
            | _ => trivial
        · cases hstep
      · cases he
  | ownHeader =>
      cases hrx : n.rxProposer with
      | nil => simp [Node.coreEvent, hrx] at he
      | cons h headers =>
          simp only [Node.coreEvent, Node.step, hrx, List.head?_cons, Option.map_some,
            Option.some.injEq, Node.coreStep] at he hstep
          subst he
          split at hstep
          · rename_i halive
            obtain rfl := Option.some.inj hstep
            have hnext := hc.proposing.next hrx
            exact ⟨⟨halive, hbehind, trivial⟩, hnext, rfl, hc.core (.ownHeader h)
              (by rw [hrx]; exact List.sublist_cons_self _ _)
              (by rw [hrx]; exact List.subset_cons_self _ _) (List.Perm.of_eq (List.append_nil _))⟩
          · cases hstep
  | loopbackCertificate =>
      cases hrx : n.rxCertificateWaiter with
      | nil => simp [Node.coreEvent, hrx] at he
      | cons c certificates =>
          simp only [Node.coreEvent, Node.step, hrx, List.head?_cons, Option.map_some,
            Option.some.injEq, Node.coreStep] at he hstep
          subst he
          split at hstep
          · rename_i halive
            obtain rfl := Option.some.inj hstep
            have hmem : c ∈ n.rxCertificateWaiter := hrx ▸ List.mem_cons_self
            have hsuspended : c ∈ (suspended n.core).take n.suspendedRead :=
              hc.waiting.accounted.symm.subset
                (List.mem_append_left _ (List.mem_append_right _ hmem))
            exact ⟨⟨halive, hbehind, mem_suspended.mp (List.mem_of_mem_take hsuspended)⟩,
              hc.waiting.held c hmem, rfl, hc.core (.loopbackCertificate c) (List.Sublist.refl _)
                (List.Subset.refl _) (by rw [hrx]; exact List.perm_append_singleton c _)⟩
          · cases hstep
  | _ => cases he

/-- The steps of the other tasks. -/
theorem Coupled.stepOther (hc : Coupled p events n) (hp : Permitted p C n a)
    (he : n.coreEvent a = none) (hstep : n.step p a = some n') :
    n'.core = n.core ∧ Coupled p events n' := by
  cases a with
  | message e =>
      simp only [Node.coreEvent, Node.step] at he hstep
      split at he
      · cases he
      · rename_i hexternal
        rw [if_neg hexternal] at hstep
        cases hstep
  | ownHeader =>
      cases hrx : n.rxProposer with
      | nil => simp [Node.step, hrx] at hstep
      | cons h headers => simp [Node.coreEvent, hrx] at he
  | loopbackCertificate =>
      cases hrx : n.rxCertificateWaiter with
      | nil => simp [Node.step, hrx] at hstep
      | cons c certificates => simp [Node.coreEvent, hrx] at he
  | propose now timerExpired e =>
      cases e with
      | newParents parents round =>
          simp only [Node.step] at hstep
          split at hstep
          · rename_i hread
            obtain rfl := Option.some.inj hstep
            refine ⟨rfl, hc.proposerStep now timerExpired (fun parents' round' heq => ?_)
              (fun _ _ _ _ heq => by cases heq)⟩
            obtain ⟨rfl, rfl⟩ := Proposer.Event.newParents.inj heq
            exact mem_parentsSent.mp (List.mem_of_getElem? hread)
          · cases hstep
      | ourBatch digest worker counts delay =>
          obtain rfl := Option.some.inj hstep
          refine ⟨rfl, hc.proposerStep now timerExpired (e := .ourBatch digest worker counts delay)
            (k := n.parentsRead) (fun _ _ heq => by cases heq)
            (fun digest' worker' counts' delay' heq => ?_)⟩
          obtain ⟨rfl, rfl, rfl, rfl⟩ := Proposer.Event.ourBatch.inj heq
          exact hp.2
      | timer =>
          obtain rfl := Option.some.inj hstep
          exact ⟨rfl, hc.proposerStep now timerExpired (e := .timer) (k := n.parentsRead)
            (fun _ _ heq => by cases heq) (fun _ _ _ _ heq => by cases heq)⟩
  | wait =>
      obtain ⟨c, hread, rfl⟩ := Option.map_eq_some_iff.mp hstep
      exact ⟨rfl, hc.wait hread⟩
  | done c =>
      simp only [Node.step] at hstep
      split at hstep
      · rename_i hdone
        obtain rfl := Option.some.inj hstep
        exact ⟨rfl, hc.done hdone.1 hdone.2⟩
      · cases hstep
  | consensus =>
      simp only [Node.step] at hstep
      split at hstep
      · rename_i l c hlog hread
        obtain rfl := Option.some.inj hstep
        refine ⟨?_, hc.consensusStep hlog hread⟩
        unfold Node.consensusStep
        split <;> rfl
      · cases hstep
  | collectGarbage =>
      obtain ⟨c, hread, rfl⟩ := Option.map_eq_some_iff.mp hstep
      refine ⟨?_, hc.collect hread⟩
      unfold Node.collect
      split <;> rfl

/-! ## Runs -/

theorem coupled_of_run (hrun : Reaches (Node.step p) (Permitted p C) (Node.initial p) n) :
    ∃ events, Core.Run p.core (fun s e => C s e ∧ Internal p s e) events n.core ∧
      Coupled p events n := by
  refine Reaches.invariant (I := fun n => ∃ events,
    Core.Run p.core (fun s e => C s e ∧ Internal p s e) events n.core ∧ Coupled p events n) ?_ hrun
    ⟨[], Core.Run.initial, coupled_initial p⟩
  rintro n a n' ⟨events, hcore, hc⟩ hp hstep
  cases he : n.coreEvent a with
  | none =>
      obtain ⟨hsame, hc'⟩ := hc.stepOther hp he hstep
      exact ⟨events, hsame ▸ hcore, hc'⟩
  | some e =>
      obtain ⟨henabled, hinternal, hnext, hc'⟩ := hc.stepCore hp he hstep
      refine ⟨events ++ [e], ?_, hc'⟩
      rw [hnext]
      exact hcore.step e n.consensusRound henabled ⟨hp.1 e he, hinternal⟩

theorem grows_of_run (hc : Coupled p events n) (hrun : Reaches (Node.step p) (Permitted p C) n n') :
    Grows p.core n.core n'.core := by
  have key : Grows p.core n.core n'.core ∧ ∃ events, Coupled p events n' := by
    refine Reaches.invariant (I := fun n' => Grows p.core n.core n'.core ∧
      ∃ events, Coupled p events n') ?_ hrun ⟨Grows.refl _, events, hc⟩
    rintro n₁ a n₂ ⟨hgrows, events, hc⟩ hp hstep
    cases he : n₁.coreEvent a with
    | none =>
        obtain ⟨hsame, hc'⟩ := hc.stepOther hp he hstep
        exact ⟨hsame ▸ hgrows, events, hc'⟩
    | some e =>
        obtain ⟨-, -, hnext, hc'⟩ := hc.stepCore hp he hstep
        refine ⟨hgrows.trans ?_, events ++ [e], hc'⟩
        rw [hnext]
        exact (step_advances p.core n₁.core e n₁.consensusRound).toGrows
  exact key.1

/-- A primary, whatever the order in which its tasks take steps, is a run of `Core` in which
    the headers of our own come with rounds that increase, on parents that `Core` has sent,
    and certificates come back from the waiter when all their parents are there, no more often
    than they were suspended. `Consensus` has committed what it commits of a prefix of what
    `Core` sends, and garbage is collected `gc_depth` below the round of a certificate that is
    committed. -/
theorem node_refines (p : Params PublicKey)
    (C : Core.State PublicKey Digest Signature → Core.Event PublicKey Digest Signature → Prop)
    (n : Node PublicKey Digest Signature)
    (hrun : Reaches (Node.step p) (Permitted p C) (Node.initial p) n) :
    (∃ events, Core.Run p.core (fun s e => C s e ∧ Internal p s e) events n.core ∧
      ((suspended n.core).take n.suspendedRead).Perm
        (n.waiting ++ n.rxCertificateWaiter ++ returned events)) ∧
      n.log = Consensus.run p.consensus ((delivered n.core).take n.certificatesRead) ∧
      (n.core.gcRound = 0 ∨ ∃ k ≤ n.certificatesRead, ∃ log,
        Consensus.run p.consensus ((delivered n.core).take k) = some log ∧
          ∃ c ∈ log.output, n.core.gcRound + p.gcDepth = c.round) := by
  obtain ⟨events, hcore, hc⟩ := coupled_of_run hrun
  refine ⟨⟨events, hcore, hc.waiting.accounted⟩, hc.committing.log, ?_⟩
  refine hc.committing.gcRound.imp_right fun ⟨c, hmem, hround⟩ => ?_
  obtain ⟨k, hk, log, hlog, hfeedback⟩ := hc.committing.feedback
  exact ⟨k, hk, log, hlog, c, hfeedback ▸ hmem, hround⟩

/-- A certificate that the `CertificateWaiter` loops back is not suspended again, and if `Core`
    processes it without errors it goes to consensus. -/
theorem looped_back_once (p : Params PublicKey)
    (C : Core.State PublicKey Digest Signature → Core.Event PublicKey Digest Signature → Prop)
    (n n' : Node PublicKey Digest Signature)
    (hrun : Reaches (Node.step p) (Permitted p C) (Node.initial p) n)
    (hrun' : Reaches (Node.step p) (Permitted p C) n n')
    (c : Certificate PublicKey Digest Signature) (hc : c ∈ n.rxCertificateWaiter) :
    (suspended n'.core).count c = (suspended n.core).count c ∧
      ∀ u s, (Core.handle p.core (.loopbackCertificate c)).run.run n'.core = (.ok u, s) →
        .newCertificate c ∈ s.outputs := by
  obtain ⟨events, -, hcoupled⟩ := coupled_of_run hrun
  have hheld := hcoupled.waiting.held c hc
  have hgrows := grows_of_run hcoupled hrun'
  refine ⟨?_, fun u s hok => newCertificate_of_parentsHeld p.core (hheld.mono hgrows.store) hok⟩
  obtain ⟨added, hout, hnot⟩ := hgrows.outputs
  have hsplit : suspended n'.core =
      suspended n.core ++ suspended { n'.core with outputs := added } := by
    unfold suspended
    rw [hout, List.filterMap_append]
  have hnone : (suspended { n'.core with outputs := added }).count c = 0 :=
    List.count_eq_zero.mpr fun hmem => hnot c (mem_suspended.mp hmem) hheld
  rw [hsplit, List.count_append, hnone, Nat.add_zero]

/-! ## A certificate that waits

Primary 0 of four authorities gets the certificate of authority 1 for round 2 before the one
for round 1. -/

section Sample

open Toy

namespace NodeSample

def committee : Committee ℕ :=
  ⟨⟨[(0, ⟨1, []⟩), (1, ⟨1, []⟩), (2, ⟨1, []⟩), (3, ⟨1, []⟩)], Committee.sorted_four⟩⟩

def params : Params ℕ := ⟨0, committee, 50, false, 1000⟩

/-- The certificate of authority 1 in a state of its proposer. -/
def certificate (s : Proposer.State ℕ) : Certificate ℕ ℕ Unit :=
  ⟨Proposer.newHeader Unit ⟨1, committee, 1000⟩ 0 s, [(1, ()), (2, ()), (3, ())]⟩

def first : Certificate ℕ ℕ Unit :=
  certificate (Proposer.State.initial Unit ⟨1, committee, 1000⟩)

def second : Certificate ℕ ℕ Unit :=
  certificate
    { Proposer.State.initial Unit ⟨1, committee, 1000⟩ with
      round := 2
      lastParents := [first.digest] }

def actions : List (Action ℕ ℕ Unit) :=
  [.propose 0 true .timer, .ownHeader, .message (.primaryCertificate second), .wait,
    .message (.primaryCertificate first), .done second, .loopbackCertificate, .consensus,
    .consensus]

/-- The primary after the first `k` actions. -/
def node (k : ℕ) : Node ℕ ℕ Unit :=
  (actions.take k).foldl (fun n a => (n.step params a).getD n) (Node.initial params)

theorem runs {k k' : ℕ} (hle : k ≤ k')
    (hsome : ∀ i, k ≤ i → i < k' → ∃ a ∈ actions[i]?, ((node i).step params a).isSome = true) :
    Reaches (Node.step params) (Permitted params fun _ _ => True) (node k) (node k') := by
  induction k', hle using Nat.le_induction with
  | base => exact Relation.ReflTransGen.refl
  | succ j hj ih =>
      refine (ih fun i hi hlt => hsome i hi (by omega)).tail ?_
      obtain ⟨a, ha, hstep⟩ := hsome j hj (by omega)
      obtain ⟨n, hn⟩ := Option.isSome_iff_exists.mp hstep
      refine ⟨a, ⟨fun _ _ => trivial, ?_⟩, ?_⟩
      · have hmem := List.mem_of_getElem? ha
        simp only [actions, List.mem_cons, List.not_mem_nil, or_false] at hmem
        rcases hmem with rfl | rfl | rfl | rfl | rfl | rfl | rfl | rfl | rfl <;> trivial
      · have hnext : node (j + 1) = ((node j).step params a).getD (node j) := by
          unfold node
          rw [List.take_add_one, ha, Option.toList_some, List.foldl_append]
          rfl
        rw [hnext, hn]
        rfl

theorem runs_all {k k' : ℕ} (hle : k ≤ k') (hk : k' ≤ 9) :
    Reaches (Node.step params) (Permitted params fun _ _ => True) (node k) (node k') := by
  have key : ∀ i < 9, ∃ a ∈ actions[i]?, ((node i).step params a).isSome = true := by
    decide +kernel
  exact runs hle fun i _ hi => key i (by omega)

end NodeSample

open NodeSample

theorem node_refines_sample :
    (∃ events, Core.Run params.core (fun s e => True ∧ Internal params s e) events (node 9).core ∧
      ((suspended (node 9).core).take (node 9).suspendedRead).Perm
        ((node 9).waiting ++ (node 9).rxCertificateWaiter ++ returned events)) ∧
      (node 9).log = Consensus.run params.consensus
        ((delivered (node 9).core).take (node 9).certificatesRead) ∧
      ((node 9).core.gcRound = 0 ∨ ∃ k ≤ (node 9).certificatesRead, ∃ log,
        Consensus.run params.consensus ((delivered (node 9).core).take k) = some log ∧
          ∃ c ∈ log.output, (node 9).core.gcRound + params.gcDepth = c.round) :=
  node_refines params (fun _ _ => True) (node 9) (runs_all (k := 0) (by decide) (by decide))

theorem looped_back_once_sample :
    (suspended (node 9).core).count second = (suspended (node 6).core).count second ∧
      ∀ u s, (Core.handle params.core (.loopbackCertificate second)).run.run (node 9).core =
        (.ok u, s) → .newCertificate second ∈ s.outputs :=
  looped_back_once params (fun _ _ => True) (node 6) (node 9)
    (runs_all (k := 0) (by decide) (by decide)) (runs_all (by decide) (by decide)) second
    (by decide +kernel)

end Sample

end DagBft.Primaries
