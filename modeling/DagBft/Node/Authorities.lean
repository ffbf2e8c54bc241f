/-
  All authorities together: their primaries, with the consensus tasks (`Consensus/Network`), and
  their workers (`Worker/Network`), in any order of steps.

  A primary believes its own workers: what `WorkerReceiverHandler` (`primary/src/primary.rs`)
  passes on has been sent by the `PrimaryConnector` of a worker of the same authority, which
  sends what the `Processor`s report. Such messages may be lost, repeated and delayed.

  Headers carry digests only. `committed_available`: of every certificate that an honest
  primary commits, honest authorities with f+1 stake have stored the batches, and those of an
  honest author have been sealed by its workers. The runs are those of `Consensus/Network`, in
  which no primary returns to a round that it has garbage collected.
-/
import DagBft.Consensus.Network
import DagBft.Primary.Authorship
import DagBft.Worker.Network

namespace DagBft.Authorities

open DagBft.Core DagBft.Consensus DagBft.Primaries DagBft.Worker Toy

/-! ## Where the digests of one primary come from -/

section Node

variable {PublicKey Digest Signature : Type} [LinearOrder PublicKey] [LinearOrder Digest]
  [AsBytes PublicKey] [AsBytes Digest] [Sha512 Digest]
  [Inhabited PublicKey] [Inhabited Digest] [Inhabited Signature]
  [Ed25519 PublicKey Digest Signature] [DecidableEq Signature]

variable {p : Primaries.Params PublicKey} {n n' : Node PublicKey Digest Signature}
  {a : Action PublicKey Digest Signature}

/-- The digests that a step of a primary may add to its storage and to its headers. -/
structure Flows (n : Node PublicKey Digest Signature) (a : Action PublicKey Digest Signature)
    (n' : Node PublicKey Digest Signature) : Prop where
  payload : ∀ d worker, (n'.core.store (.payload d worker)).isSome = true →
    (n.core.store (.payload d worker)).isSome = true ∨
      ∃ counts, a = .message (.othersBatch d worker counts)
  broadcast : ∀ h, .broadcastHeader h ∈ n'.core.outputs →
    .broadcastHeader h ∈ n.core.outputs ∨ h ∈ n.rxProposer
  made : ∀ h ∈ n'.rxProposer, h ∈ n.rxProposer ∨ ∀ x ∈ h.payload.entries, x ∈ n.proposer.digests
  digests : ∀ x ∈ n'.proposer.digests, x ∈ n.proposer.digests ∨
    ∃ now timerExpired counts delay, a = .propose now timerExpired (.ourBatch x.1 x.2 counts delay)

omit [AsBytes PublicKey] [AsBytes Digest] [Sha512 Digest] [Inhabited PublicKey] [Inhabited Digest]
  [Inhabited Signature] [Ed25519 PublicKey Digest Signature] [DecidableEq Signature] in
/-- Neither `Core` nor the `Proposer` takes a step. -/
theorem Flows.same (hcore : n'.core = n.core) (hrx : n'.rxProposer = n.rxProposer)
    (hproposer : n'.proposer = n.proposer) : Flows n a n' :=
  ⟨fun _ _ hd => Or.inl (hcore ▸ hd), fun _ hh => Or.inl (hcore ▸ hh),
    fun _ hh => Or.inl (hrx ▸ hh), fun _ hx => Or.inl (hproposer ▸ hx)⟩

omit [DecidableEq Signature] in
/-- `Core` takes a step. -/
theorem Flows.core {e : Core.Event PublicKey Digest Signature} {round : ℕ}
    (hcore : n'.core = Core.step p.core n.core e round) (hrx : n'.rxProposer ⊆ n.rxProposer)
    (hproposer : n'.proposer = n.proposer)
    (hother : ∀ d worker counts, e = .othersBatch d worker counts → a = .message e)
    (hown : ∀ h, e = .ownHeader h → h ∈ n.rxProposer) : Flows n a n' := by
  have hstep := step_advances p.core n.core e round
  refine ⟨fun d worker hd => ?_, fun h hh => ?_, fun h hh => Or.inl (hrx hh),
    fun x hx => Or.inl (hproposer ▸ hx)⟩
  · rw [hcore] at hd
    refine (hstep.payload d worker hd).imp_right fun ⟨counts, he⟩ => ⟨counts, ?_⟩
    rw [hother d worker counts he, he]
  · rw [hcore] at hh
    exact (hstep.broadcast h hh).imp_right (hown h)

omit [Inhabited PublicKey] [DecidableEq Signature] in
/-- The `Proposer` takes a step. -/
theorem flows_proposerStep (now : ℕ) (timerExpired : Bool) (e : Proposer.Event Digest) (k : ℕ)
    (hbatch : ∀ digest worker counts delay, e = .ourBatch digest worker counts delay →
      a = .propose now timerExpired e) :
    Flows n a { n.proposerStep p now timerExpired e with parentsRead := k } := by
  refine ⟨fun _ _ => Or.inl, fun _ => Or.inl, fun h hh => ?_, fun x hx => ?_⟩
  · rcases List.mem_append.mp hh with hh | hh
    · exact Or.inl hh
    · split at hh
      · rw [List.mem_singleton.mp hh]
        exact Or.inr fun x hx => Proposer.mem_of_mem_collectPayload hx
      · exact absurd hh List.not_mem_nil
  · have hkept : ∀ ps : Proposer.State Digest, ps.digests ⊆ n.proposer.digests →
        x ∈ (Proposer.receive ps e).digests → x ∈ n.proposer.digests ∨
          ∃ counts delay, e = .ourBatch x.1 x.2 counts delay := by
      intro ps hsub hx
      cases e with
      | newParents parents round =>
          unfold Proposer.receive at hx
          dsimp only at hx
          split at hx <;> exact Or.inl (hsub hx)
      | ourBatch digest worker counts delay =>
          rcases List.mem_append.mp hx with hx | hx
          · exact Or.inl (hsub hx)
          · rw [List.mem_singleton.mp hx]
            exact Or.inr ⟨counts, delay, rfl⟩
      | timer => exact Or.inl (hsub hx)
    have hcases : x ∈ n.proposer.digests ∨ ∃ counts delay, e = .ourBatch x.1 x.2 counts delay := by
      change x ∈ (Proposer.step p.proposer n.proposer timerExpired e).digests at hx
      unfold Proposer.step at hx
      split at hx
      · exact hkept _ (List.nil_subset _) hx
      · exact hkept _ (List.Subset.refl _) hx
    refine hcases.imp_right fun ⟨counts, delay, he⟩ => ⟨now, timerExpired, counts, delay, ?_⟩
    rw [hbatch _ _ _ _ he, he]

theorem flows_step (hstep : n.step p a = some n') : Flows n a n' := by
  cases a with
  | message e =>
      simp only [Node.step, Node.coreStep] at hstep
      split at hstep
      · rename_i hexternal
        split at hstep
        · obtain rfl := Option.some.inj hstep
          refine Flows.core (p := p) rfl (List.Subset.refl _) rfl (fun _ _ _ _ => rfl)
            fun h he => ?_
          rw [he] at hexternal
          cases hexternal
        · cases hstep
      · cases hstep
  | ownHeader =>
      cases hrx : n.rxProposer with
      | nil => simp [Node.step, hrx] at hstep
      | cons h headers =>
          simp only [Node.step, hrx, Node.coreStep] at hstep
          split at hstep
          · obtain rfl := Option.some.inj hstep
            refine Flows.core (p := p) rfl (hrx ▸ List.subset_cons_self _ _) rfl
              (fun _ _ _ he => by cases he) fun h' he => ?_
            rw [hrx, Event.ownHeader.inj he]
            exact List.mem_cons_self
          · cases hstep
  | loopbackCertificate =>
      cases hrx : n.rxCertificateWaiter with
      | nil => simp [Node.step, hrx] at hstep
      | cons c certificates =>
          simp only [Node.step, hrx, Node.coreStep] at hstep
          split at hstep
          · obtain rfl := Option.some.inj hstep
            exact Flows.core (p := p) rfl (List.Subset.refl _) rfl (fun _ _ _ he => by cases he)
              fun _ he => by cases he
          · cases hstep
  | propose now timerExpired e =>
      cases e with
      | newParents parents round =>
          simp only [Node.step] at hstep
          split at hstep
          · obtain rfl := Option.some.inj hstep
            exact flows_proposerStep now timerExpired _ _ fun _ _ _ _ he => by cases he
          · cases hstep
      | ourBatch digest worker counts delay =>
          obtain rfl := Option.some.inj hstep
          exact flows_proposerStep now timerExpired _ n.parentsRead fun _ _ _ _ _ => rfl
      | timer =>
          obtain rfl := Option.some.inj hstep
          exact flows_proposerStep now timerExpired .timer n.parentsRead
            fun _ _ _ _ he => by cases he
  | wait =>
      obtain ⟨c, -, rfl⟩ := Option.map_eq_some_iff.mp hstep
      exact Flows.same rfl rfl rfl
  | done c =>
      simp only [Node.step] at hstep
      split at hstep
      · exact Option.some.inj hstep ▸ Flows.same rfl rfl rfl
      · cases hstep
  | consensus =>
      simp only [Node.step] at hstep
      split at hstep
      · obtain rfl := Option.some.inj hstep
        unfold Node.consensusStep
        split <;> exact Flows.same rfl rfl rfl
      · cases hstep
  | collectGarbage =>
      obtain ⟨c, -, rfl⟩ := Option.map_eq_some_iff.mp hstep
      unfold Node.collect
      split <;> exact Flows.same rfl rfl rfl

/-- Batches of others have been reported by our workers, and so have been those that our headers
    carry. -/
structure Sourced (ours others : Digest × ℕ → Prop) (n : Node PublicKey Digest Signature) :
    Prop where
  payload : ∀ d worker, (n.core.store (.payload d worker)).isSome = true → others (d, worker)
  digests : ∀ x ∈ n.proposer.digests, ours x
  made : ∀ h ∈ n.rxProposer, ∀ x ∈ h.payload.entries, ours x
  broadcast : ∀ h, .broadcastHeader h ∈ n.core.outputs → ∀ x ∈ h.payload.entries, ours x

variable {ours others ours' others' : Digest × ℕ → Prop}

omit [Ed25519 PublicKey Digest Signature] [DecidableEq Signature] in
theorem sourced_initial :
    Sourced ours others (Node.initial p : Node PublicKey Digest Signature) where
  payload _ _ hd := by cases hd
  digests _ hx := absurd hx List.not_mem_nil
  made _ hh := absurd hh List.not_mem_nil
  broadcast _ hh := absurd hh List.not_mem_nil

omit [AsBytes PublicKey] [AsBytes Digest] [Sha512 Digest] [Inhabited PublicKey] [Inhabited Digest]
  [Inhabited Signature] [Ed25519 PublicKey Digest Signature] [DecidableEq Signature] in
theorem Sourced.mono (h : Sourced ours others n) (hours : ∀ x, ours x → ours' x)
    (hothers : ∀ x, others x → others' x) : Sourced ours' others' n where
  payload d worker hd := hothers _ (h.payload d worker hd)
  digests x hx := hours x (h.digests x hx)
  made h' hh x hx := hours x (h.made h' hh x hx)
  broadcast h' hh x hx := hours x (h.broadcast h' hh x hx)

omit [AsBytes PublicKey] [AsBytes Digest] [Sha512 Digest] [Inhabited PublicKey] [Inhabited Digest]
  [Inhabited Signature] [Ed25519 PublicKey Digest Signature] [DecidableEq Signature] in
theorem Sourced.step (h : Sourced ours others n) (hf : Flows n a n')
    (hours : ∀ x now timerExpired counts delay,
      a = .propose now timerExpired (.ourBatch x.1 x.2 counts delay) → ours x)
    (hothers : ∀ d worker counts, a = .message (.othersBatch d worker counts) →
      others (d, worker)) : Sourced ours others n' where
  payload d worker hd := by
    rcases hf.payload d worker hd with hd | ⟨counts, he⟩
    · exact h.payload d worker hd
    · exact hothers d worker counts he
  digests x hx := by
    rcases hf.digests x hx with hx | ⟨now, timerExpired, counts, delay, he⟩
    · exact h.digests x hx
    · exact hours x now timerExpired counts delay he
  made h' hh x hx := by
    rcases hf.made h' hh with hh | hall
    · exact h.made h' hh x hx
    · exact h.digests x (hall x hx)
  broadcast h' hh x hx := by
    rcases hf.broadcast h' hh with hh | hh
    · exact h.broadcast h' hh x hx
    · exact h.made h' hh x hx

end Node

/-! ## All authorities -/

/-- The options of the authorities, and who is honest. -/
structure Setup (PublicKey : Type) [LinearOrder PublicKey] where
  primaries : Setting PublicKey
  headerSize : ℕ
  batchSize : ℕ
  bincode : Bincode
  usize : batchSize < 2 ^ 64

/-- The workers of an id. -/
def Setup.workers {PublicKey : Type} [LinearOrder PublicKey] (w : Setup PublicKey) (id : ℕ) :
    Deployment PublicKey where
  committee := w.primaries.committee
  id := id
  batchSize := w.batchSize
  baselineMode := w.primaries.baselineMode
  bincode := w.bincode
  usize := w.usize
  honest := w.primaries.honest

variable {PublicKey Digest Signature : Type} [LinearOrder PublicKey] [LinearOrder Digest]

/-- The workers of all authorities, by their ids. -/
abbrev Workers (PublicKey Digest : Type) [LinearOrder PublicKey] [LinearOrder Digest] :=
  ℕ → PublicKey → Pipeline PublicKey Digest

/-- The digest of an own batch that a worker of the authority has reported. -/
def Ours (workers : Workers PublicKey Digest) (name : PublicKey) (x : Digest × ℕ) : Prop :=
  ∃ counts delay, .ourBatch x.1 x.2 counts delay ∈ (workers x.2 name).reports

/-- The digest of a batch of another authority that it has reported. -/
def Others (workers : Workers PublicKey Digest) (name : PublicKey) (x : Digest × ℕ) : Prop :=
  ∃ counts, .othersBatch x.1 x.2 counts ∈ (workers x.2 name).reports

/-- A primary takes from its workers what they have reported. -/
def Reported (workers : Workers PublicKey Digest) (name : PublicKey) :
    Action PublicKey Digest Signature → Prop
  | .message (.othersBatch d worker counts) =>
      .othersBatch d worker counts ∈ (workers worker name).reports
  | .propose _ _ (.ourBatch d worker counts delay) =>
      .ourBatch d worker counts delay ∈ (workers worker name).reports
  | _ => True

/-- What has been reported stays so. -/
theorem reports_update {workers : Workers PublicKey Digest} {name : PublicKey} {id : ℕ}
    {s : Pipeline PublicKey Digest}
    (hreports : (workers id name).reports <+: s.reports) (id' : ℕ) (other : PublicKey) :
    (workers id' other).reports ⊆
      (Function.update workers id (Function.update (workers id) name s) id' other).reports := by
  by_cases hid : id' = id
  · subst hid
    rw [Function.update_self]
    by_cases hname : other = name
    · subst hname
      rw [Function.update_self]
      exact hreports.subset
    · rw [Function.update_of_ne hname]
      exact List.Subset.refl _
  · rw [Function.update_of_ne hid]
    exact List.Subset.refl _

variable [AsBytes PublicKey] [AsBytes Digest] [Sha512 Digest]
  [Inhabited PublicKey] [Inhabited Digest] [Inhabited Signature]
  [Ed25519 PublicKey Digest Signature] [DecidableEq Signature]

/-- The states that the authorities go through: one task of an honest primary or of an honest
    worker takes the next step. -/
inductive Setup.Operates (w : Setup PublicKey)
    (known : Header PublicKey Digest Signature → Prop)
    (C : PublicKey → Core.State PublicKey Digest Signature →
      Event PublicKey Digest Signature → Prop) :
    (PublicKey → Node PublicKey Digest Signature) → Workers PublicKey Digest → Prop
  | initial : Operates w known C (fun name => Node.initial (w.primaries.node w.headerSize name))
      fun _ _ => Pipeline.initial
  | primary {nodes : PublicKey → Node PublicKey Digest Signature}
      {workers : Workers PublicKey Digest} (run : Operates w known C nodes workers)
      (name : PublicKey) (honest : name ∈ w.primaries.honest)
      (a : Action PublicKey Digest Signature) (n : Node PublicKey Digest Signature)
      (permitted : Permitted (w.primaries.node w.headerSize name)
        (fun _ => w.primaries.Admits known C (coresOf nodes) name) (nodes name) a)
      (reported : Reported workers name a)
      (next : (nodes name).step (w.primaries.node w.headerSize name) a = some n) :
      Operates w known C (Function.update nodes name n) workers
  | worker {nodes : PublicKey → Node PublicKey Digest Signature}
      {workers : Workers PublicKey Digest} (run : Operates w known C nodes workers) (id : ℕ)
      (name : PublicKey) (honest : name ∈ w.primaries.honest) (e : PipelineEvent PublicKey Digest)
      (s : Pipeline PublicKey Digest) (genuine : (w.workers id).Genuine (workers id) name e)
      (next : (workers id name).step ((w.workers id).worker name) e = some s) :
      Operates w known C nodes (Function.update workers id (Function.update (workers id) name s))

variable {w : Setup PublicKey} {known : Header PublicKey Digest Signature → Prop}
  {C : PublicKey → Core.State PublicKey Digest Signature →
    Event PublicKey Digest Signature → Prop}
  {nodes : PublicKey → Node PublicKey Digest Signature} {workers : Workers PublicKey Digest}
  {name : PublicKey} {c : Certificate PublicKey Digest Signature}

/-- The primaries alone. -/
theorem primaries_of_operates (hrun : w.Operates known C nodes workers) :
    w.primaries.Operates known C w.headerSize nodes := by
  induction hrun with
  | initial => exact .initial
  | primary run name honest a n permitted reported next ih =>
      exact ih.step name honest a n permitted next
  | worker run id name honest e s genuine next ih => exact ih

/-- The workers of an id alone. -/
theorem workers_of_operates (hrun : w.Operates known C nodes workers) (id : ℕ) :
    (w.workers id).Operates (workers id) := by
  induction hrun with
  | initial => exact .initial
  | primary run name honest a n permitted reported next ih => exact ih
  | @worker nodes workers run id' name honest e s genuine next ih =>
      by_cases hid : id = id'
      · subst hid
        rw [Function.update_self]
        exact ih.step name honest e s genuine next
      · rw [Function.update_of_ne hid]
        exact ih

theorem sourced_of_operates (hrun : w.Operates known C nodes workers) (name : PublicKey) :
    Sourced (Ours workers name) (Others workers name) (nodes name) := by
  induction hrun with
  | initial => exact sourced_initial
  | @primary nodes workers run stepped honest a n permitted reported next ih =>
      by_cases hname : name = stepped
      · subst hname
        rw [Function.update_self]
        refine ih.step (flows_step next) (fun x now timerExpired counts delay he => ?_)
          fun d worker counts he => ?_
        · rw [he] at reported
          exact ⟨counts, delay, reported⟩
        · rw [he] at reported
          exact ⟨counts, reported⟩
      · rw [Function.update_of_ne hname]
        exact ih
  | @worker nodes workers run id stepped honest e s genuine next ih =>
      have hsub := fun id' => reports_update (adds_step next).reports id' name
      exact ih.mono (fun x ⟨counts, delay, hx⟩ => ⟨counts, delay, hsub x.2 hx⟩)
        fun x ⟨counts, hx⟩ => ⟨counts, hsub x.2 hx⟩

/-! ## Batches -/

/-- A worker has stored the batch, under its digest, unless its `Synchronizer` has deleted it. -/
def Kept (s : Pipeline PublicKey Digest) (digest : Digest) : Prop :=
  digest ∈ s.deleted ∨ ∃ data, s.store digest = some data ∧ Sha512.sha512 data = digest

section Batches

variable (hw : w.primaries.Sound known) (hrun : w.Operates known C nodes workers)

include hw hrun

theorem workerInv (id : ℕ) (name : PublicKey) :
    ∃ txs, PipelineInv ((w.workers id).worker name) txs (workers id name) :=
  (workerInv_of_operates (w := w.workers id) (hw.total.trans (by norm_num))
    (workers_of_operates hrun id) name).1

/-- What a worker has reported it has stored. -/
theorem kept_of_reported {x : Digest × ℕ} (hx : Ours workers name x ∨ Others workers name x) :
    Kept (workers x.2 name) x.1 := by
  obtain ⟨txs, -, -, hp⟩ := workerInv hw hrun x.2 name
  have hreported : ∃ report ∈ (workers x.2 name).reports.filterMap WorkerPrimaryMessage.ours ++
      (workers x.2 name).reports.filterMap WorkerPrimaryMessage.others, report.1 = x.1 := by
    rcases hx with ⟨counts, delay, hx⟩ | ⟨counts, hx⟩
    · exact ⟨_, List.mem_append_left _ (List.mem_filterMap.mpr ⟨_, hx, rfl⟩), rfl⟩
    · exact ⟨_, List.mem_append_right _ (List.mem_filterMap.mpr ⟨_, hx, rfl⟩), rfl⟩
  obtain ⟨report, hmem, hdigest⟩ := hreported
  rcases hp.kept report hmem with hsome | hdeleted
  · obtain ⟨data, hdata⟩ := Option.isSome_iff_exists.mp hsome
    rw [hdigest] at hdata
    exact Or.inr ⟨data, hdata, hp.integrity _ _ hdata⟩
  · exact Or.inl (hdigest ▸ hdeleted)

/-- What a worker has reported as an own batch it has sealed. -/
theorem sealed_of_ours {x : Digest × ℕ} (hx : Ours workers name x) :
    ∃ batch ∈ (workers x.2 name).sealed, Sha512.sha512 batch = x.1 := by
  obtain ⟨txs, -, ho, hp⟩ := workerInv hw hrun x.2 name
  obtain ⟨counts, delay, hx⟩ := hx
  have hmem : (x.1, x.2, counts) ∈
      (workers x.2 name).reports.filterMap WorkerPrimaryMessage.ours :=
    List.mem_filterMap.mpr ⟨_, hx, rfl⟩
  rw [hp.own] at hmem
  obtain ⟨y, hy, hreport⟩ := List.mem_map.mp hmem
  exact ⟨y.2, List.mem_of_getElem? (ho.forwarded y (List.mem_of_mem_take hy)).1,
    congrArg Prod.fst hreport⟩

/-- The batches of a header that an honest authority has proposed. -/
theorem ours_of_valid (hc : w.primaries.Valid known (coresOf nodes) c)
    (hgen : ¬ w.primaries.PassesForGenesis c) (horigin : c.origin ∈ w.primaries.honest)
    {x : Digest × ℕ} (hx : x ∈ c.header.payload.entries) : Ours workers c.origin x := by
  have hcores := (run_of_operates (primaries_of_operates hrun)).1
  obtain ⟨events, current, h, hn, hown, hsame⟩ := proposed_of_valid hw hcores hc hgen horigin
  have hsourced := sourced_of_operates hrun c.origin
  exact hsourced.broadcast h (hn.sent h hown) x (hsame.payload ▸ hx)

/-- The voters of a header have reports of its batches. -/
theorem reported_of_valid (hc : w.primaries.Valid known (coresOf nodes) c)
    (hgen : ¬ w.primaries.PassesForGenesis c) :
    ∃ s ⊆ w.primaries.honest,
      w.primaries.committee.validityThreshold ≤ w.primaries.committee.stakeOf s ∧
      ∀ other ∈ s, ∀ x ∈ c.header.payload.entries,
        Ours workers other x ∨ Others workers other x := by
  have hcores := (run_of_operates (primaries_of_operates hrun)).1
  obtain ⟨-, s, hquorum, hmem, hvoted⟩ := voters hw hcores hc hgen
  refine ⟨s ∩ w.primaries.honest, Finset.inter_subset_right,
    hw.validity_le_honest s hquorum hmem, fun other hother x hx => ?_⟩
  obtain ⟨hin, hhonest⟩ := Finset.mem_inter.mp hother
  obtain ⟨h, -, hexamined, hsame⟩ := hvoted other hin hhonest
  rcases hexamined.payload with hauthor | hall
  · -- a primary does not look for the batches of its own headers
    have horigin : c.origin = other := hsame.author.symm.trans hauthor
    exact Or.inl (horigin ▸ ours_of_valid hw hrun hc hgen (horigin ▸ hhonest) hx)
  · exact Or.inr ((sourced_of_operates hrun other).payload _ _ (hall x (hsame.payload ▸ hx)))

end Batches

/-- What is committed can be read, as long as nothing old comes back from a waiter of an honest
    primary: of each certificate that the consensus task of an honest primary outputs, honest
    authorities with f+1 stake have stored the batches under their digests, unless they were
    deleted since. The batches of an honest author were sealed by its workers. -/
theorem committed_available (w : Setup PublicKey)
    (known : Header PublicKey Digest Signature → Prop) (hw : w.primaries.Sound known)
    (nodes : PublicKey → Node PublicKey Digest Signature) (workers : Workers PublicKey Digest)
    (hrun : w.Operates known w.primaries.Fresh nodes workers) (name : PublicKey)
    (hname : name ∈ w.primaries.honest)
    (hgenesis : ∀ c ∈ delivered (nodes name).core, ¬ w.primaries.PassesForGenesis c) :
    ∃ log, (nodes name).log = some log ∧ ∀ c ∈ log.output, c.round ≠ 0 →
      (∃ s ⊆ w.primaries.honest,
        w.primaries.committee.validityThreshold ≤ w.primaries.committee.stakeOf s ∧
        ∀ other ∈ s, ∀ x ∈ c.header.payload.entries, Kept (workers x.2 other) x.1) ∧
      (c.origin ∈ w.primaries.honest → ∀ x ∈ c.header.payload.entries,
        ∃ batch ∈ (workers x.2 c.origin).sealed, Sha512.sha512 batch = x.1) := by
  obtain ⟨hcores, hcoupled⟩ := run_of_operates (primaries_of_operates hrun)
  obtain ⟨events, hcoupled⟩ := hcoupled name
  have hgenesis : ∀ c ∈ (delivered (coresOf nodes name)).take (nodes name).certificatesRead,
      ¬ w.primaries.PassesForGenesis c := fun c hc => hgenesis c (List.mem_of_mem_take hc)
  obtain ⟨log, hlog, -⟩ := committed_of_run hw hcores hname _ hgenesis
  refine ⟨log, hcoupled.committing.log.trans hlog, fun c hc hround => ?_⟩
  obtain ⟨c', hvalid, hgen, hunsigned⟩ :=
    certified_of_mem_output hw hcores hname _ hgenesis hlog hc hround
  have hpayload : c'.header.payload = c.header.payload :=
    congrArg (fun c => c.header.payload) hunsigned
  have horigin : c'.origin = c.origin := congrArg (fun c => c.origin) hunsigned
  rw [← hpayload, ← horigin]
  obtain ⟨s, hsub, hstake, hall⟩ := reported_of_valid hw hrun hvalid hgen
  exact ⟨⟨s, hsub, hstake, fun other hother x hx =>
      kept_of_reported hw hrun (hall other hother x hx)⟩,
    fun hhonest x hx => sealed_of_ours hw hrun (ours_of_valid hw hrun hvalid hgen hhonest hx)⟩

/-! ## A batch that is committed

Authority 0 has a quorum of its own, with stake 5; its worker still waits for a reply of that of
authority 1. The header of round 1 carries the batch, and the leader of round 2 commits it. -/

section Sample

open NetworkSample PipelineSample

namespace BatchSample

theorem names_sorted : [0, 1].Pairwise (· < ·) := by decide

def members : Committee ℕ := ⟨⟨[(0, ⟨5, [0]⟩), (1, ⟨1, [0]⟩)], names_sorted⟩⟩

def setup : Setup ℕ := ⟨⟨members, 50, false, {0}⟩, 1000, 20, bincode, batchSize_lt⟩

/-- Authority 0: its primary and its worker. -/
abbrev Site := Node ℕ ℕ (ℕ × ℕ) × Pipeline ℕ ℕ

def primariesOf (x : Site) : ℕ → Node ℕ ℕ (ℕ × ℕ) :=
  Function.update (fun name => Node.initial (setup.primaries.node 1000 name)) 0 x.1

def workersOf (x : Site) : Workers ℕ ℕ :=
  Function.update (fun _ _ => Pipeline.initial) 0 (Function.update (fun _ => .initial) 0 x.2)

inductive Turn
  | worker (e : PipelineEvent ℕ ℕ)
  | report
  | parents
  | propose
  | own
  | consensus

/-- What the primary does in its turn. -/
def action (x : Site) : Turn → Option (Action ℕ ℕ (ℕ × ℕ))
  | .worker _ => none
  | .report =>
      match x.2.reports with
      | .ourBatch d 0 counts delay :: _ => some (.propose 0 false (.ourBatch d 0 counts delay))
      | _ => none
  | .parents =>
      (parentsSent x.1.core)[x.1.parentsRead]?.map fun y => .propose 0 false (.newParents y.1 y.2)
  | .propose => some (.propose 0 true .timer)
  | .own => some .ownHeader
  | .consensus => some .consensus

/-- A step, while the headers to come are in play. -/
def turn (known : Header ℕ ℕ (ℕ × ℕ) → Bool) (x : Site) : Turn → Option Site
  | .worker e =>
      if (setup.workers 0).Genuine (workersOf x 0) 0 e then
        (x.2.step ((setup.workers 0).worker 0) e).map fun s => (x.1, s)
      else none
  | t =>
      if x.1.rxProposer.all known then
        (action x t).bind fun a =>
          (x.1.step (setup.primaries.node 1000 0) a).map fun n => (n, x.2)
      else none

def turns : List Turn :=
  [.worker (.transaction (transaction 10)), .worker (.transaction (transaction 12)),
    .worker .takeBatch, .worker (.acknowledged 0 1), .worker (.count 1), .worker (.processOwn 0),
    .report, .propose, .own] ++
  (List.replicate 4 [.parents, .propose, .own]).flatten ++ List.replicate 5 .consensus

def start : Site := (Node.initial (setup.primaries.node 1000 0), Pipeline.initial)

def reach (known : Header ℕ ℕ (ℕ × ℕ) → Bool) : Site :=
  (exec (turn known) start turns).getD start

/-- The headers in play: those of the start, and what authority 0 broadcasts. -/
def inPlay : List (Header ℕ ℕ (ℕ × ℕ)) :=
  default :: (Certificate.genesis members).map (·.header) ++
    (reach fun _ => true).1.core.outputs.filterMap fun o => match o with
      | .broadcastHeader h => some h
      | _ => none

def final : Site := reach (inPlay.contains ·)

theorem sound : setup.primaries.Sound (inPlay.contains · = true) where
  stake := by decide
  total := by decide
  minority := by decide
  sign name _ d d' := by simp [Ed25519.verify, Ed25519.sign]
  batch d votes := by simp [Ed25519.verify, Ed25519.verifyBatch]
  start := by decide +kernel
  genesis := by decide +kernel
  apart := by
    have key : ∀ h ∈ inPlay, ∀ h' ∈ inPlay, h.id ≠ voteDigest h' := by decide +kernel
    exact fun h h' hh hh' =>
      key h (List.contains_iff_mem.mp hh) h' (List.contains_iff_mem.mp hh')
  votes := by
    have key : ∀ h ∈ inPlay, ∀ h' ∈ inPlay, voteDigest h = voteDigest h' →
        h.id = h'.id ∧ h.round = h'.round ∧ h.author = h'.author := by decide +kernel
    exact fun h h' hh hh' =>
      key h (List.contains_iff_mem.mp hh) h' (List.contains_iff_mem.mp hh')
  ids := by
    have key : ∀ h ∈ inPlay, ∀ h' ∈ inPlay, h.digest = h.id → h'.digest = h'.id →
        h.id = h'.id → { h with signature := h'.signature } = h' := by decide +kernel
    exact fun h h' hh hh' =>
      key h (List.contains_iff_mem.mp hh) h' (List.contains_iff_mem.mp hh')
  zero := by
    have key : ∀ h ∈ inPlay, h.digest ≠ default := by decide +kernel
    exact fun h hh => key h (List.contains_iff_mem.mp hh)

variable {known : Header ℕ ℕ (ℕ × ℕ) → Bool} {x : Site}

theorem permitted_action {t : Turn} {a : Action ℕ ℕ (ℕ × ℕ)}
    (hknown : x.1.rxProposer.all known = true) (ha : action x t = some a)
    (cores : States ℕ ℕ (ℕ × ℕ)) :
    Permitted (setup.primaries.node 1000 0)
      (fun _ => setup.primaries.Admits (known · = true) setup.primaries.Fresh cores 0) x.1 a ∧
      Reported (workersOf x) 0 a := by
  cases t with
  | worker e => cases ha
  | report =>
      simp only [action] at ha
      split at ha
      · rename_i d counts delay rest hreports
        obtain rfl := Option.some.inj ha
        have hworker : members.hasWorker 0 0 = true := by decide
        have hmem : .ourBatch d 0 counts delay ∈ x.2.reports := hreports ▸ List.mem_cons_self
        exact ⟨⟨fun _ he => absurd he.symm (Option.some_ne_none _), hworker⟩, hmem⟩
      · cases ha
  | parents =>
      obtain ⟨y, -, rfl⟩ := Option.map_eq_some_iff.mp ha
      exact ⟨⟨fun _ he => absurd he.symm (Option.some_ne_none _), trivial⟩, trivial⟩
  | propose =>
      obtain rfl := Option.some.inj ha
      exact ⟨⟨fun _ he => absurd he.symm (Option.some_ne_none _), trivial⟩, trivial⟩
  | own =>
      obtain rfl := Option.some.inj ha
      refine ⟨⟨fun e he => ?_, trivial⟩, trivial⟩
      obtain ⟨h, hh, rfl⟩ := Option.map_eq_some_iff.mp he
      exact ⟨List.all_eq_true.mp hknown h (List.mem_of_head? hh), trivial⟩
  | consensus =>
      obtain rfl := Option.some.inj ha
      exact ⟨⟨fun _ he => absurd he.symm (Option.some_ne_none _), trivial⟩, trivial⟩

theorem operates_turn {x' : Site} {t : Turn}
    (h : setup.Operates (known · = true) setup.primaries.Fresh (primariesOf x) (workersOf x))
    (ht : turn known x t = some x') :
    setup.Operates (known · = true) setup.primaries.Fresh (primariesOf x') (workersOf x') := by
  by_cases hworker : ∃ e, t = .worker e
  · obtain ⟨e, rfl⟩ := hworker
    simp only [turn] at ht
    split at ht
    · rename_i hgenuine
      obtain ⟨s, hs, rfl⟩ := Option.map_eq_some_iff.mp ht
      have key := h.worker 0 0 (by decide) e s hgenuine hs
      unfold workersOf at key ⊢
      rwa [Function.update_self, Function.update_idem, Function.update_idem] at key
    · cases ht
  · have hprimary : x.1.rxProposer.all known = true ∧ ∃ a, action x t = some a ∧
        ∃ n, x.1.step (setup.primaries.node 1000 0) a = some n ∧ x' = (n, x.2) := by
      cases t with
      | worker e => exact absurd ⟨e, rfl⟩ hworker
      | _ =>
          simp only [turn] at ht
          split at ht
          · rename_i hall
            obtain ⟨a, ha, ht⟩ := Option.bind_eq_some_iff.mp ht
            obtain ⟨n, hn, hx⟩ := Option.map_eq_some_iff.mp ht
            exact ⟨hall, a, ha, n, hn, hx.symm⟩
          · cases ht
    obtain ⟨hknown, a, ha, n, hn, rfl⟩ := hprimary
    obtain ⟨hp, hr⟩ := permitted_action hknown ha (coresOf (primariesOf x))
    have key := h.primary 0 (by decide) a n hp hr hn
    unfold primariesOf at key ⊢
    rwa [Function.update_idem] at key

theorem operates_final :
    setup.Operates (inPlay.contains · = true) setup.primaries.Fresh (primariesOf final)
      (workersOf final) := by
  have hx : exec (turn (inPlay.contains ·)) start turns = some final :=
    eq_some_of_isSome start (by decide +kernel)
  refine exec_invariant (I := fun _ x => setup.Operates (inPlay.contains · = true)
    setup.primaries.Fresh (primariesOf x) (workersOf x)) ?_
    (fun _ _ _ _ h ht => operates_turn h ht) hx
  unfold primariesOf workersOf start
  rw [Function.update_eq_self, Function.update_eq_self]
  exact (Function.update_eq_self 0 _).symm ▸ Setup.Operates.initial

end BatchSample

open BatchSample

theorem committed_available_sample :
    ∃ log, (primariesOf final 0).log = some log ∧ ∀ c ∈ log.output, c.round ≠ 0 →
      (∃ s ⊆ setup.primaries.honest,
        setup.primaries.committee.validityThreshold ≤ setup.primaries.committee.stakeOf s ∧
        ∀ other ∈ s, ∀ x ∈ c.header.payload.entries, Kept (workersOf final x.2 other) x.1) ∧
      (c.origin ∈ setup.primaries.honest → ∀ x ∈ c.header.payload.entries,
        ∃ batch ∈ (workersOf final x.2 c.origin).sealed, Sha512.sha512 batch = x.1) :=
  committed_available setup (inPlay.contains · = true) sound (primariesOf final)
    (workersOf final) operates_final 0 (by decide) (by
      unfold Setting.PassesForGenesis
      decide +kernel)

end Sample

end DagBft.Authorities
