/-
  The workers of one id of all authorities: honest ones that run the tasks of
  `Worker/Pipeline`, in any order of steps, and byzantine ones that send and acknowledge
  whatever they want.

  A worker acknowledges a batch before it stores it. `reported_available`: when an honest
  worker reports a batch of its own, honest workers with the stake of the validity threshold
  have taken it, and what they store and report of it is the same.
-/
import DagBft.Worker.Pipeline

namespace DagBft.Worker

variable {PublicKey Digest : Type} [LinearOrder PublicKey] [LinearOrder Digest] [Sha512 Digest]

/-- The options that all honest workers run with, and who is honest. -/
structure Deployment (PublicKey : Type) [LinearOrder PublicKey] where
  committee : Committee PublicKey
  id : ℕ
  batchSize : ℕ
  baselineMode : Bool
  bincode : Bincode
  usize : batchSize < 2 ^ 64
  honest : Finset PublicKey

namespace Deployment

variable (w : Deployment PublicKey)

def worker (name : PublicKey) : WorkerSettings PublicKey :=
  ⟨name, w.id, w.committee, w.batchSize, w.baselineMode, w.bincode, w.usize⟩

def byzantine : Finset PublicKey := w.committee.keys.toFinset \ w.honest

/-- An honest worker replies to what it has received. -/
def Genuine (workers : PublicKey → Pipeline PublicKey Digest) (name : PublicKey) :
    PipelineEvent PublicKey Digest → Prop
  | .acknowledged number other => other ∈ w.honest →
      ∀ batch ∈ (workers name).sealed[number]?, batch ∈ (workers other).received
  | _ => True

instance genuineDecidable (workers : PublicKey → Pipeline PublicKey Digest) (name : PublicKey)
    (e : PipelineEvent PublicKey Digest) : Decidable (w.Genuine workers name e) :=
  match e with
  | .acknowledged number other => inferInstanceAs (Decidable (other ∈ w.honest →
      ∀ batch ∈ (workers name).sealed[number]?, batch ∈ (workers other).received))
  | .transaction _ | .batchTimer | .takeBatch | .count _ | .exhausted | .processOwn _
  | .message _ | .processOthers | .request _ _ | .delete _ => inferInstanceAs (Decidable True)

/-- The states that the workers go through: one task of an honest one takes the next step. -/
inductive Operates : (PublicKey → Pipeline PublicKey Digest) → Prop
  | initial : Operates fun _ => Pipeline.initial
  | step {workers : PublicKey → Pipeline PublicKey Digest} (run : Operates workers)
      (name : PublicKey) (honest : name ∈ w.honest) (e : PipelineEvent PublicKey Digest)
      (s : Pipeline PublicKey Digest) (genuine : w.Genuine workers name e)
      (next : (workers name).step (w.worker name) e = some s) :
      Operates (Function.update workers name s)

/-- Less than a third of the stake is byzantine. -/
structure Sound : Prop where
  total : w.committee.total < 2 ^ 31
  minority : 3 * w.committee.stakeOf w.byzantine < w.committee.total

end Deployment

variable {cfg : WorkerSettings PublicKey} {s s' : Pipeline PublicKey Digest}

/-! ## What a step adds -/

/-- What is sealed, received and reported stays so, and each acknowledgement is of a sealed
    batch. -/
structure Adds (s : Pipeline PublicKey Digest) (e : PipelineEvent PublicKey Digest)
    (s' : Pipeline PublicKey Digest) : Prop where
  sealed : s.sealed <+: s'.sealed
  received : s.received <+: s'.received
  reports : s.reports <+: s'.reports
  done : ∀ x ∈ s'.done, x ∈ s.done ∨ e = .acknowledged x.1 x.2 ∧ x.1 < s.sealed.length

theorem adds_step {e : PipelineEvent PublicKey Digest} (h : s.step cfg e = some s') :
    Adds s e s' := by
  have hkeep : ∀ {s' : Pipeline PublicKey Digest}, s'.sealed = s.sealed →
      s'.received = s.received → s.reports <+: s'.reports → s'.done = s.done → Adds s e s' :=
    fun h1 h2 h3 h4 =>
      ⟨h1 ▸ List.prefix_rfl, h2 ▸ List.prefix_rfl, h3, fun x hx => Or.inl (h4 ▸ hx)⟩
  cases e with
  | transaction tx =>
      simp only [Pipeline.step] at h
      split at h
      · obtain rfl := Option.some.inj h
        unfold Pipeline.push
        dsimp only
        split
        · exact ⟨List.prefix_append _ _, List.prefix_rfl, List.prefix_rfl, fun x hx => Or.inl hx⟩
        · exact hkeep rfl rfl List.prefix_rfl rfl
      · cases h
  | batchTimer =>
      obtain rfl := Option.some.inj h
      split
      · exact hkeep rfl rfl List.prefix_rfl rfl
      · exact ⟨List.prefix_append _ _, List.prefix_rfl, List.prefix_rfl, fun x hx => Or.inl hx⟩
  | acknowledged number name =>
      simp only [Pipeline.step] at h
      split at h
      · rename_i hknown
        obtain rfl := Option.some.inj h
        refine ⟨List.prefix_rfl, List.prefix_rfl, List.prefix_rfl, fun x hx => ?_⟩
        rcases List.mem_append.mp hx with hx | hx
        · exact Or.inl hx
        · rw [List.mem_singleton.mp hx]
          exact Or.inr ⟨rfl, hknown.1⟩
      · cases h
  | takeBatch =>
      simp only [Pipeline.step] at h
      split at h
      · exact Option.some.inj h ▸ hkeep rfl rfl List.prefix_rfl rfl
      · cases h
  | count name =>
      simp only [Pipeline.step] at h
      split at h
      · split at h
        · obtain rfl := Option.some.inj h
          unfold Pipeline.countStake
          dsimp only
          split <;> exact hkeep rfl rfl List.prefix_rfl rfl
        · cases h
      · cases h
  | exhausted =>
      simp only [Pipeline.step] at h
      split at h
      · split at h
        · exact Option.some.inj h ▸ hkeep rfl rfl List.prefix_rfl rfl
        · cases h
      · cases h
  | processOwn queueDelayMs =>
      obtain ⟨x, -, rfl⟩ := Option.map_eq_some_iff.mp h
      exact hkeep rfl rfl (List.prefix_append _ _) rfl
  | message serialized =>
      obtain rfl := Option.some.inj h
      exact ⟨List.prefix_rfl, List.prefix_append _ _, List.prefix_rfl, fun x hx => Or.inl hx⟩
  | processOthers =>
      obtain ⟨x, -, rfl⟩ := Option.map_eq_some_iff.mp h
      exact hkeep rfl rfl (List.prefix_append _ _) rfl
  | request digests origin =>
      simp only [Pipeline.step] at h
      split at h
      · exact Option.some.inj h ▸ hkeep rfl rfl List.prefix_rfl rfl
      · exact Option.some.inj h ▸ hkeep rfl rfl List.prefix_rfl rfl
  | delete digest => exact Option.some.inj h ▸ hkeep rfl rfl List.prefix_rfl rfl

/-! ## Acknowledgements -/

variable {w : Deployment PublicKey} {workers : PublicKey → Pipeline PublicKey Digest}
  {name : PublicKey}

/-- What an honest worker has acknowledged it has received. -/
def Witnessed (w : Deployment PublicKey) (workers : PublicKey → Pipeline PublicKey Digest)
    (s : Pipeline PublicKey Digest) : Prop :=
  ∀ x ∈ s.done, x.1 < s.sealed.length ∧ (x.2 ∈ w.honest →
    ∀ batch ∈ s.sealed[x.1]?, batch ∈ (workers x.2).received)

omit [LinearOrder Digest] [Sha512 Digest] in
theorem Witnessed.mono {workers' : PublicKey → Pipeline PublicKey Digest}
    (h : Witnessed w workers s)
    (hreceived : ∀ x, (workers x).received ⊆ (workers' x).received) : Witnessed w workers' s :=
  fun x hx => ⟨(h x hx).1, fun hh batch hb => hreceived x.2 ((h x hx).2 hh batch hb)⟩

omit [LinearOrder Digest] [Sha512 Digest] in
theorem Witnessed.step (h : Witnessed w workers (workers name))
    {e : PipelineEvent PublicKey Digest} (hgenuine : w.Genuine workers name e)
    (hadds : Adds (workers name) e s) : Witnessed w workers s := by
  intro x hx
  obtain ⟨more, hmore⟩ := hadds.sealed
  have hlt : x.1 < (workers name).sealed.length := by
    rcases hadds.done x hx with hold | ⟨-, hlt⟩
    · exact (h x hold).1
    · exact hlt
  rw [← hmore, List.length_append, List.getElem?_append_left hlt]
  refine ⟨Nat.lt_add_right _ hlt, fun hh batch hb => ?_⟩
  rcases hadds.done x hx with hold | ⟨he, -⟩
  · exact (h x hold).2 hh batch hb
  · rw [he] at hgenuine
    exact hgenuine hh batch hb

/-- The invariants of every worker. -/
theorem workerInv_of_operates (htotal : w.committee.total < 2 ^ 32) (hrun : w.Operates workers)
    (name : PublicKey) :
    (∃ txs, PipelineInv (w.worker name) txs (workers name)) ∧
      Witnessed w workers (workers name) := by
  induction hrun generalizing name with
  | initial => exact ⟨⟨[], pipelineInv_initial⟩, fun x hx => absurd hx List.not_mem_nil⟩
  | @step workers run stepped honest e s genuine next ih =>
      have hadds := adds_step next
      have hreceived : ∀ x,
          (workers x).received ⊆ (Function.update workers stepped s x).received := by
        intro x
        by_cases hx : x = stepped
        · subst hx
          rw [Function.update_self]
          exact hadds.received.subset
        · rw [Function.update_of_ne hx]
          exact List.Subset.refl _
      by_cases hname : name = stepped
      · subst hname
        obtain ⟨⟨txs, hinv⟩, hwitnessed⟩ := ih name
        rw [Function.update_self]
        exact ⟨⟨_, hinv.step htotal next⟩, (hwitnessed.step genuine hadds).mono hreceived⟩
      · rw [Function.update_of_ne hname]
        exact (ih name).imp_right fun hwitnessed => hwitnessed.mono hreceived

/-! ## Availability -/

omit [LinearOrder Digest] [Sha512 Digest] in
/-- A sealed batch is one that the other workers can read. -/
theorem isBatch_of_sealed {txs : List Bytes} (h : Assembled cfg txs s) {batch : Bytes}
    (hbatch : batch ∈ s.sealed) : cfg.isBatch batch = true := by
  obtain ⟨batches, hsealed, htxs, hpacked⟩ := h.batches
  rw [hsealed] at hbatch
  obtain ⟨b, hb, rfl⟩ := List.mem_map.mp hbatch
  have hframes : ∀ tx ∈ b, 10 ≤ tx.length ∧ tx.length < 2 ^ 64 := fun tx htx =>
    h.frames tx (htxs ▸ List.mem_append_left _ (List.mem_flatten_of_mem hb htx))
  have hlen : b.length < 2 ^ 64 := by
    have hdrop : b.dropLast.length ≤ sizeOf b.dropLast := by
      have key := List.sum_le_sum (l := b.dropLast) (f := fun _ => 1) (g := List.length)
        fun tx htx => le_trans (by decide) (hframes tx (List.dropLast_subset b htx)).1
      rw [List.map_const', List.sum_replicate, smul_eq_mul, mul_one] at key
      exact key
    have hone : b.dropLast.length = b.length - 1 := List.length_dropLast
    by_cases hsingle : b.dropLast = []
    · rw [hsingle] at hone
      have := hone.symm
      simp only [List.length_nil] at this
      omega
    · have hsize := (hpacked b hb).size hsingle
      have husize := cfg.usize
      omega
  unfold WorkerSettings.isBatch
  rw [cfg.bincode.batch b hlen fun tx htx => (hframes tx htx).2]

/-- Batches are available: when an honest worker has reported one of its own then it has stored
    it, and honest workers with the stake of the validity threshold have taken it. When they
    process it they report the same, and store it. What is stored under a digest always has
    that digest, and only what the `Synchronizer` has deleted is no longer there. -/
theorem reported_available (w : Deployment PublicKey) (hw : w.Sound)
    (workers : PublicKey → Pipeline PublicKey Digest) (hrun : w.Operates workers)
    (name : PublicKey) (hname : name ∈ w.honest) :
    (∀ digest data, (workers name).store digest = some data → Sha512.sha512 data = digest) ∧
    ∀ report ∈ (workers name).reports.filterMap WorkerPrimaryMessage.ours,
      (((workers name).store report.1).isSome = true ∨ report.1 ∈ (workers name).deleted) ∧
      ∃ batch, report = reportOf Digest (w.worker name) batch ∧
      ∃ holders ⊆ w.honest, w.committee.validityThreshold ≤ w.committee.stakeOf holders ∧
        ∀ other ∈ holders, other ≠ name →
          ∃ k, ((workers other).incoming (w.worker other))[k]? = some batch ∧
            (k < (workers other).othersProcessed →
              report ∈ (workers other).reports.filterMap WorkerPrimaryMessage.others ∧
              (((workers other).store report.1).isSome = true ∨
                report.1 ∈ (workers other).deleted)) := by
  have htotal : w.committee.total < 2 ^ 32 := hw.total.trans (by norm_num)
  obtain ⟨⟨txs, ha, ho, hp⟩, hwitnessed⟩ := workerInv_of_operates htotal hrun name
  refine ⟨hp.integrity, fun report hreport => ?_⟩
  refine ⟨hp.kept report (List.mem_append_left _ hreport), ?_⟩
  rw [hp.own] at hreport
  obtain ⟨⟨number, batch⟩, hx, rfl⟩ := List.mem_map.mp hreport
  obtain ⟨hsealed, names, hnames, hquorum⟩ := ho.forwarded _ (List.mem_of_mem_take hx)
  refine ⟨batch, rfl, insert name names ∩ w.honest, Finset.inter_subset_right, ?_,
    fun other hother hne => ?_⟩
  · refine Committee.validityThreshold_le_inter hw.total hw.minority hquorum fun n hn => ?_
    obtain ⟨hin, hnot⟩ := Finset.mem_sdiff.mp hn
    have hn : n ∈ names := (Finset.mem_insert.mp hin).resolve_left fun he => hnot (he ▸ hname)
    exact Finset.mem_sdiff.mpr
      ⟨List.mem_toFinset.mpr (List.mem_filter.mp (hnames n hn).1).1, hnot⟩
  · obtain ⟨hin, hhonest⟩ := Finset.mem_inter.mp hother
    have hn : other ∈ names := (Finset.mem_insert.mp hin).resolve_left hne
    have hreceived := (hwitnessed _ (hnames other hn).2).2 hhonest batch hsealed
    have hbatch : (w.worker other).isBatch batch = true :=
      isBatch_of_sealed ha (List.mem_of_getElem? hsealed)
    obtain ⟨⟨txs', -, -, hp'⟩, -⟩ := workerInv_of_operates htotal hrun other
    obtain ⟨k, hk⟩ := List.getElem?_of_mem (List.mem_filter.mpr ⟨hreceived, hbatch⟩)
    refine ⟨k, hk, fun hlt => ?_⟩
    have hmem : reportOf Digest (w.worker name) batch ∈
        (workers other).reports.filterMap WorkerPrimaryMessage.others := by
      rw [hp'.others]
      exact List.mem_map_of_mem (List.mem_of_getElem? ((List.getElem?_take_of_lt hlt).trans hk))
    exact ⟨hmem, hp'.kept _ (List.mem_append_right _ hmem)⟩

/-! ## Four workers, one of them byzantine

The worker of authority 0 seals a batch, which those of 1 and 2 receive; that of 1 has processed
it, that of 2 has not. -/

section Sample

open Toy PipelineSample

namespace AvailabilitySample

def deployment : Deployment ℕ := ⟨committee, 0, 20, false, bincode, batchSize_lt, {0, 1, 2}⟩

/-- The batch that is sealed. -/
def batch : Bytes := bincode.serialize [transaction 10, transaction 12]

def steps : List (ℕ × PipelineEvent ℕ ℕ) :=
  [(0, .transaction (transaction 10)), (0, .transaction (transaction 12)), (0, .takeBatch),
    (1, .message batch), (2, .message batch), (0, .acknowledged 0 1), (0, .acknowledged 0 2),
    (0, .count 1), (0, .count 2), (0, .processOwn 0), (1, .processOthers)]

def advance (workers : ℕ → Pipeline ℕ ℕ) (x : ℕ × PipelineEvent ℕ ℕ) : ℕ → Pipeline ℕ ℕ :=
  Function.update workers x.1
    (((workers x.1).step (deployment.worker x.1) x.2).getD (workers x.1))

/-- The workers after the first `k` steps. -/
def reached (k : ℕ) : ℕ → Pipeline ℕ ℕ := (steps.take k).foldl advance fun _ => .initial

theorem operates_reached (k : ℕ) (hk : k ≤ 11) : deployment.Operates (reached k) := by
  have hall : ∀ i < 11, ∃ x ∈ steps[i]?, x.1 ∈ deployment.honest ∧
      ((reached i x.1).step (deployment.worker x.1) x.2).isSome = true := by decide +kernel
  have hgenuine : ∀ i < 11, ∀ x ∈ steps[i]?, deployment.Genuine (reached i) x.1 x.2 := by
    decide +kernel
  induction k with
  | zero => exact .initial
  | succ k ih =>
      obtain ⟨x, hx, hhonest, hsome⟩ := hall k (by omega)
      obtain ⟨s, hs⟩ := Option.isSome_iff_exists.mp hsome
      have hnext : reached (k + 1) = Function.update (reached k) x.1 s := by
        unfold reached
        rw [List.take_add_one, hx, Option.toList_some, List.foldl_append]
        change advance (reached k) x = _
        unfold advance
        rw [hs]
        rfl
      rw [hnext]
      exact (ih (by omega)).step x.1 hhonest x.2 s (hgenuine k (by omega) x hx) hs

end AvailabilitySample

open AvailabilitySample

theorem reported_available_sample :
    (∀ digest data, (reached 11 0).store digest = some data → Sha512.sha512 data = digest) ∧
    ∀ report ∈ (reached 11 0).reports.filterMap WorkerPrimaryMessage.ours,
      (((reached 11 0).store report.1).isSome = true ∨ report.1 ∈ (reached 11 0).deleted) ∧
      ∃ batch, report = reportOf ℕ (deployment.worker 0) batch ∧
      ∃ holders ⊆ deployment.honest,
        deployment.committee.validityThreshold ≤ deployment.committee.stakeOf holders ∧
        ∀ other ∈ holders, other ≠ 0 →
          ∃ k, ((reached 11 other).incoming (deployment.worker other))[k]? = some batch ∧
            (k < (reached 11 other).othersProcessed →
              report ∈ (reached 11 other).reports.filterMap WorkerPrimaryMessage.others ∧
              (((reached 11 other).store report.1).isSome = true ∨
                report.1 ∈ (reached 11 other).deleted)) :=
  reported_available deployment ⟨by decide, by decide⟩ (reached 11)
    (operates_reached 11 (by decide)) 0 (by decide)

end Sample

end DagBft.Worker
