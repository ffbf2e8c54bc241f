/-
  The proposer (`primary/src/proposer.rs`).

  The timer is not modelled: whether it has expired is given for each iteration of the loop,
  as are the times at which headers are created. Counts are added on `u16` and queue delays
  on `u64`, as the release build does.

  `Run` are the sequences of states of a proposer whose parents come from the certificates
  aggregator of `Core`; `proposerInv_of_run` says what its next header is made of.
-/
import DagBft.Primary.Core

namespace DagBft.Proposer

open DagBft.Core

variable (PublicKey Digest : Type) [LinearOrder PublicKey] [LinearOrder Digest]

/-- The immutable part of `Proposer`. -/
structure Params where
  name : PublicKey
  committee : Committee PublicKey
  headerSize : ℕ

structure State where
  /-- The current round of the dag. -/
  round : ℕ
  /-- The certificates' ids waiting to be included in the next header. -/
  lastParents : List Digest
  /-- The batches' digests waiting to be included in the next header. -/
  digests : List (Digest × ℕ)
  payloadSize : ℕ
  /-- Aggregated over the batches pending in the next header. -/
  accountCounts : OrdMap ℕ ℕ
  qdSum : ℕ
  qdCount : ℕ

inductive Event
  /-- From `Core`. -/
  | newParents (parents : List Digest) (round : ℕ)
  /-- From our workers. -/
  | ourBatch (digest : Digest) (worker : ℕ) (counts : OrdMap ℕ ℕ) (queueDelayMs : ℕ)
  | timer

variable {PublicKey Digest}
variable {Signature : Type}

section Definitions

variable [AsBytes PublicKey] [AsBytes Digest] [Sha512 Digest]
  [Inhabited PublicKey] [Inhabited Digest] [Inhabited Signature]
  [Ed25519 PublicKey Digest Signature]

variable (p : Params PublicKey)

/-- `collect` into the payload: a digest that comes again replaces its worker. -/
def collectPayload (digests : List (Digest × ℕ)) : OrdMap Digest ℕ :=
  digests.foldl (fun m x => m.insert x.1 x.2) ∅

variable (Signature) in
/-- `Header::new` in `make_header`. -/
def newHeader (now : ℕ) (s : State Digest) : Header PublicKey Digest Signature :=
  let header : Header PublicKey Digest Signature :=
    { author := p.name
      round := s.round
      payload := collectPayload s.digests
      parents := OrdSet.ofList s.lastParents
      accountCounts := s.accountCounts
      avgQueueDelayMs := if 0 < s.qdCount then s.qdSum / s.qdCount else 0
      createdAt := now
      id := default
      signature := default }
  { header with id := header.digest, signature := Ed25519.sign header.digest p.name }

/-- What `make_header` and the reset after it leave. -/
def State.drained (s : State Digest) : State Digest :=
  { s with
    lastParents := [], digests := [], payloadSize := 0, accountCounts := ∅, qdSum := 0,
    qdCount := 0 }

/-- The top of the loop: whether a new header is proposed. -/
def proposes (timerExpired : Bool) (s : State Digest) : Bool :=
  (timerExpired || p.headerSize ≤ s.payloadSize) && s.lastParents ≠ []

/-- The branches of `select!`. -/
def receive (s : State Digest) : Event Digest → State Digest
  | .newParents parents round =>
      if round < s.round then s
      else
        -- Advance to the next round.
        { s with round := round + 1, lastParents := parents }
  | .ourBatch digest worker counts queueDelayMs =>
      { s with
        payloadSize := s.payloadSize + 32
        qdSum := (s.qdSum + queueDelayMs) % 2 ^ 64
        qdCount := s.qdCount + 1
        digests := s.digests ++ [(digest, worker)]
        accountCounts := addCounts s.accountCounts counts }
  | .timer => s

/-- One iteration of the loop. -/
def step (s : State Digest) (timerExpired : Bool) (e : Event Digest) : State Digest :=
  receive (if proposes p timerExpired s then s.drained else s) e

variable (Signature) in
def State.initial : State Digest where
  round := 1
  lastParents :=
    (Certificate.genesis p.committee : List (Certificate PublicKey Digest Signature)).map (·.digest)
  digests := []
  payloadSize := 0
  accountCounts := ∅
  qdSum := 0
  qdCount := 0

/-- Parents that the aggregator of a round hands out when a certificate completes a quorum. -/
def Produced (committee : Committee PublicKey)
    (known : Certificate PublicKey Digest Signature → Prop) (parents : List Digest) (round : ℕ) :
    Prop :=
  ∃ certificates c, (∀ x ∈ certificates ++ [c], known x ∧ x.round = round) ∧
    ((certificates.foldl (fun agg x => (agg.append x committee).1)
      CertificatesAggregator.new).append c committee).2 = some parents

/-- Parents come from an aggregator, and a batch is reported with the counts of its digest. -/
def Enabled (known : Certificate PublicKey Digest Signature → Prop)
    (reported : Digest → OrdMap ℕ ℕ) : Event Digest → Prop
  | .newParents parents round => Produced p.committee known parents round
  | .ourBatch digest _ counts _ => counts = reported digest
  | .timer => True

/-- The states that the proposer goes through. -/
inductive Run (known : Certificate PublicKey Digest Signature → Prop)
    (reported : Digest → OrdMap ℕ ℕ) : State Digest → Prop
  | initial : Run known reported (State.initial Signature p)
  | step {s : State Digest} (run : Run known reported s) (timerExpired : Bool) (e : Event Digest)
      (enabled : Enabled p known reported e) : Run known reported (step p s timerExpired e)

end Definitions

/-! ## The certificates aggregator -/

/-- The stake of some certificates, on `u32`. -/
def stakeSum (committee : Committee PublicKey)
    (certificates : List (Certificate PublicKey Digest Signature)) : ℕ :=
  u32 (certificates.map fun c => committee.stake c.origin).sum

/-- The certificates counted since the aggregator was new or complete. -/
structure Counted (known : Certificate PublicKey Digest Signature → Prop) (round : ℕ)
    (counted : List (Certificate PublicKey Digest Signature)) : Prop where
  known : ∀ c ∈ counted, known c ∧ c.round = round
  distinct : (counted.map Certificate.origin).Nodup

variable {committee : Committee PublicKey} {known : Certificate PublicKey Digest Signature → Prop}
  {round : ℕ}

omit [LinearOrder PublicKey] in
/-- Another certificate, of an author that is not counted yet. -/
theorem Counted.snoc {counted : List (Certificate PublicKey Digest Signature)}
    {c : Certificate PublicKey Digest Signature} (hc : Counted known round counted)
    (hknown : known c ∧ c.round = round) (hnew : c.origin ∉ counted.map Certificate.origin) :
    Counted known round (counted ++ [c]) where
  known x hx := by
    rcases List.mem_append.mp hx with hx | hx
    · exact hc.known x hx
    · rw [List.mem_singleton.mp hx]
      exact hknown
  distinct := by
    rw [List.map_append, List.nodup_append]
    refine ⟨hc.distinct, List.nodup_singleton _, fun a ha b hb hab => hnew ?_⟩
    rwa [← List.mem_singleton.mp hb, ← hab]

theorem stakeSum_snoc (counted : List (Certificate PublicKey Digest Signature))
    (c : Certificate PublicKey Digest Signature) :
    stakeSum committee (counted ++ [c]) =
      u32 (stakeSum committee counted + committee.stake c.origin) := by
  unfold stakeSum u32
  rw [List.map_append, List.sum_append, List.map_singleton, List.sum_singleton, Nat.mod_add_mod]

variable [AsBytes PublicKey] [AsBytes Digest] [Sha512 Digest]

/-- The aggregator holds the digests and the weight of what it has counted. -/
structure AggregatorInv (committee : Committee PublicKey)
    (known : Certificate PublicKey Digest Signature → Prop) (round : ℕ)
    (agg : CertificatesAggregator PublicKey Digest)
    (counted : List (Certificate PublicKey Digest Signature)) : Prop where
  fresh : Counted known round counted
  certificates : agg.certificates = counted.map Certificate.digest
  weight : agg.weight = stakeSum committee counted
  used : ∀ c ∈ counted, c.origin ∈ agg.used

theorem AggregatorInv.append {agg : CertificatesAggregator PublicKey Digest}
    {counted : List (Certificate PublicKey Digest Signature)}
    {c : Certificate PublicKey Digest Signature}
    (hi : AggregatorInv committee known round agg counted) (hc : known c ∧ c.round = round) :
    (∃ counted', AggregatorInv committee known round (agg.append c committee).1 counted') ∧
      ∀ parents, (agg.append c committee).2 = some parents →
        ∃ counted', Counted known round counted' ∧
          parents = counted'.map Certificate.digest ∧
          committee.quorumThreshold ≤ stakeSum committee counted' := by
  unfold CertificatesAggregator.append
  by_cases hused : c.origin ∈ agg.used
  · simp only [hused, if_true]
    exact ⟨⟨counted, hi⟩, fun parents h => by cases h⟩
  · have hnew : c.origin ∉ counted.map Certificate.origin := by
      intro hmem
      obtain ⟨x, hx, he⟩ := List.mem_map.mp hmem
      exact hused (he ▸ hi.used x hx)
    have hcounted := hi.fresh.snoc hc hnew
    have hcertificates : agg.certificates ++ [c.digest] =
        (counted ++ [c]).map Certificate.digest := by
      rw [hi.certificates, List.map_append]
      rfl
    have hweight : u32 (agg.weight + committee.stake c.origin) =
        stakeSum committee (counted ++ [c]) := by
      rw [stakeSum_snoc, hi.weight]
    simp only [hused, if_false]
    by_cases hquorum : committee.quorumThreshold ≤ u32 (agg.weight + committee.stake c.origin)
    · rw [if_pos hquorum]
      refine ⟨⟨[], ⟨by simp, List.nodup_nil⟩, rfl, rfl, by simp⟩, fun parents h => ?_⟩
      obtain rfl := Option.some.inj h
      exact ⟨counted ++ [c], hcounted, hcertificates, hweight ▸ hquorum⟩
    · rw [if_neg hquorum]
      refine ⟨⟨counted ++ [c], hcounted, hcertificates, hweight, fun x hx => ?_⟩,
        fun parents h => by cases h⟩
      rcases List.mem_append.mp hx with hx | hx
      · exact List.mem_cons_of_mem _ (hi.used x hx)
      · rw [List.mem_singleton.mp hx]
        exact List.mem_cons_self

/-- Parents that are handed out are the digests of certificates of one round, by different
    authors that hold a quorum. -/
theorem Produced.counted {parents : List Digest}
    (h : Produced committee known parents round) :
    ∃ counted, Counted known round counted ∧
      parents = counted.map Certificate.digest ∧
      committee.quorumThreshold ≤ stakeSum committee counted := by
  obtain ⟨certificates, c, hknown, hparents⟩ := h
  have hinv : ∀ (l : List (Certificate PublicKey Digest Signature))
      (agg : CertificatesAggregator PublicKey Digest),
      (∀ x ∈ l, known x ∧ x.round = round) →
      (∃ counted, AggregatorInv committee known round agg counted) →
      ∃ counted, AggregatorInv committee known round
        (l.foldl (fun agg x => (agg.append x committee).1) agg) counted := by
    intro l
    induction l with
    | nil => exact fun agg _ h => h
    | cons x l ih =>
        rintro agg hl ⟨counted, hi⟩
        rw [List.foldl_cons]
        exact ih _ (fun y hy => hl y (List.mem_cons_of_mem _ hy))
          (hi.append (hl x List.mem_cons_self)).1
  obtain ⟨counted, hi⟩ := hinv certificates CertificatesAggregator.new
    (fun x hx => hknown x (List.mem_append_left _ hx))
    ⟨[], ⟨by simp, List.nodup_nil⟩, rfl, rfl, by simp⟩
  exact (hi.append (hknown c (List.mem_append_right _ (by simp)))).2 parents hparents

/-! ## What the next header is made of -/

/-- The invariant: the parents are by a quorum of the round before, and the counts are
    those reported with the pending digests. -/
structure ProposerInv (committee : Committee PublicKey)
    (known : Certificate PublicKey Digest Signature → Prop) (reported : Digest → OrdMap ℕ ℕ)
    (s : State Digest) : Prop where
  parents : s.lastParents ≠ [] → ∃ counted round, Counted known round counted ∧
    s.round = round + 1 ∧ s.lastParents = counted.map Certificate.digest ∧
    committee.quorumThreshold ≤ stakeSum committee counted
  counts : s.accountCounts = (s.digests.map fun x => reported x.1).foldl addCounts ∅

variable {p : Params PublicKey} {reported : Digest → OrdMap ℕ ℕ} {s : State Digest}

theorem proposerInv_drained (s : State Digest) :
    ProposerInv committee known reported s.drained where
  parents h := absurd rfl h
  counts := rfl

/-- The counts stay those that were reported with the pending digests. -/
theorem counts_receive
    (h : s.accountCounts = (s.digests.map fun x => reported x.1).foldl addCounts ∅)
    {e : Event Digest} (he : Enabled p known reported e) :
    (receive s e).accountCounts =
      ((receive s e).digests.map fun x => reported x.1).foldl addCounts ∅ := by
  cases e with
  | newParents parents round =>
      simp only [receive]
      split
      · exact h
      · exact h
  | ourBatch digest worker counts queueDelayMs =>
      obtain rfl : counts = reported digest := he
      show addCounts s.accountCounts (reported digest) =
        ((s.digests ++ [(digest, worker)]).map fun x => reported x.1).foldl addCounts ∅
      rw [List.map_append, List.foldl_append, ← h]
      rfl
  | timer => exact h

theorem ProposerInv.receive (hi : ProposerInv p.committee known reported s) {e : Event Digest}
    (he : Enabled p known reported e) :
    ProposerInv p.committee known reported (receive s e) := by
  refine ⟨?_, counts_receive hi.counts he⟩
  cases e with
  | newParents parents round =>
      by_cases hold : round < s.round
      · simp only [Proposer.receive, hold, if_true]
        exact hi.parents
      · simp only [Proposer.receive, hold, if_false]
        obtain ⟨counted, hcounted, hparents, hquorum⟩ := Produced.counted he
        exact fun _ => ⟨counted, round, hcounted, rfl, hparents, hquorum⟩
  | ourBatch digest worker counts queueDelayMs => exact hi.parents
  | timer => exact hi.parents

variable [Inhabited PublicKey] [Inhabited Digest] [Inhabited Signature]

omit [AsBytes PublicKey] [AsBytes Digest] [Sha512 Digest] in
/-- The genesis certificates hold a quorum, if anybody has voting power. -/
theorem counted_genesis (hvotes : 0 < committee.totalVotes)
    (hgenesis : ∀ g ∈ Certificate.genesis committee, known g) :
    Counted known 0 (Certificate.genesis committee) ∧
      committee.quorumThreshold ≤ stakeSum committee
        (Certificate.genesis committee : List (Certificate PublicKey Digest Signature)) := by
  refine ⟨⟨fun g hg => ⟨hgenesis g hg, Certificate.round_genesis hg⟩,
    Certificate.nodup_origin_genesis committee⟩, ?_⟩
  have hstakes : (Certificate.genesis committee :
      List (Certificate PublicKey Digest Signature)).map (fun c => committee.stake c.origin) =
      committee.authorities.entries.map fun x => x.2.stake := by
    unfold Certificate.genesis Committee.keys OrdMap.keys
    rw [List.map_map, List.map_map]
    exact List.map_congr_left fun x hx => Committee.stake_of_mem hx
  have hsum : committee.totalVotes = stakeSum committee
      (Certificate.genesis committee : List (Certificate PublicKey Digest Signature)) := by
    unfold stakeSum
    rw [hstakes]
    exact sumU32_eq_mod _
  have hlt : committee.totalVotes < 2 ^ 32 := hsum ▸ Nat.mod_lt _ (by decide)
  rw [← hsum]
  unfold Committee.quorumThreshold u32
  omega

theorem ProposerInv.initial (hvotes : 0 < p.committee.totalVotes)
    (hgenesis : ∀ g ∈ Certificate.genesis p.committee, known g) :
    ProposerInv p.committee known reported (State.initial Signature p) where
  parents _ := by
    obtain ⟨hcounted, hquorum⟩ := counted_genesis hvotes hgenesis
    exact ⟨_, 0, hcounted, rfl, rfl, hquorum⟩
  counts := rfl

theorem counts_of_run (hrun : Run p known reported s) :
    s.accountCounts = (s.digests.map fun x => reported x.1).foldl addCounts ∅ := by
  induction hrun with
  | initial => rfl
  | step run timerExpired e enabled ih =>
      refine counts_receive ?_ enabled
      split
      · rfl
      · exact ih

theorem proposerInv_of_run (hvotes : 0 < p.committee.totalVotes)
    (hgenesis : ∀ g ∈ Certificate.genesis p.committee, known g) (hrun : Run p known reported s) :
    ProposerInv p.committee known reported s := by
  induction hrun with
  | initial => exact ProposerInv.initial hvotes hgenesis
  | step run timerExpired e enabled ih =>
      refine ProposerInv.receive ?_ enabled
      split
      · exact proposerInv_drained _
      · exact ih

variable [Ed25519 PublicKey Digest Signature]

omit [LinearOrder Digest] [AsBytes Digest] [Sha512 Digest] [Inhabited Digest] in
theorem receive_round_ne_zero (h : s.round ≠ 0) (e : Event Digest) : (receive s e).round ≠ 0 := by
  cases e with
  | newParents parents round =>
      simp only [receive]
      split
      · exact h
      · exact Nat.succ_ne_zero round
  | ourBatch digest worker counts queueDelayMs => exact h
  | timer => exact h

/-- The round 0 is that of the genesis certificates: no header is made for it. -/
theorem round_newHeader_ne_zero (hrun : Run p known reported s) (now : ℕ) :
    (newHeader Signature p now s).round ≠ 0 := by
  have hround : s.round ≠ 0 := by
    induction hrun with
    | initial => exact Nat.one_ne_zero
    | step run timerExpired e enabled ih =>
        refine receive_round_ne_zero ?_ e
        split
        · exact ih
        · exact ih
  exact hround

end DagBft.Proposer
