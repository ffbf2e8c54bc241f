/-
  The certificates that `process_vote` assembles pass `Certificate::verify`, and `Core` does
  not panic on its own votes and certificates, provided that it does not return to a header
  of its own whose round is garbage collected.

  `AssemblyInv` is the invariant, which every run keeps. A header of our own has all its
  parents, so it is voted for when it comes from the proposer; afterwards `last_voted` and
  `processing` keep it from being processed again. Both are cleaned up with the garbage
  collected round, while the current header stays where it is: `late_vote_panics` is a run in
  which its certificate is completed after that. Our vote for it is then made once more, and
  the aggregator, which has it, refuses it: this is the panic, and no certificate comes of it.
-/
import DagBft.Primary.Acceptance
import DagBft.Primary.Validity
import DagBft.Primary.Votes

namespace DagBft.Core

open Std.Do
open Proposer (AggregatorInv Counted stakeSum Holds HasParents)

set_option mvcgen.warning false

variable {PublicKey Digest Signature : Type} [LinearOrder PublicKey] [LinearOrder Digest]

/-! ## Collected votes -/

section Collected

variable [AsBytes PublicKey] [AsBytes Digest] [Sha512 Digest]
  [Ed25519 PublicKey Digest Signature]

/-- What the votes for a header and its certificate sign. -/
def voteDigest (h : Header PublicKey Digest Signature) : Digest :=
  Sha512.sha512 (voteBytes h.id h.round h.author)

/-- A vote of `committee` for the header. -/
structure VoteFor (committee : Committee PublicKey) (h : Header PublicKey Digest Signature)
    (v : Vote PublicKey Digest Signature) : Prop where
  stake : 0 < committee.stake v.author
  signed : Ed25519.verify v.signature (voteDigest h) v.author = true

/-- The votes that an aggregator holds are by different authorities, and its weight is at
    most theirs. -/
structure Collected (committee : Committee PublicKey) (h : Header PublicKey Digest Signature)
    (agg : VotesAggregator PublicKey Signature) : Prop where
  used : ∀ v ∈ agg.votes, v.1 ∈ agg.used
  distinct : (agg.votes.map Prod.fst).Nodup
  valid : ∀ v ∈ agg.votes, 0 < committee.stake v.1 ∧
    Ed25519.verify v.2 (voteDigest h) v.1 = true
  weight : agg.weight ≤ (agg.votes.map fun v => committee.stake v.1).sum

variable {committee : Committee PublicKey} {h : Header PublicKey Digest Signature}
  {agg agg' : VotesAggregator PublicKey Signature} {v : Vote PublicKey Digest Signature}
  {o : Option (Certificate PublicKey Digest Signature)}

theorem Collected.new :
    Collected committee h (VotesAggregator.new : VotesAggregator PublicKey Signature) where
  used := by simp [VotesAggregator.new]
  distinct := List.nodup_nil
  valid := by simp [VotesAggregator.new]
  weight := le_rfl

theorem Collected.append (hc : Collected committee h agg) (hv : VoteFor committee h v)
    (happend : agg.append v committee h = .ok (agg', o)) :
    Collected committee h agg' ∧ ∀ c, o = some c → c = ⟨h, agg'.votes⟩ ∧
      committee.quorumThreshold ≤ u32 (agg.weight + committee.stake v.author) ∧
      committee.quorumThreshold ≤ (agg'.votes.map fun v => committee.stake v.1).sum := by
  obtain ⟨hnew, hused, hvotes, hcases⟩ := VotesAggregator.append_cases happend
  have hmem : ∀ x ∈ agg'.votes, x ∈ agg.votes ∨ x = (v.author, v.signature) := by
    intro x hx
    rw [hvotes] at hx
    exact (List.mem_append.mp hx).imp_right List.mem_singleton.mp
  have hsum : u32 (agg.weight + committee.stake v.author) ≤
      (agg'.votes.map fun v => committee.stake v.1).sum := by
    have hle : u32 (agg.weight + committee.stake v.author) ≤
        agg.weight + committee.stake v.author := Nat.mod_le _ _
    have hw := hc.weight
    rw [hvotes, List.map_append, List.sum_append, List.map_singleton, List.sum_singleton]
    show _ ≤ _ + committee.stake v.author
    omega
  have hweight : agg'.weight ≤ (agg'.votes.map fun v => committee.stake v.1).sum := by
    rcases hcases with ⟨-, hzero, -⟩ | ⟨heq, -⟩
    · rw [hzero]
      exact Nat.zero_le _
    · rw [heq]
      exact hsum
  refine ⟨⟨fun x hx => ?_, ?_, fun x hx => ?_, hweight⟩, fun c hc' => ?_⟩
  · rw [hused]
    rcases hmem x hx with hx | rfl
    · exact List.mem_cons_of_mem _ (hc.used x hx)
    · exact List.mem_cons_self
  · rw [hvotes, List.map_append, List.nodup_append]
    refine ⟨hc.distinct, List.nodup_singleton _, fun a ha b hb hab => hnew ?_⟩
    obtain ⟨x, hx, rfl⟩ := List.mem_map.mp ha
    obtain rfl : b = v.author := List.mem_singleton.mp hb
    exact hab ▸ hc.used x hx
  · rcases hmem x hx with hx | rfl
    · exact hc.valid x hx
    · exact ⟨hv.stake, hv.signed⟩
  · rcases hcases with ⟨hquorum, -, ho⟩ | ⟨-, ho⟩
    · rw [ho] at hc'
      exact ⟨(Option.some.inj hc').symm, hquorum, hquorum.trans hsum⟩
    · rw [ho] at hc'
      cases hc'

/-- The stake of different voters, as the stake of a set of authorities. -/
theorem Collected.sum_eq (hc : Collected committee h agg) :
    (agg.votes.map fun v => committee.stake v.1).sum =
      committee.stakeOf (agg.votes.map Prod.fst).toFinset := by
  unfold Committee.stakeOf
  rw [List.sum_toFinset _ hc.distinct, List.map_map]
  rfl

variable [Inhabited PublicKey] [Inhabited Digest] [Inhabited Signature]

/-- The certificate of a quorum of collected votes passes `verify`. -/
theorem Collected.verify (hc : Collected committee h agg) (htotal : committee.total < 2 ^ 32)
    (hbatch : ∀ (d : Digest) (votes : List (PublicKey × Signature)),
      (∀ v ∈ votes, Ed25519.verify v.2 d v.1 = true) → Ed25519.verifyBatch d votes = true)
    (hheader : h.verify committee = .ok ())
    (hquorum : committee.quorumThreshold ≤ (agg.votes.map fun v => committee.stake v.1).sum) :
    (⟨h, agg.votes⟩ : Certificate PublicKey Digest Signature).verify committee = .ok () := by
  have hlt : (agg.votes.map fun v => committee.stake v.1).sum < 2 ^ 32 := by
    rw [hc.sum_eq]
    exact (committee.stakeOf_le_total _).trans_lt htotal
  cases hg : (Certificate.genesis committee).any
      (·.same (⟨h, agg.votes⟩ : Certificate PublicKey Digest Signature)) with
  | true =>
      unfold Certificate.verify
      rw [if_pos hg]
  | false =>
      refine (Certificate.verify_eq_ok hg).mpr ⟨hheader, _, Certificate.checkVotes_eq_ok.mpr
        ⟨hc.distinct, fun v hv => ⟨List.not_mem_nil, (hc.valid v hv).1⟩, rfl⟩, ?_, ?_⟩
      · rw [foldl_u32 _ (Nat.two_pow_pos 32), Nat.zero_add, u32_eq hlt]
        exact hquorum
      · exact hbatch _ _ fun v hv => (hc.valid v hv).2

end Collected

variable [AsBytes PublicKey] [AsBytes Digest] [Sha512 Digest]
  [Inhabited PublicKey] [Inhabited Digest] [Inhabited Signature]
  [Ed25519 PublicKey Digest Signature]

/-! ## Certificates that are kept -/

/-- The headers in play: their hashes do not collide, and those of the genesis certificates
    are among them. -/
structure Separated (p : Params PublicKey) (known : Header PublicKey Digest Signature → Prop) :
    Prop where
  genesis : ∀ c ∈ Certificate.genesis p.committee, known c.header
  certificates : ∀ h h', known h → known h' → voteDigest h = voteDigest h' →
    h.round = h'.round ∧ h.author = h'.author
  headers : ∀ h h', known h → known h' → h.id ≠ voteDigest h'

/-- A certificate with this digest is stored, or is a genesis certificate. -/
def Kept (p : Params PublicKey) (known : Header PublicKey Digest Signature → Prop)
    (store : Store PublicKey Digest Signature) (d : Digest) : Prop :=
  ∃ c : Certificate PublicKey Digest Signature, known c.header ∧ Holds p store c d

def Available (p : Params PublicKey) (known : Header PublicKey Digest Signature → Prop)
    (store : Store PublicKey Digest Signature) (c : Certificate PublicKey Digest Signature) : Prop :=
  known c.header ∧ Kept p known store c.digest

/-- Parents for the next round: a quorum of the round has certificates that are kept. -/
def Quorate (p : Params PublicKey) (known : Header PublicKey Digest Signature → Prop)
    (store : Store PublicKey Digest Signature) (parents : List Digest) (round : ℕ) : Prop :=
  ∃ counted, Counted (Available p known store) round counted ∧
    parents = counted.map Certificate.digest ∧
    p.committee.quorumThreshold ≤ stakeSum p.committee counted

/-- A store that loses no certificate. -/
def Extends (p : Params PublicKey) (known : Header PublicKey Digest Signature → Prop)
    (store store' : Store PublicKey Digest Signature) : Prop :=
  ∀ d, Kept p known store d → Kept p known store' d

variable {p : Params PublicKey} {known : Header PublicKey Digest Signature → Prop}
  {store store' : Store PublicKey Digest Signature} {h : Header PublicKey Digest Signature}
  {c : Certificate PublicKey Digest Signature}

omit [Ed25519 PublicKey Digest Signature] in
theorem Extends.available (he : Extends p known store store') (ha : Available p known store c) :
    Available p known store' c :=
  ⟨ha.1, he _ ha.2⟩

omit [Ed25519 PublicKey Digest Signature] in
theorem Extends.counted (he : Extends p known store store') {round : ℕ}
    {counted : List (Certificate PublicKey Digest Signature)}
    (hc : Counted (Available p known store) round counted) :
    Counted (Available p known store') round counted where
  known c hmem := ⟨he.available (hc.known c hmem).1, (hc.known c hmem).2⟩
  distinct := hc.distinct

omit [Ed25519 PublicKey Digest Signature] in
theorem Extends.quorate (he : Extends p known store store') {parents : List Digest} {round : ℕ}
    (hq : Quorate p known store parents round) : Quorate p known store' parents round := by
  obtain ⟨counted, hcounted, hparents, hquorum⟩ := hq
  exact ⟨counted, he.counted hcounted, hparents, hquorum⟩

omit [Ed25519 PublicKey Digest Signature] in
theorem Extends.aggregator (he : Extends p known store store') {round : ℕ}
    {agg : CertificatesAggregator PublicKey Digest}
    (ha : ∃ counted, AggregatorInv p.committee (Available p known store) round agg counted) :
    ∃ counted, AggregatorInv p.committee (Available p known store') round agg counted := by
  obtain ⟨counted, ha⟩ := ha
  exact ⟨counted, { ha with fresh := he.counted ha.fresh }⟩

omit [Ed25519 PublicKey Digest Signature] in
/-- What is written under other keys than the digests of certificates. -/
theorem extends_write {k : StoreKey Digest} {v : StoreValue PublicKey Digest Signature}
    (hk : ∀ h, known h → k ≠ .digest (voteDigest h)) :
    Extends p known store (Function.update store k (some v)) := by
  rintro d ⟨c, hknown, rfl, hheld⟩
  have hne : StoreKey.digest c.digest ≠ k := fun he => hk c.header hknown he.symm
  refine ⟨c, hknown, rfl, hheld.imp_right fun hs => ?_⟩
  rw [Function.update_of_ne hne]
  exact hs

omit [Ed25519 PublicKey Digest Signature] in
theorem extends_writeCertificate (hc : known c.header) :
    Extends p known store (Function.update store (.digest c.digest) (some (.certificate c))) := by
  rintro d ⟨c', hknown, hdigest, hheld⟩
  by_cases hd : d = c.digest
  · exact ⟨c, hc, hd.symm, Or.inr (by rw [hd, Function.update_self])⟩
  · refine ⟨c', hknown, hdigest, hheld.imp_right fun hs => ?_⟩
    rw [Function.update_of_ne fun he => hd (StoreKey.digest.inj he)]
    exact hs

/-! ## The invariant -/

/-- A header that may be processed: a header of this primary is one that its proposer made,
    and others are by members of the committee. -/
structure Usable (p : Params PublicKey) (known own : Header PublicKey Digest Signature → Prop)
    (h : Header PublicKey Digest Signature) : Prop where
  known : known h
  author : h.round = 0 ∨ h.author ∈ p.committee.keys
  own : Acceptable p own h

/-- What is sent to other tasks. -/
def OutputOk (p : Params PublicKey) (known own : Header PublicKey Digest Signature → Prop)
    (store : Store PublicKey Digest Signature) : Output PublicKey Digest Signature → Prop
  | .syncBatches _ h => Usable p known own h
  | .syncParents _ h => Usable p known own h
  | .syncCertificate c => Usable p known own c.header
  | .broadcastHeader h => own h
  | .broadcastCertificate c => c.verify p.committee = .ok ()
  | .newParents parents round => Quorate p known store parents round
  | _ => True

/-- The current header is ours, and is certified by anybody; or it is that of the start,
    which only the byzantine authorities vote for. -/
structure CurrentOk (p : Params PublicKey) (known : Header PublicKey Digest Signature → Prop)
    (byzantine : Finset PublicKey) (own : Header PublicKey Digest Signature → Prop)
    (s : State PublicKey Digest Signature) : Prop where
  collected : Collected p.committee s.currentHeader s.votesAggregator
  idle : s.currentHeader.round = 0 → ∀ v ∈ s.votesAggregator.votes, v.1 ∈ byzantine
  proposed : s.currentHeader.round ≠ 0 → own s.currentHeader ∧
    Usable p known own s.currentHeader ∧ s.currentHeader.verify p.committee = .ok ()

/-- The invariant, for the headers `own` that the proposer has made, all of which have been
    voted for but `pending`, and the rounds `g` and `r` as in `VoteInv`. Our vote for the
    current header is counted (`used`). -/
structure AssemblyInv (p : Params PublicKey) (known : Header PublicKey Digest Signature → Prop)
    (byzantine : Finset PublicKey) (own : Header PublicKey Digest Signature → Prop)
    (pending : Option (Header PublicKey Digest Signature)) (g r : ℕ)
    (s : State PublicKey Digest Signature) : Prop where
  alive : s.alive = true
  gcRound : s.gcRound = g
  consensusRound : s.consensusRound = r
  gcRound_le : g ≤ r - p.gcDepth
  current : CurrentOk p known byzantine own s
  voted : ∀ h, own h → pending ≠ some h → g ≤ h.round → p.name ∈ s.lastVoted h.round
  marked : ∀ h, own h → pending ≠ some h → g ≤ h.round → h.id ∈ s.processing h.round
  voted_le : ∀ k, p.name ∈ s.lastVoted k → k ≤ s.currentHeader.round
  rounds : ∀ h, own h → h.round ≤ s.currentHeader.round
  used : pending = none → s.currentHeader.round ≠ 0 → p.name ∈ s.votesAggregator.used
  aggregators : ∀ k, ∃ counted, AggregatorInv p.committee (Available p known s.store) k
    (s.certificatesAggregators k) counted
  outputs : ∀ o ∈ s.outputs, OutputOk p known own s.store o

variable {byzantine : Finset PublicKey} {own : Header PublicKey Digest Signature → Prop}
  {pending : Option (Header PublicKey Digest Signature)} {g r : ℕ}
  {s : State PublicKey Digest Signature}

theorem OutputOk.extends (he : Extends p known store store')
    {o : Output PublicKey Digest Signature} (ho : OutputOk p known own store o) :
    OutputOk p known own store' o := by
  cases o with
  | newParents parents round => exact he.quorate ho
  | _ => exact ho

theorem AssemblyInv.send (hi : AssemblyInv p known byzantine own pending g r s)
    {o : Output PublicKey Digest Signature} (ho : OutputOk p known own s.store o) :
    AssemblyInv p known byzantine own pending g r { s with outputs := s.outputs ++ [o] } :=
  { hi with
    current := ⟨hi.current.collected, hi.current.idle, hi.current.proposed⟩
    outputs := fun o' ho' => by
      rcases List.mem_append.mp ho' with ho' | ho'
      · exact hi.outputs o' ho'
      · rwa [List.mem_singleton.mp ho'] }

theorem AssemblyInv.mark (hi : AssemblyInv p known byzantine own pending g r s)
    (h : Header PublicKey Digest Signature) :
    AssemblyInv p known byzantine own pending g r { s with
      processing := Function.update s.processing h.round (h.id :: s.processing h.round) } :=
  { hi with
    current := ⟨hi.current.collected, hi.current.idle, hi.current.proposed⟩
    marked := fun h' ho hp hg => by
      have hmem := hi.marked h' ho hp hg
      by_cases hr : h'.round = h.round
      · simp only [hr, Function.update_self] at hmem ⊢
        exact List.mem_cons_of_mem _ hmem
      · simpa only [Function.update_of_ne hr] using hmem }

theorem AssemblyInv.write (hi : AssemblyInv p known byzantine own pending g r s)
    {k : StoreKey Digest} {v : StoreValue PublicKey Digest Signature}
    (he : Extends p known s.store (Function.update s.store k (some v))) :
    AssemblyInv p known byzantine own pending g r (s.write k v) :=
  { hi with
    current := ⟨hi.current.collected, hi.current.idle, hi.current.proposed⟩
    aggregators := fun k => he.aggregator (hi.aggregators k)
    outputs := fun o ho => (hi.outputs o ho).extends he }

/-- Voting for a header, which is not a later one of our own. -/
theorem AssemblyInv.vote (hi : AssemblyInv p known byzantine own pending g r s)
    (hle : h.author = p.name → h.round ≤ s.currentHeader.round) :
    AssemblyInv p known byzantine own pending g r { s with
      lastVoted := Function.update s.lastVoted h.round (h.author :: s.lastVoted h.round)
      outputs := s.outputs ++ [.createdVote (Vote.new h p.name)] } := by
  have hmem : ∀ k, p.name ∈ Function.update s.lastVoted h.round
      (h.author :: s.lastVoted h.round) k ↔
        p.name ∈ s.lastVoted k ∨ k = h.round ∧ h.author = p.name := by
    intro k
    by_cases hk : k = h.round
    · simp only [hk, Function.update_self, List.mem_cons, true_and, eq_comm, or_comm]
    · simp only [Function.update_of_ne hk, hk, false_and, or_false]
  have hsent := hi.send (o := .createdVote (Vote.new h p.name)) trivial
  refine { hsent with
    current := ⟨hi.current.collected, hi.current.idle, hi.current.proposed⟩
    voted := fun h' ho hp hg => (hmem _).mpr (Or.inl (hi.voted h' ho hp hg))
    voted_le := fun k hk => ?_ }
  rcases (hmem k).mp hk with hk | ⟨rfl, hname⟩
  · exact hi.voted_le k hk
  · exact hle hname

/-- Appending a certificate that is kept to the aggregator of its round. -/
theorem AssemblyInv.appendCertificate (hi : AssemblyInv p known byzantine own pending g r s)
    (hc : Available p known s.store c) :
    AssemblyInv p known byzantine own pending g r { s with
      certificatesAggregators := Function.update s.certificatesAggregators c.round
        ((s.certificatesAggregators c.round).append c p.committee).1 } ∧
      ∀ parents, ((s.certificatesAggregators c.round).append c p.committee).2 = some parents →
        Quorate p known s.store parents c.round := by
  obtain ⟨counted, hagg⟩ := hi.aggregators c.round
  obtain ⟨hnext, hparents⟩ := hagg.append ⟨hc, rfl⟩
  refine ⟨{ hi with
    current := ⟨hi.current.collected, hi.current.idle, hi.current.proposed⟩
    aggregators := fun k => ?_ }, hparents⟩
  by_cases hk : k = c.round
  · subst hk
    simpa only [Function.update_self] using hnext
  · simpa only [Function.update_of_ne hk] using hi.aggregators k

/-- A header of our own that is recent has been voted for. -/
theorem AssemblyInv.voted_of_usable (hi : AssemblyInv p known byzantine own none g r s)
    (hu : Usable p known own h) (hg : h.author = p.name → h.round = 0 ∨ g ≤ h.round)
    (hname : h.author = p.name) (h0 : h.round ≠ 0) : p.name ∈ s.lastVoted h.round := by
  obtain ⟨h', hown, -, hround⟩ := (hu.own hname).resolve_left h0
  have hrecent := (hg hname).resolve_left h0
  rw [← hround] at hrecent ⊢
  exact hi.voted h' hown (by simp) hrecent

theorem AssemblyInv.round_le_of_usable (hi : AssemblyInv p known byzantine own pending g r s)
    (hu : Usable p known own h) (h0 : h.round ≠ 0) (hname : h.author = p.name) :
    h.round ≤ s.currentHeader.round := by
  obtain ⟨h', hown, -, hround⟩ := (hu.own hname).resolve_left h0
  rw [← hround]
  exact hi.rounds h' hown

/-- Where there is a header of our own, our vote for the current header is counted. -/
theorem AssemblyInv.used_of_usable (hi : AssemblyInv p known byzantine own none g r s)
    (hu : Usable p known own h) (h0 : h.round ≠ 0) (hname : h.author = p.name) :
    p.name ∈ s.votesAggregator.used := by
  have hle := hi.round_le_of_usable hu h0 hname
  exact hi.used rfl (by omega)

/-- Our own header is dealt with when it is marked and our vote for it is counted. -/
theorem AssemblyInv.settle (hi : AssemblyInv p known byzantine own pending g r s)
    (hpending : ∀ h, pending = some h → p.name ∈ s.lastVoted h.round ∧
      h.id ∈ s.processing h.round ∧ p.name ∈ s.votesAggregator.used) :
    AssemblyInv p known byzantine own none g r s :=
  { hi with
    voted := fun h hown _ hg => by
      by_cases hp : pending = some h
      · exact (hpending h hp).1
      · exact hi.voted h hown hp hg
    marked := fun h hown _ hg => by
      by_cases hp : pending = some h
      · exact (hpending h hp).2.1
      · exact hi.marked h hown hp hg
    used := fun _ h0 => by
      cases hp : pending with
      | none => exact hi.used hp h0
      | some h => exact (hpending h hp).2.2 }

/-! ## Votes for the current header -/

/-- What is assumed of the committee, of the hash and of the signatures: the stake is a
    `u32`, the byzantine authorities have no quorum, what we sign verifies, and a batch
    verifies if each of its signatures does. -/
structure Environment (p : Params PublicKey) (known : Header PublicKey Digest Signature → Prop)
    (byzantine : Finset PublicKey) : Prop where
  separated : Separated p known
  stake : 0 < p.committee.stake p.name
  total : p.committee.total < 2 ^ 32
  minority : p.committee.stakeOf byzantine < p.committee.quorumThreshold
  sign : ∀ d : Digest, Ed25519.verify (Ed25519.sign d p.name : Signature) d p.name = true
  batch : ∀ (d : Digest) (votes : List (PublicKey × Signature)),
    (∀ v ∈ votes, Ed25519.verify v.2 d v.1 = true) → Ed25519.verifyBatch d votes = true

/-- A vote that may be counted. In the case `onTime` the header is being processed if the vote
    completes the quorum; `fresh` says that its author has not voted yet. A header of our own
    that is pending is dealt with by our vote. -/
structure Countable (p : Params PublicKey) (byzantine : Finset PublicKey)
    (pending : Option (Header PublicKey Digest Signature)) (onTime fresh : Prop)
    (v : Vote PublicKey Digest Signature) (s : State PublicKey Digest Signature) : Prop where
  vote : VoteFor p.committee s.currentHeader v
  idle : s.currentHeader.round = 0 → v.author ∈ byzantine
  marked : onTime → v.author ∉ s.votesAggregator.used → p.committee.quorumThreshold ≤
      u32 (s.votesAggregator.weight + p.committee.stake v.author) → s.currentHeader.round ≠ 0 →
    s.currentHeader.id ∈ s.processing s.currentHeader.round
  fresh : fresh → v.author ∉ s.votesAggregator.used
  pending : ∀ h, pending = some h → v.author = p.name ∧ p.name ∈ s.lastVoted h.round ∧
    h.id ∈ s.processing h.round

theorem AssemblyInv.appendVote (henv : Environment p known byzantine)
    (hi : AssemblyInv p known byzantine own pending g r s) {onTime fresh : Prop}
    {v : Vote PublicKey Digest Signature} (hv : Countable p byzantine pending onTime fresh v s)
    {agg : VotesAggregator PublicKey Signature}
    {o : Option (Certificate PublicKey Digest Signature)}
    (happend : s.votesAggregator.append v p.committee s.currentHeader = .ok (agg, o)) :
    AssemblyInv p known byzantine own none g r { s with votesAggregator := agg } ∧
      ∀ c, o = some c → c.verify p.committee = .ok () ∧ Usable p known own c.header ∧
        (onTime → c.header.id ∈ s.processing c.header.round) := by
  obtain ⟨hcollected, hcertificate⟩ := hi.current.collected.append hv.vote happend
  obtain ⟨hnew, hused, hvotes, -⟩ := VotesAggregator.append_cases happend
  have hidle : s.currentHeader.round = 0 → ∀ x ∈ agg.votes, x.1 ∈ byzantine := by
    intro h0 x hx
    rw [hvotes] at hx
    rcases List.mem_append.mp hx with hx | hx
    · exact hi.current.idle h0 x hx
    · rw [List.mem_singleton.mp hx]
      exact hv.idle h0
  have hcounted : AssemblyInv p known byzantine own pending g r
      { s with votesAggregator := agg } :=
    { hi with
      current := ⟨hcollected, hidle, hi.current.proposed⟩
      used := fun hp h0 => by
        rw [hused]
        exact List.mem_cons_of_mem _ (hi.used hp h0) }
  refine ⟨hcounted.settle fun h hp => ?_, fun c hc => ?_⟩
  · obtain ⟨hname, hvoted, hmarked⟩ := hv.pending h hp
    refine ⟨hvoted, hmarked, ?_⟩
    show p.name ∈ agg.used
    rw [hused, hname]
    exact List.mem_cons_self
  obtain ⟨rfl, hcomplete, hquorum⟩ := hcertificate c hc
  have h0 : s.currentHeader.round ≠ 0 := by
    intro h0
    -- the byzantine authorities alone have no quorum
    rw [hcollected.sum_eq] at hquorum
    have hsub : (agg.votes.map Prod.fst).toFinset ⊆ byzantine := by
      intro name hname
      obtain ⟨x, hx, rfl⟩ := List.mem_map.mp (List.mem_toFinset.mp hname)
      exact hidle h0 x hx
    exact absurd (hquorum.trans (Committee.stakeOf_mono hsub)) (not_le.mpr henv.minority)
  obtain ⟨-, husable, hheader⟩ := hi.current.proposed h0
  exact ⟨hcollected.verify henv.total henv.batch hheader hquorum, husable,
    fun hontime => hv.marked hontime hnew hcomplete h0⟩

/-- A vote that is refused is of an authority whose vote is counted. -/
theorem AssemblyInv.refuseVote (hi : AssemblyInv p known byzantine own pending g r s)
    {onTime fresh : Prop} {v : Vote PublicKey Digest Signature}
    (hv : Countable p byzantine pending onTime fresh v s)
    (hused : v.author ∈ s.votesAggregator.used) :
    AssemblyInv p known byzantine own none g r s ∧ ¬ fresh := by
  refine ⟨hi.settle fun h hp => ?_, fun hfresh => hv.fresh hfresh hused⟩
  obtain ⟨hname, hvoted, hmarked⟩ := hv.pending h hp
  exact ⟨hvoted, hmarked, hname ▸ hused⟩

/-! ## What each function keeps -/

section Triples

variable (p known byzantine own pending g r)

/-- `m` keeps the invariant, and does not panic in the case `onTime`. -/
def KeepsAssembly (onTime : Prop) {α : Type} (m : M PublicKey Digest Signature α) : Prop :=
  ⦃fun s => ⌜AssemblyInv p known byzantine own pending g r s⌝⦄ m
  ⦃post⟨fun _ s => ⌜AssemblyInv p known byzantine own pending g r s⌝,
    fun e s => ⌜(onTime → e ≠ .panic) ∧ AssemblyInv p known byzantine own pending g r s⌝⟩⦄

/-- `m` keeps the invariant, and returns no error. -/
def SureAssembly {α : Type} (m : M PublicKey Digest Signature α) : Prop :=
  ⦃fun s => ⌜AssemblyInv p known byzantine own pending g r s⌝⦄ m
  ⦃post⟨fun _ s => ⌜AssemblyInv p known byzantine own pending g r s⌝, fun _ _ => ⌜False⌝⟩⦄

theorem sureAssembly_send {o : Output PublicKey Digest Signature}
    (ho : ∀ store, OutputOk p known own store o) :
    SureAssembly p known byzantine own pending g r (send o) := by
  unfold SureAssembly
  mvcgen [send]
  rename_i s hi _
  exact hi.send (ho s.store)

theorem sureAssembly_markProcessing (h : Header PublicKey Digest Signature) :
    SureAssembly p known byzantine own pending g r (markProcessing h) := by
  unfold SureAssembly
  mvcgen [markProcessing]
  rename_i s hi _
  exact hi.mark h

theorem keepsAssembly_getParents (onTime : Prop) (hu : Usable p known own h) :
    KeepsAssembly p known byzantine own pending g r onTime (getParents p h) := by
  have hsend : ∀ missing,
      SureAssembly p known byzantine own pending g r (send (.syncParents missing h)) :=
    fun _ => sureAssembly_send p known byzantine own pending g r fun _ => hu
  unfold KeepsAssembly
  unfold SureAssembly at hsend
  mvcgen [getParents, orReturn, hsend]
  exact ⟨by simp, ‹_›⟩

theorem sureAssembly_missingPayload (hu : Usable p known own h) :
    SureAssembly p known byzantine own pending g r (missingPayload p h) := by
  have hsend : ∀ missing,
      SureAssembly p known byzantine own pending g r (send (.syncBatches missing h)) :=
    fun _ => sureAssembly_send p known byzantine own pending g r fun _ => hu
  unfold SureAssembly at hsend ⊢
  mvcgen [missingPayload, hsend]

theorem sureAssembly_deliverCertificate (hu : Usable p known own c.header) :
    SureAssembly p known byzantine own pending g r (deliverCertificate p c) := by
  have hsend : SureAssembly p known byzantine own pending g r (send (.syncCertificate c)) :=
    sureAssembly_send p known byzantine own pending g r fun _ => hu
  unfold SureAssembly at hsend ⊢
  mvcgen [deliverCertificate, hsend]

theorem sureAssembly_writeHeader (hsep : Separated p known) (hk : known h) :
    SureAssembly p known byzantine own pending g r (writeStore (.digest h.id) (.header h)) := by
  unfold SureAssembly
  mvcgen [writeStore]
  rename_i s hi _
  refine hi.write (extends_write fun h' hk' he => ?_)
  exact hsep.headers h h' hk hk' (StoreKey.digest.inj he)

theorem sureAssembly_writePayload (d : Digest) (worker : ℕ) (counts : OrdMap ℕ ℕ) :
    SureAssembly p known byzantine own pending g r
      (writeStore (.payload d worker) (.accountCounts counts)) := by
  unfold SureAssembly
  mvcgen [writeStore]
  rename_i s hi _
  exact hi.write (extends_write fun _ _ he => by cases he)

/-- Storing a certificate, and appending it to the aggregator of its round. -/
theorem writeCertificate_assembly (hk : known c.header) :
    ⦃fun s => ⌜AssemblyInv p known byzantine own pending g r s⌝⦄
    writeStore (.digest c.digest) (.certificate c)
    ⦃post⟨fun _ s => ⌜AssemblyInv p known byzantine own pending g r s ∧
        Available p known s.store c⌝, fun _ _ => ⌜False⌝⟩⦄ := by
  mvcgen [writeStore]
  rename_i s hi _
  refine ⟨hi.write (extends_writeCertificate hk), hk, c, hk, rfl, Or.inr ?_⟩
  exact Function.update_self ..

theorem appendCertificate_assembly (c : Certificate PublicKey Digest Signature) :
    ⦃fun s => ⌜AssemblyInv p known byzantine own pending g r s ∧ Available p known s.store c⌝⦄
    appendCertificate p c
    ⦃post⟨fun o s => ⌜AssemblyInv p known byzantine own pending g r s ∧
        ∀ parents, o = some parents → Quorate p known s.store parents c.round⌝,
      fun _ _ => ⌜False⌝⟩⦄ := by
  mvcgen [appendCertificate]
  rename_i s hi _
  exact hi.1.appendCertificate hi.2

theorem newParents_assembly (parents : List Digest) (round : ℕ) :
    ⦃fun s => ⌜AssemblyInv p known byzantine own pending g r s ∧
        Quorate p known s.store parents round⌝⦄
    (send (.newParents parents round) : M PublicKey Digest Signature Unit)
    ⦃post⟨fun _ s => ⌜AssemblyInv p known byzantine own pending g r s⌝,
      fun _ _ => ⌜False⌝⟩⦄ := by
  mvcgen [send]
  rename_i s hi _
  exact hi.1.send hi.2

/-- A vote that is refused changes nothing. -/
theorem refusedVote_assembly
    (f : Header PublicKey Digest Signature → M PublicKey Digest Signature Unit)
    (v : Vote PublicKey Digest Signature) :
    ⦃fun s => ⌜AssemblyInv p known byzantine own pending g r s ∧
        v.author ∈ s.votesAggregator.used⌝⦄ processVoteWith p f v
    ⦃post⟨fun _ _ => ⌜False⌝,
      fun _ s => ⌜AssemblyInv p known byzantine own pending g r s⌝⟩⦄ := by
  have happend : ⦃fun s => ⌜AssemblyInv p known byzantine own pending g r s ∧
        v.author ∈ s.votesAggregator.used⌝⦄ appendVote p v
      ⦃post⟨fun _ _ => ⌜False⌝,
        fun _ s => ⌜AssemblyInv p known byzantine own pending g r s⌝⟩⦄ := by
    mvcgen [appendVote, orReturn]
    · rename_i s hi agg hok
      exact (VotesAggregator.append_cases hok).1 hi.2
    · exact (‹_ ∧ _› : _ ∧ _).1
  have hcert : ∀ c, ⦃fun _ => ⌜False⌝⦄ processCertificateWith p f c
      ⦃post⟨fun _ _ => ⌜False⌝, fun _ _ => ⌜False⌝⟩⦄ :=
    fun c => triple_const (processCertificateWith p f c)
  mvcgen [processVoteWith, expect, happend, hcert, send]

/-- A vote that is created for an old header of our own will be refused. -/
theorem createVote_assembly (onTime : Prop) (hu : Usable p known own h)
    (hg : onTime → h.author = p.name → h.round = 0 ∨ g ≤ h.round) :
    ⦃fun s => ⌜AssemblyInv p known byzantine own none g r s ∧ h.round ≠ 0⌝⦄ createVote p h
    ⦃post⟨fun o s => ⌜AssemblyInv p known byzantine own none g r s ∧
        ∀ v, o = some v → h.author ∈ p.committee.keys ∧ (v.origin = p.name →
          ¬ onTime ∧ v.author ∈ s.votesAggregator.used)⌝,
      fun _ _ => ⌜False⌝⟩⦄ := by
  mvcgen [createVote, send]
  · exact ⟨(‹_ ∧ _› : _ ∧ _).1, by simp⟩
  · rename_i hi hnew _ _
    refine ⟨hi.1.vote (hi.1.round_le_of_usable hu hi.2), fun v hv => ?_⟩
    obtain rfl := Option.some.inj hv
    refine ⟨hu.author.resolve_left hi.2, fun hname => ⟨fun hontime => ?_, ?_⟩⟩
    · have hname : h.author = p.name := hname
      exact hnew (hname ▸ hi.1.voted_of_usable hu (hg hontime) hname hi.2)
    · exact hi.1.used_of_usable hu hi.2 hname

theorem keepsAssembly_processHeader (onTime : Prop) (hsep : Separated p known)
    (hu : Usable p known own h) (hg : onTime → h.author = p.name → h.round = 0 ∨ g ≤ h.round)
    (n : ℕ) : KeepsAssembly p known byzantine own none g r onTime (processHeader p n h) := by
  cases n with
  | zero =>
      unfold KeepsAssembly
      mvcgen [processHeader]
      exact ⟨by simp, ‹_›⟩
  | succ n =>
      have hmark := sureAssembly_markProcessing p known byzantine own none g r h
      have hparents := keepsAssembly_getParents p known byzantine own none g r onTime hu
      have hpayload := sureAssembly_missingPayload p known byzantine own none g r hu
      have hwrite := sureAssembly_writeHeader p known byzantine own none g r hsep hu.known
      have hcreate := createVote_assembly p known byzantine own g r onTime hu hg
      have hvote := refusedVote_assembly p known byzantine own none g r (processHeader p n)
      have hsend : ∀ v, SureAssembly p known byzantine own none g r (send (.sendVote v)) :=
        fun _ => sureAssembly_send p known byzantine own none g r fun _ => trivial
      unfold KeepsAssembly at hparents ⊢
      unfold SureAssembly at hmark hpayload hwrite hsend
      mvcgen [processHeader, orReturn, expect, hmark, hparents, hpayload, hwrite, hcreate, hvote,
        hsend]
      case vc7 | vc18 => exact ⟨‹_›, round_ne_zero_of_checkParents ‹_› ‹_›⟩
      case vc8 | vc19 => exact (‹_ ∧ _› : _ ∧ _).1
      case vc9 | vc20 =>
        rename_i horigin _ hvoted
        exact ⟨hvoted.1, ((hvoted.2 _ rfl).2 horigin).2⟩
      case vc11 | vc22 =>
        -- our own vote is refused
        rename_i horigin _ hvoted _ _ _ _ hi
        exact ⟨fun hontime => absurd hontime ((hvoted.2 _ rfl).2 horigin).1, hi⟩
      case vc12 | vc23 =>
        rename_i horigin _ hvoted _ _ _ _ _ hi
        exact ⟨fun hontime => absurd hontime ((hvoted.2 _ rfl).2 horigin).1, hi⟩
      case vc13 | vc24 => exact (‹_ ∧ _› : _ ∧ _).1
      case vc15 | vc26 =>
        -- the author is in the committee
        rename_i hauthor _ hvoted
        exact absurd (hvoted.2 _ rfl).1 hauthor
      all_goals first | exact id | exact False.elim | exact ⟨by simp, ‹_›⟩

section Certificates

variable (onTime : Prop)
  (f : Header PublicKey Digest Signature → M PublicKey Digest Signature Unit)

theorem keepsAssembly_processCertificateWith (hu : Usable p known own c.header)
    (hf : KeepsAssembly p known byzantine own none g r onTime (f c.header)) :
    KeepsAssembly p known byzantine own none g r onTime (processCertificateWith p f c) := by
  have hdeliver := sureAssembly_deliverCertificate p known byzantine own none g r hu
  have hwrite := writeCertificate_assembly p known byzantine own none g r hu.known
  have happend := appendCertificate_assembly p known byzantine own none g r c
  have hparents := newParents_assembly p known byzantine own none g r
  have hnew : SureAssembly p known byzantine own none g r (send (.newCertificate c)) :=
    sureAssembly_send p known byzantine own none g r fun _ => trivial
  unfold KeepsAssembly at hf ⊢
  unfold SureAssembly at hdeliver hnew
  mvcgen [processCertificateWith, hf, hdeliver, hwrite, happend, hparents, hnew]
  case vc6 | vc15 =>
    rename_i hi
    exact ⟨hi.1, hi.2 _ rfl⟩
  case vc9 | vc18 => exact (‹_ ∧ _› : _ ∧ _).1
  all_goals exact id

/-- A certificate whose header is being processed is processed without errors. -/
theorem processCertificateWith_marked (hu : Usable p known own c.header) :
    ⦃fun s => ⌜AssemblyInv p known byzantine own none g r s ∧
        c.header.id ∈ s.processing c.header.round⌝⦄ processCertificateWith p f c
    ⦃post⟨fun _ s => ⌜AssemblyInv p known byzantine own none g r s⌝, fun _ _ => ⌜False⌝⟩⦄ := by
  have hdeliver := sureAssembly_deliverCertificate p known byzantine own none g r hu
  have hwrite := writeCertificate_assembly p known byzantine own none g r hu.known
  have happend := appendCertificate_assembly p known byzantine own none g r c
  have hparents := newParents_assembly p known byzantine own none g r
  have hnew : SureAssembly p known byzantine own none g r (send (.newCertificate c)) :=
    sureAssembly_send p known byzantine own none g r fun _ => trivial
  have hf : ⦃fun _ => ⌜False⌝⦄ f c.header ⦃post⟨fun _ _ => ⌜False⌝, fun _ _ => ⌜False⌝⟩⦄ :=
    triple_const (f c.header)
  unfold SureAssembly at hdeliver hnew
  mvcgen [processCertificateWith, hf, hdeliver, hwrite, happend, hparents, hnew]
  case vc1 =>
    rename_i hi _ hnot
    exact hnot hi.2
  case vc13 =>
    rename_i hi
    exact ⟨hi.1, hi.2 _ rfl⟩
  all_goals exact (‹_ ∧ _› : _ ∧ _).1

/-- The certificate that a vote completes. -/
theorem processCertificateWith_completed
    (hf : ¬ onTime → ∀ h, Usable p known own h →
      KeepsAssembly p known byzantine own none g r False (f h))
    (c : Certificate PublicKey Digest Signature) :
    ⦃fun s => ⌜(AssemblyInv p known byzantine own none g r s ∧
        (onTime → c.header.id ∈ s.processing c.header.round)) ∧ Usable p known own c.header⌝⦄
    processCertificateWith p f c
    ⦃post⟨fun _ s => ⌜AssemblyInv p known byzantine own none g r s⌝,
      fun _ s => ⌜¬ onTime ∧ AssemblyInv p known byzantine own none g r s⌝⟩⦄ := by
  refine triple_of_imp fun hu => ?_
  by_cases hontime : onTime
  · have hmarked := processCertificateWith_marked p known byzantine own g r f hu
    mvcgen [hmarked]
    · rename_i hi
      exact ⟨hi.1, hi.2 hontime⟩
    · exact id
  · have hkeeps := keepsAssembly_processCertificateWith p known byzantine own g r False f hu
      (hf hontime _ hu)
    unfold KeepsAssembly at hkeeps
    mvcgen [hkeeps]
    · exact (‹_ ∧ _› : _ ∧ _).1
    · exact id
    · exact fun _ hi => ⟨hontime, hi⟩

/-- A vote that may be counted keeps the invariant. In the case `onTime` it does not lead to a
    panic, and one that is the first of its author not to an error. -/
theorem processVoteWith_assembly (henv : Environment p known byzantine) (fresh : Prop)
    (hf : ¬ onTime → ∀ h, Usable p known own h →
      KeepsAssembly p known byzantine own none g r False (f h))
    (v : Vote PublicKey Digest Signature) :
    ⦃fun s => ⌜AssemblyInv p known byzantine own pending g r s ∧
        Countable p byzantine pending onTime fresh v s⌝⦄
    processVoteWith p f v
    ⦃post⟨fun _ s => ⌜AssemblyInv p known byzantine own none g r s⌝,
      fun e s => ⌜(onTime → e ≠ .panic ∧ ¬ fresh) ∧
        AssemblyInv p known byzantine own none g r s⌝⟩⦄ := by
  have happend : ⦃fun s => ⌜AssemblyInv p known byzantine own pending g r s ∧
        Countable p byzantine pending onTime fresh v s⌝⦄ appendVote p v
      ⦃post⟨fun o s => ⌜AssemblyInv p known byzantine own none g r s ∧ ∀ c, o = some c →
          c.verify p.committee = .ok () ∧ Usable p known own c.header ∧
            (onTime → c.header.id ∈ s.processing c.header.round)⌝,
        fun e s => ⌜(onTime → e ≠ .panic ∧ ¬ fresh) ∧
          AssemblyInv p known byzantine own none g r s⌝⟩⦄ := by
    mvcgen [appendVote, orReturn]
    · rename_i s hi agg hok
      exact hi.1.appendVote henv hi.2 hok
    · rename_i s hi e hfail
      obtain ⟨hi', hnot⟩ := hi.1.refuseVote hi.2 (VotesAggregator.mem_used_of_append hfail)
      exact ⟨fun _ => ⟨by simp, hnot⟩, hi'⟩
  have hsend : ∀ c : Certificate PublicKey Digest Signature,
      ⦃fun s => ⌜AssemblyInv p known byzantine own none g r s ∧
        c.verify p.committee = .ok () ∧ Usable p known own c.header ∧
          (onTime → c.header.id ∈ s.processing c.header.round)⌝⦄
      (send (.broadcastCertificate c) : M PublicKey Digest Signature Unit)
      ⦃post⟨fun _ s => ⌜(AssemblyInv p known byzantine own none g r s ∧
        (onTime → c.header.id ∈ s.processing c.header.round)) ∧ Usable p known own c.header⌝,
        fun _ _ => ⌜False⌝⟩⦄ := by
    intro c
    mvcgen [send]
    rename_i s hi _
    exact ⟨⟨hi.1.send hi.2.1, hi.2.2.2⟩, hi.2.2.1⟩
  have hcert := processCertificateWith_completed p known byzantine own g r onTime f hf
  mvcgen [processVoteWith, expect, happend, hsend, hcert]
  case vc2 =>
    rename_i hi
    exact ⟨hi.1, hi.2 _ rfl⟩
  case vc4 => exact id
  case vc5 | vc6 =>
    rename_i hi
    exact ⟨fun hontime => absurd hontime hi.1, hi.2⟩
  case vc7 => exact (‹_ ∧ _› : _ ∧ _).1

end Certificates

/-! ## Our own header -/

/-- Nothing is known yet of the votes for a new header of our own, and its parents are
    there. -/
structure Ready (p : Params PublicKey) (known : Header PublicKey Digest Signature → Prop)
    (h : Header PublicKey Digest Signature) (s : State PublicKey Digest Signature) : Prop where
  current : s.currentHeader = h
  aggregator : s.votesAggregator = VotesAggregator.new
  unvoted : p.name ∉ s.lastVoted h.round
  parents : HasParents p (fun c => known c.header) s.store h

/-- A header by this primary, on parents that a quorum of the round before has. -/
structure OwnHeader (p : Params PublicKey) (known : Header PublicKey Digest Signature → Prop)
    (h : Header PublicKey Digest Signature) : Prop where
  author : h.author = p.name
  positive : h.round ≠ 0
  quorum : ∃ counted round, Counted (fun c => known c.header) round counted ∧
    h.round = round + 1 ∧ h.parents = OrdSet.ofList (counted.map Certificate.digest) ∧
    p.committee.quorumThreshold ≤ stakeSum p.committee counted

/-- The state in which our own header is being processed. -/
def Processing (p : Params PublicKey) (known : Header PublicKey Digest Signature → Prop)
    (byzantine : Finset PublicKey) (own : Header PublicKey Digest Signature → Prop) (g r : ℕ)
    (h : Header PublicKey Digest Signature) (s : State PublicKey Digest Signature) : Prop :=
  AssemblyInv p known byzantine own (some h) g r s ∧ Ready p known h s ∧
    h.id ∈ s.processing h.round

/-- `process_header` finds the parents of our own header. -/
theorem getParents_own (hsep : Separated p known) (ho : OwnHeader p known h) :
    ⦃fun s => ⌜Processing p known byzantine own g r h s⌝⦄ getParents p h
    ⦃post⟨fun parents s => ⌜Processing p known byzantine own g r h s ∧ parents ≠ [] ∧
        ∃ stake, checkParents p h parents 0 = .ok stake ∧ p.committee.quorumThreshold ≤ stake⌝,
      fun _ _ => ⌜False⌝⟩⦄ := by
  have hchecks : ∀ s, Processing p known byzantine own g r h s →
      ∃ parents stake, readParents p s.store h.parents.toList = .ok (parents, []) ∧
        parents ≠ [] ∧ checkParents p h parents 0 = .ok stake ∧
        p.committee.quorumThreshold ≤ stake := by
    intro s hs
    obtain ⟨counted, round, hcounted, hround, hdigests, hquorum⟩ := ho.quorum
    exact Proposer.checks_of_counted hsep.genesis
      (fun c c' hc hc' hd => hsep.certificates c.header c'.header hc hc' hd)
      hcounted hround hdigests hquorum hs.2.1.parents
  mvcgen [getParents, orReturn, send]
  · rename_i s hs found hfound _
    obtain ⟨parents, stake, hread, hne, hcheck, hquorum⟩ := hchecks s hs
    obtain rfl := Except.ok.inj (hread.symm.trans hfound)
    exact ⟨hs, hne, stake, hcheck, hquorum⟩
  · rename_i s hs found hfound hmissing _
    obtain ⟨parents, stake, hread, -, -, -⟩ := hchecks s hs
    obtain rfl := Except.ok.inj (hread.symm.trans hfound)
    exact absurd rfl hmissing
  · rename_i s hs e hfail
    obtain ⟨parents, stake, hread, -, -, -⟩ := hchecks s hs
    cases hread.symm.trans hfail

theorem missingPayload_own (ho : OwnHeader p known h) :
    ⦃fun s => ⌜Processing p known byzantine own g r h s⌝⦄ missingPayload p h
    ⦃post⟨fun missing s => ⌜Processing p known byzantine own g r h s ∧ missing = false⌝,
      fun _ _ => ⌜False⌝⟩⦄ := by
  mvcgen [missingPayload, send]
  exact absurd ho.author ‹¬ h.author = p.name›

theorem writeHeader_own (hsep : Separated p known) (hk : known h) :
    ⦃fun s => ⌜Processing p known byzantine own g r h s⌝⦄
    writeStore (.digest h.id) (.header h)
    ⦃post⟨fun _ s => ⌜Processing p known byzantine own g r h s⌝, fun _ _ => ⌜False⌝⟩⦄ := by
  mvcgen [writeStore]
  rename_i s hs _
  have he : Extends p known s.store (Function.update s.store (.digest h.id) (some (.header h))) :=
    extends_write fun h' hk' he => hsep.headers h h' hk hk' (StoreKey.digest.inj he)
  exact ⟨hs.1.write he, { hs.2.1 with parents := fun d hd => he d (hs.2.1.parents d hd) }, hs.2.2⟩

/-- Our vote for our own header is the first for it. -/
theorem createVote_own (henv : Environment p known byzantine) (ho : OwnHeader p known h) :
    ⦃fun s => ⌜Processing p known byzantine own g r h s⌝⦄ createVote p h
    ⦃post⟨fun o s => ⌜o = some (Vote.new h p.name) ∧
        AssemblyInv p known byzantine own (some h) g r s ∧
        Countable p byzantine (some h) True True (Vote.new h p.name) s⌝, fun _ _ => ⌜False⌝⟩⦄ := by
  mvcgen [createVote, send]
  · rename_i s hs hvoted
    exact absurd (ho.author ▸ hvoted) hs.2.1.unvoted
  · rename_i s hs _ _ _
    obtain ⟨hi, hready, hmarked⟩ := hs
    have hcurrent := hready.current
    refine ⟨rfl, hi.vote fun _ => hcurrent ▸ le_rfl, ⟨henv.stake, ?_⟩, ?_, ?_, ?_, ?_⟩
    · show Ed25519.verify (Ed25519.sign (voteDigest h) p.name) (voteDigest s.currentHeader)
        p.name = true
      rw [hcurrent]
      exact henv.sign _
    · intro h0
      exact absurd (hcurrent ▸ h0) ho.positive
    · intro _ _ _ _
      show s.currentHeader.id ∈ s.processing s.currentHeader.round
      rw [hcurrent]
      exact hmarked
    · intro _
      show p.name ∉ s.votesAggregator.used
      rw [hready.aggregator]
      exact List.not_mem_nil
    · rintro h' heq
      obtain rfl := Option.some.inj heq
      refine ⟨rfl, ?_, hmarked⟩
      show p.name ∈ Function.update s.lastVoted h.round (h.author :: s.lastVoted h.round) h.round
      rw [Function.update_self, ho.author]
      exact List.mem_cons_self

/-- A new header of our own is voted for at once, without errors. -/
theorem processHeader_own (henv : Environment p known byzantine) (ho : OwnHeader p known h)
    (hk : known h) (n : ℕ) :
    ⦃fun s => ⌜AssemblyInv p known byzantine own (some h) g r s ∧ Ready p known h s⌝⦄
    processHeader p (n + 1) h
    ⦃post⟨fun _ s => ⌜AssemblyInv p known byzantine own none g r s⌝, fun _ _ => ⌜False⌝⟩⦄ := by
  have hmark : ⦃fun s => ⌜AssemblyInv p known byzantine own (some h) g r s ∧ Ready p known h s⌝⦄
      markProcessing h
      ⦃post⟨fun _ s => ⌜Processing p known byzantine own g r h s⌝, fun _ _ => ⌜False⌝⟩⦄ := by
    mvcgen [markProcessing]
    rename_i s hs _
    refine ⟨hs.1.mark h, ⟨hs.2.current, hs.2.aggregator, hs.2.unvoted, hs.2.parents⟩, ?_⟩
    show h.id ∈ Function.update s.processing h.round _ h.round
    rw [Function.update_self]
    exact List.mem_cons_self
  have hparents := getParents_own p known byzantine own g r henv.separated ho
  have hpayload := missingPayload_own p known byzantine own g r ho
  have hwrite := writeHeader_own p known byzantine own g r henv.separated hk
  have hcreate := createVote_own p known byzantine own g r henv ho
  have hvote := processVoteWith_assembly p known byzantine own (some h) g r True
    (processHeader p n) henv True fun hnot => absurd trivial hnot
  have hours : ∀ v : Vote PublicKey Digest Signature, some v = some (Vote.new h p.name) →
      v.origin = p.name := fun v hv => by
    rw [Option.some.inj hv]
    exact ho.author
  mvcgen [processHeader, orReturn, expect, hmark, hparents, hpayload, hwrite, hcreate, hvote, send]
  case vc3 =>
    rename_i hempty _ hs
    exact absurd hempty hs.2.1
  case vc4 => exact (‹_ ∧ _› : _ ∧ _).1
  case vc5 =>
    -- our own payload is not missing
    rename_i hs
    exact absurd hs.2 (by simp [*])
  -- the counts of our own headers are not compared
  case vc6 | vc8 | vc9 | vc10 | vc11 | vc12 | vc13 | vc14 | vc15 =>
    exact absurd ho.author ‹h.author ≠ p.name ∧ p.baselineMode = false›.1
  case vc16 => exact (‹_ ∧ _› : _ ∧ _).1
  case vc18 =>
    rename_i hs
    cases hs.1
  case vc19 =>
    rename_i hs
    rw [Option.some.inj hs.1]
    exact hs.2
  case vc20 => exact id
  case vc21 | vc22 =>
    rename_i hrefused
    exact absurd trivial hrefused.1.2
  case vc23 =>
    rename_i hne _ _ hs _
    exact absurd (hours _ hs.1) hne
  case vc24 =>
    rename_i hne _ _ hs
    exact absurd (hours _ hs.1) hne
  case vc25 =>
    rename_i hs total htotal e hlow
    obtain ⟨-, -, stake, hstake, hquorum⟩ := hs
    obtain rfl := Except.ok.inj (hstake.symm.trans htotal)
    exact absurd hlow (ensure_ne_error (decide_eq_true hquorum))
  case vc26 =>
    rename_i hs e hwrong
    obtain ⟨-, -, stake, hstake, -⟩ := hs
    cases hstake.symm.trans hwrong

end Triples

/-! ## New headers -/

/-- The digests of the genesis certificates, which the first header has as parents. -/
def genesisDigests (committee : Committee PublicKey) (Signature : Type) [Inhabited Signature] :
    List Digest :=
  (Certificate.genesis committee : List (Certificate PublicKey Digest Signature)).map
    Certificate.digest

/-- A header that our proposer makes next: of a later round than the one before, with batches
    of our workers, on parents that `Core` has sent it or on the genesis certificates. -/
def ProposedNext (p : Params PublicKey) (s : State PublicKey Digest Signature)
    (h : Header PublicKey Digest Signature) : Prop :=
  ∃ (q : Proposer.Params PublicKey) (ps : Proposer.State Digest) (now : ℕ),
    h = Proposer.newHeader Signature q now ps ∧ q.name = p.name ∧
    (∀ x ∈ ps.digests, p.committee.hasWorker p.name x.2 = true) ∧
    s.currentHeader.round < ps.round ∧
    (ps.round = 1 ∧ ps.lastParents = genesisDigests p.committee Signature ∨
      ∃ round, ps.round = round + 1 ∧ .newParents ps.lastParents round ∈ s.outputs)

omit [AsBytes PublicKey] [AsBytes Digest] [Sha512 Digest] [Inhabited PublicKey] [Inhabited Digest]
  [Inhabited Signature] [Ed25519 PublicKey Digest Signature] in
theorem Usable.mono {own' : Header PublicKey Digest Signature → Prop}
    (hu : Usable p known own h) (hown : ∀ h, own h → own' h) : Usable p known own' h where
  known := hu.known
  author := hu.author
  own hname := (hu.own hname).imp_right fun ⟨h', ho, hh'⟩ => ⟨h', hown h' ho, hh'⟩

theorem OutputOk.mono {own' : Header PublicKey Digest Signature → Prop}
    {o : Output PublicKey Digest Signature} (ho : OutputOk p known own store o)
    (hown : ∀ h, own h → own' h) : OutputOk p known own' store o := by
  cases o with
  | syncBatches missing h => exact Usable.mono ho hown
  | syncParents missing h => exact Usable.mono ho hown
  | syncCertificate c => exact Usable.mono ho hown
  | broadcastHeader h => exact hown h ho
  | _ => exact ho

theorem Environment.totalVotes_pos (henv : Environment p known byzantine) :
    0 < p.committee.totalVotes := by
  have hle := p.committee.stakeOf_le_total {p.name}
  rw [Committee.stakeOf, Finset.sum_singleton] at hle
  rw [Committee.totalVotes_eq henv.total]
  exact henv.stake.trans_le hle

/-- The header of our proposer passes `verify`. -/
theorem verify_newHeader (henv : Environment p known byzantine) {q : Proposer.Params PublicKey}
    {ps : Proposer.State Digest} {now : ℕ} (hname : q.name = p.name)
    (hworkers : ∀ x ∈ ps.digests, p.committee.hasWorker p.name x.2 = true) :
    (Proposer.newHeader Signature q now ps).verify p.committee = .ok () := by
  refine Header.verify_eq_ok.mpr ⟨rfl, ?_, ?_, ?_⟩
  · show 0 < p.committee.stake q.name
    rw [hname]
    exact henv.stake
  · rw [List.all_eq_true]
    intro x hx
    show p.committee.hasWorker q.name x.2 = true
    rw [hname]
    exact hworkers x (Proposer.mem_of_mem_collectPayload hx)
  · show Ed25519.verify (Ed25519.sign (Proposer.newHeader Signature q now ps).id q.name)
      (Proposer.newHeader Signature q now ps).id q.name = true
    rw [hname]
    exact henv.sign _

/-- The parents of a new header of our own are a quorum, and are kept. -/
theorem ProposedNext.parents (henv : Environment p known byzantine)
    (hi : AssemblyInv p known byzantine own none g r s) (hp : ProposedNext p s h) :
    OwnHeader p known h ∧ HasParents p (fun c => known c.header) s.store h := by
  obtain ⟨q, ps, now, rfl, hname, -, hround, hparents⟩ := hp
  have hpositive : ps.round ≠ 0 := by omega
  rcases hparents with ⟨hone, hlast⟩ | ⟨round, hnext, hsent⟩
  · have hgenesis : Counted (fun c : Certificate PublicKey Digest Signature => known c.header) 0
        (Certificate.genesis p.committee) ∧ _ :=
      Proposer.counted_genesis henv.totalVotes_pos henv.separated.genesis
    obtain ⟨hcounted, hquorum⟩ := hgenesis
    refine ⟨⟨hname, hpositive, _, 0, hcounted, hone, congrArg OrdSet.ofList hlast, hquorum⟩, ?_⟩
    intro d hd
    have hmem : d ∈ ps.lastParents := OrdSet.mem_ofList.mp hd
    rw [hlast] at hmem
    obtain ⟨c, hc, rfl⟩ := List.mem_map.mp hmem
    exact ⟨c, henv.separated.genesis c hc, rfl, Or.inl hc⟩
  · obtain ⟨counted, hcounted, hlast, hquorum⟩ := hi.outputs _ hsent
    refine ⟨⟨hname, hpositive, counted, round, ⟨fun c hc => ?_, hcounted.distinct⟩, hnext,
      congrArg OrdSet.ofList hlast, hquorum⟩, ?_⟩
    · exact ⟨(hcounted.known c hc).1.1, (hcounted.known c hc).2⟩
    · intro d hd
      have hmem : d ∈ ps.lastParents := OrdSet.mem_ofList.mp hd
      rw [hlast] at hmem
      obtain ⟨c, hc, rfl⟩ := List.mem_map.mp hmem
      exact (hcounted.known c hc).1.2

/-- What `process_own_header` sets before it processes the header. -/
theorem AssemblyInv.propose (henv : Environment p known byzantine)
    (hi : AssemblyInv p known byzantine own none g r s) (hp : ProposedNext p s h)
    (hk : known h) :
    AssemblyInv p known byzantine (fun x => own x ∨ x = h) (some h) g r { s with
        currentHeader := h
        votesAggregator := VotesAggregator.new
        outputs := s.outputs ++ [.broadcastHeader h] } ∧
      Ready p known h { s with
        currentHeader := h
        votesAggregator := VotesAggregator.new
        outputs := s.outputs ++ [.broadcastHeader h] } := by
  obtain ⟨ho, hparents⟩ := hp.parents henv hi
  have hverify : h.verify p.committee = .ok () := by
    obtain ⟨q, ps, now, rfl, hname, hworkers, -, -⟩ := hp
    exact verify_newHeader henv hname hworkers
  have hround : s.currentHeader.round < h.round := by
    obtain ⟨q, ps, now, rfl, -, -, hround, -⟩ := hp
    exact hround
  have husable : Usable p known (fun x => own x ∨ x = h) h :=
    ⟨hk, Or.inr (ho.author ▸ Certificate.mem_keys_of_stake henv.stake),
      fun _ => Or.inr ⟨h, Or.inr rfl, rfl, rfl⟩⟩
  have hold : ∀ h', own h' ∨ h' = h → some h ≠ some h' → own h' :=
    fun h' hown hne => hown.resolve_right fun he => hne (congrArg some he.symm)
  refine ⟨{ hi with
    current := ⟨Collected.new, fun h0 => absurd h0 ho.positive,
      fun _ => ⟨Or.inr rfl, husable, hverify⟩⟩
    voted := fun h' hown hne hg => hi.voted h' (hold h' hown hne) (by simp) hg
    marked := fun h' hown hne hg => hi.marked h' (hold h' hown hne) (by simp) hg
    voted_le := fun k hk => (hi.voted_le k hk).trans hround.le
    rounds := fun h' hown => ?_
    used := fun hp => by cases hp
    outputs := fun o hmem => ?_ }, rfl, rfl, fun hvoted => ?_, hparents⟩
  · rcases hown with hown | rfl
    · exact (hi.rounds h' hown).trans hround.le
    · exact le_rfl
  · rcases List.mem_append.mp hmem with hmem | hmem
    · exact (hi.outputs o hmem).mono fun _ => Or.inl
    · rw [List.mem_singleton.mp hmem]
      exact Or.inr rfl
  · exact absurd (hi.voted_le _ hvoted) (not_le.mpr hround)

/-! ## Events -/

/-- What the rest of the system promises: headers that are received are in play, a header of
    ours comes from our proposer, nobody signs in our name, and only the byzantine authorities
    vote in round 0. -/
def Promised (p : Params PublicKey) (known : Header PublicKey Digest Signature → Prop)
    (byzantine : Finset PublicKey) (s : State PublicKey Digest Signature) :
    Event PublicKey Digest Signature → Prop
  | .ownHeader h => known h ∧ ProposedNext p s h
  | .primaryHeader h => known h ∧ Signed p (fun h' => .broadcastHeader h' ∈ s.outputs) h
  | .primaryCertificate c =>
      known c.header ∧ Signed p (fun h' => .broadcastHeader h' ∈ s.outputs) c.header
  | .primaryVote v => v.round = 0 → v.verify p.committee = .ok () → v.author ∈ byzantine
  | _ => True

/-- The vote is accepted and completes the quorum for the current header. -/
structure Completes (p : Params PublicKey) (s : State PublicKey Digest Signature)
    (v : Vote PublicKey Digest Signature) : Prop where
  id : v.id = s.currentHeader.id
  origin : v.origin = s.currentHeader.author
  round : v.round = s.currentHeader.round
  verify : v.verify p.committee = .ok ()
  unused : v.author ∉ s.votesAggregator.used
  quorum : p.committee.quorumThreshold ≤
    u32 (s.votesAggregator.weight + p.committee.stake v.author)

/-- `Core` does not return to a header of its own whose round is garbage collected: by a vote
    that completes its certificate, or from a waiter. -/
def Timely (p : Params PublicKey) (s : State PublicKey Digest Signature) :
    Event PublicKey Digest Signature → Prop
  | .primaryVote v => Completes p s v → s.gcRound ≤ s.currentHeader.round
  | .loopbackHeader h => h.author = p.name → h.round = 0 ∨ s.gcRound ≤ h.round
  | .loopbackCertificate c => c.origin = p.name → c.round = 0 ∨ s.gcRound ≤ c.round
  | _ => True

section Events

variable (p known byzantine own g r)

theorem processOwnHeader_assembly (henv : Environment p known byzantine) (hk : known h) :
    ⦃fun s => ⌜AssemblyInv p known byzantine own none g r s ∧ ProposedNext p s h⌝⦄
    processOwnHeader p h
    ⦃post⟨fun _ s => ⌜AssemblyInv p known byzantine (fun x => own x ∨ x = h) none g r s⌝,
      fun _ _ => ⌜False⌝⟩⦄ := by
  have hheader : OwnHeader p known h →
      ⦃fun s => ⌜AssemblyInv p known byzantine (fun x => own x ∨ x = h) (some h) g r s ∧
        Ready p known h s⌝⦄ processHeader p recursionDepth h
      ⦃post⟨fun _ s => ⌜AssemblyInv p known byzantine (fun x => own x ∨ x = h) none g r s⌝,
        fun _ _ => ⌜False⌝⟩⦄ :=
    fun ho => processHeader_own p known byzantine _ g r henv ho hk 1
  have hheader := triple_of_imp hheader
  mvcgen [processOwnHeader, send, hheader]
  rename_i s hs _ _
  have hnext := hs.1.propose henv hs.2 hk
  exact ⟨hnext, (hs.2.parents henv hs.1).1⟩

theorem sanitizeHeader_assembly (h : Header PublicKey Digest Signature) :
    ⦃fun s => ⌜AssemblyInv p known byzantine own none g r s⌝⦄ sanitizeHeader p h
    ⦃post⟨fun _ s => ⌜AssemblyInv p known byzantine own none g r s ∧
        (g ≤ h.round ∧ h.verify p.committee = .ok ())⌝,
      fun e s => ⌜e ≠ .panic ∧ AssemblyInv p known byzantine own none g r s⌝⟩⦄ := by
  mvcgen [sanitizeHeader, orReturn]
  case vc1 =>
    rename_i s hi _ hround _ hverify
    refine ⟨hi, ?_, hverify⟩
    rw [← hi.gcRound]
    exact of_decide_eq_true (ensure_eq_ok.mp hround)
  all_goals exact ⟨by simp, ‹_›⟩

theorem sanitizeCertificate_assembly (c : Certificate PublicKey Digest Signature) :
    ⦃fun s => ⌜AssemblyInv p known byzantine own none g r s⌝⦄ sanitizeCertificate p c
    ⦃post⟨fun _ s => ⌜AssemblyInv p known byzantine own none g r s ∧
        (g ≤ c.round ∧ c.verify p.committee = .ok ())⌝,
      fun e s => ⌜e ≠ .panic ∧ AssemblyInv p known byzantine own none g r s⌝⟩⦄ := by
  mvcgen [sanitizeCertificate, orReturn]
  case vc1 =>
    rename_i s hi _ hround _ hverify
    refine ⟨hi, ?_, hverify⟩
    rw [← hi.gcRound]
    exact of_decide_eq_true (ensure_eq_ok.mp hround)
  all_goals exact ⟨by simp, ‹_›⟩

/-- A vote that passes `sanitize_vote` may be counted. -/
theorem sanitizeVote_assembly (onTime : Prop) {v : Vote PublicKey Digest Signature}
    (hidle : v.round = 0 → v.verify p.committee = .ok () → v.author ∈ byzantine) :
    ⦃fun s => ⌜AssemblyInv p known byzantine own none g r s ∧
        (onTime → Completes p s v → g ≤ s.currentHeader.round)⌝⦄ sanitizeVote p v
    ⦃post⟨fun _ s => ⌜AssemblyInv p known byzantine own none g r s ∧
        Countable p byzantine none onTime False v s⌝,
      fun e s => ⌜e ≠ .panic ∧ AssemblyInv p known byzantine own none g r s⌝⟩⦄ := by
  mvcgen [sanitizeVote, orReturn]
  case vc1 =>
    rename_i s hi _ _ _ hheader _ hverify
    obtain ⟨hi, htimely⟩ := hi
    obtain ⟨hid, horigin, hround⟩ := of_decide_eq_true (ensure_eq_ok.mp hheader)
    obtain ⟨hstake, hsigned⟩ := Vote.verify_eq_ok.mp hverify
    have hdigest : v.digest = voteDigest s.currentHeader := by
      unfold Vote.digest voteDigest
      rw [hid, horigin, hround]
    refine ⟨hi, ⟨hstake, hdigest ▸ hsigned⟩, fun h0 => hidle (hround.trans h0) hverify,
      fun hontime hunused hquorum h0 => ?_, False.elim, by simp⟩
    exact hi.marked _ (hi.current.proposed h0).1 (by simp)
      (htimely hontime ⟨hid, horigin, hround, hverify, hunused, hquorum⟩)
  all_goals exact ⟨by simp, (‹_ ∧ _› : _ ∧ _).1⟩

variable {p known byzantine own g r}

/-- The header of a certificate from the network may be processed. -/
theorem usable_of_verify (hk : known c.header) (hs : Signed p own c.header)
    (hv : c.verify p.committee = .ok ()) : Usable p known own c.header := by
  cases hgen : (Certificate.genesis p.committee).any (·.same c) with
  | true =>
      have h0 : c.header.round = 0 := Certificate.round_of_same_genesis hgen
      exact ⟨hk, Or.inl h0, fun _ => Or.inl h0⟩
  | false =>
      have hh := ((Certificate.verify_eq_ok hgen).mp hv).1
      exact ⟨hk, Or.inr (Certificate.mem_keys_of_stake (Header.verify_eq_ok.mp hh).2.1),
        Signed.acceptable p own hs hh⟩

omit [LinearOrder PublicKey] [AsBytes PublicKey] [AsBytes Digest] [Sha512 Digest]
  [Inhabited PublicKey] [Inhabited Digest] [Inhabited Signature]
  [Ed25519 PublicKey Digest Signature] in
/-- What a run of a program does that keeps `I`, and does not panic in the case `onTime`. -/
theorem outcome_of_triple {α : Type} {m : M PublicKey Digest Signature α} {onTime : Prop}
    {P I : State PublicKey Digest Signature → Prop}
    (h : ⦃fun s => ⌜P s⌝⦄ m
      ⦃post⟨fun _ s => ⌜I s⌝, fun e s => ⌜(onTime → e ≠ .panic) ∧ I s⌝⟩⦄) (hs : P s) :
    (onTime → (m.run.run s).1 ≠ .error .panic) ∧ I (m.run.run s).2 := by
  have key := run_of_triple h s hs
  generalize m.run.run s = x at key ⊢
  obtain ⟨result, s'⟩ := x
  cases result with
  | ok a => exact ⟨fun _ => by simp, key⟩
  | error e => exact ⟨fun hontime he => key.1 hontime (Except.error.inj he), key.2⟩

/-- Every branch of `select!` keeps the invariant. It does not panic, unless it returns to an
    old header of our own. -/
theorem AssemblyInv.handle (henv : Environment p known byzantine)
    (hi : AssemblyInv p known byzantine own none g r s) {e : Event PublicKey Digest Signature}
    {round : ℕ} (hen : Enabled s e round) (hp : Promised p known byzantine s e) :
    (Timely p s e → ((Core.handle p e).run.run s).1 ≠ .error .panic) ∧
      ∃ own', AssemblyInv p known byzantine own' none g r ((Core.handle p e).run.run s).2 := by
  have hsent : ∀ h, .broadcastHeader h ∈ s.outputs → own h := fun h hmem => hi.outputs _ hmem
  have hsigned : ∀ h, Signed p (fun h' => .broadcastHeader h' ∈ s.outputs) h → Signed p own h := by
    intro h hs hname hverify
    obtain ⟨h', hmem, hh'⟩ := hs hname hverify
    exact ⟨h', hsent h' hmem, hh'⟩
  have hheader : ∀ (onTime : Prop) h, Usable p known own h →
      (onTime → h.author = p.name → h.round = 0 ∨ g ≤ h.round) →
      KeepsAssembly p known byzantine own none g r onTime (processHeader p recursionDepth h) :=
    fun onTime h hu hg =>
      keepsAssembly_processHeader p known byzantine own g r onTime henv.separated hu hg _
  have hcert : ∀ (onTime : Prop) c, Usable p known own c.header →
      (onTime → c.origin = p.name → c.round = 0 ∨ g ≤ c.round) →
      KeepsAssembly p known byzantine own none g r onTime (processCertificate p c) :=
    fun onTime c hu hg => keepsAssembly_processCertificateWith p known byzantine own g r onTime _
      hu (hheader onTime c.header hu hg)
  -- most branches make no header of our own
  have hsame : KeepsAssembly p known byzantine own none g r (Timely p s e) (Core.handle p e) →
      (Timely p s e → ((Core.handle p e).run.run s).1 ≠ .error .panic) ∧
        ∃ own', AssemblyInv p known byzantine own' none g r ((Core.handle p e).run.run s).2 :=
    fun hkeep => (outcome_of_triple hkeep hi).imp_right fun hi' => ⟨own, hi'⟩
  cases e with
  | primaryHeader h =>
      apply hsame
      have hsanitize := sanitizeHeader_assembly p known byzantine own g r h
      have hprocess : g ≤ h.round ∧ h.verify p.committee = .ok () →
          KeepsAssembly p known byzantine own none g r True (processHeader p recursionDepth h) := by
        rintro ⟨hg, hv⟩
        have hstake := (Header.verify_eq_ok.mp hv).2.1
        exact hheader True h ⟨hp.1, Or.inr (Certificate.mem_keys_of_stake hstake),
          Signed.acceptable p own (hsigned h hp.2) hv⟩ fun _ _ => Or.inr hg
      have hprocess := triple_of_imp hprocess
      unfold KeepsAssembly
      mvcgen [Core.handle, hsanitize, hprocess]
      exact fun hne hi' => ⟨fun _ => hne, hi'⟩
  | primaryVote v =>
      have hsanitize := sanitizeVote_assembly p known byzantine own g r
        (Timely p s (.primaryVote v)) hp
      have hvote := processVoteWith_assembly p known byzantine own none g r
        (Timely p s (.primaryVote v)) (processHeader p recursionDepth) henv False
        (fun _ h hu => hheader False h hu False.elim) v
      have key : ⦃fun s' => ⌜AssemblyInv p known byzantine own none g r s' ∧
            (Timely p s (.primaryVote v) → Completes p s' v → g ≤ s'.currentHeader.round)⌝⦄
          Core.handle p (.primaryVote v)
          ⦃post⟨fun _ s => ⌜AssemblyInv p known byzantine own none g r s⌝,
            fun e s' => ⌜(Timely p s (.primaryVote v) → e ≠ .panic) ∧
              AssemblyInv p known byzantine own none g r s'⌝⟩⦄ := by
        mvcgen [Core.handle, processVote, hsanitize, hvote]
        case vc3 => exact id
        case vc4 => exact fun hne hi' => ⟨fun ht => (hne ht).1, hi'⟩
        case vc5 => exact fun hne hi' => ⟨fun _ => hne, hi'⟩
      exact (outcome_of_triple key ⟨hi, fun ht => hi.gcRound ▸ ht⟩).imp_right
        fun hi' => ⟨own, hi'⟩
  | primaryCertificate c =>
      apply hsame
      have hsanitize := sanitizeCertificate_assembly p known byzantine own g r c
      have hprocess : g ≤ c.round ∧ c.verify p.committee = .ok () →
          KeepsAssembly p known byzantine own none g r True (processCertificate p c) := by
        rintro ⟨hg, hv⟩
        exact hcert True c (usable_of_verify hp.1 (hsigned c.header hp.2) hv) fun _ _ => Or.inr hg
      have hprocess := triple_of_imp hprocess
      unfold KeepsAssembly
      mvcgen [Core.handle, hsanitize, hprocess]
      exact fun hne hi' => ⟨fun _ => hne, hi'⟩
  | loopbackHeader h =>
      apply hsame
      refine hheader _ h ?_ fun ht => hi.gcRound ▸ ht
      rcases hen.2.2 with ⟨missing, hm⟩ | ⟨missing, hm⟩
      · exact hi.outputs _ hm
      · exact hi.outputs _ hm
  | loopbackCertificate c =>
      apply hsame
      exact hcert _ c (hi.outputs _ hen.2.2) fun ht => hi.gcRound ▸ ht
  | ownHeader h =>
      have hown := processOwnHeader_assembly p known byzantine own g r henv hp.1
      have key : ⦃fun s => ⌜AssemblyInv p known byzantine own none g r s ∧ ProposedNext p s h⌝⦄
          Core.handle p (.ownHeader h)
          ⦃post⟨fun _ s => ⌜AssemblyInv p known byzantine (fun x => own x ∨ x = h) none g r s⌝,
            fun e s => ⌜(True → e ≠ .panic) ∧
              AssemblyInv p known byzantine (fun x => own x ∨ x = h) none g r s⌝⟩⦄ := by
        mvcgen [Core.handle, hown]
        exact id
      obtain ⟨hpanic, hi'⟩ := outcome_of_triple key ⟨hi, hp.2⟩
      exact ⟨fun _ => hpanic trivial, _, hi'⟩
  | othersBatch digest worker counts =>
      apply hsame
      have hwrite := sureAssembly_writePayload p known byzantine own none g r digest worker counts
      unfold KeepsAssembly
      unfold SureAssembly at hwrite
      mvcgen [Core.handle, hwrite]
      exact id

end Events

/-- A clean-up forgets the rounds that it garbage collects only. -/
theorem AssemblyInv.cleanup (hi : AssemblyInv p known byzantine own none g r s) {round : ℕ}
    (hr : r ≤ round) :
    ∃ g', AssemblyInv p known byzantine own none g' round (s.cleanup p.gcDepth round) := by
  have hg := hi.gcRound_le
  unfold State.cleanup
  by_cases hlt : p.gcDepth < round
  · rw [if_pos hlt]
    refine ⟨round - p.gcDepth, { hi with
      gcRound := rfl
      consensusRound := rfl
      gcRound_le := le_rfl
      current := ⟨hi.current.collected, hi.current.idle, hi.current.proposed⟩
      voted := fun h hown hne hgr => ?_
      marked := fun h hown hne hgr => ?_
      voted_le := fun k hk => ?_
      aggregators := fun k => ?_ }⟩
    · show p.name ∈ if round - p.gcDepth ≤ h.round then s.lastVoted h.round else []
      rw [if_pos hgr]
      exact hi.voted h hown hne (by omega)
    · show h.id ∈ if round - p.gcDepth ≤ h.round then s.processing h.round else []
      rw [if_pos hgr]
      exact hi.marked h hown hne (by omega)
    · have hk : p.name ∈ if round - p.gcDepth ≤ k then s.lastVoted k else [] := hk
      split at hk
      · exact hi.voted_le k hk
      · cases hk
    · show ∃ counted, AggregatorInv p.committee (Available p known s.store) k
        (if round - p.gcDepth ≤ k then s.certificatesAggregators k else .new) counted
      split
      · exact hi.aggregators k
      · exact ⟨[], ⟨by simp, List.nodup_nil⟩, rfl, rfl, by simp⟩
  · rw [if_neg hlt]
    exact ⟨g, { hi with
      consensusRound := rfl
      gcRound_le := by omega
      current := ⟨hi.current.collected, hi.current.idle, hi.current.proposed⟩ }⟩

/-! ## Runs -/

omit [AsBytes PublicKey] [AsBytes Digest] [Sha512 Digest] [Inhabited PublicKey] [Inhabited Digest]
  [Inhabited Signature] [Ed25519 PublicKey Digest Signature] [LinearOrder PublicKey] in
theorem State.running_eq (h : s.alive = true) : { s with alive := true } = s := by
  rw [← h]

/-- A step keeps the invariant, up to the end of the task. It goes on if `Core` does not return
    to an old header of its own. -/
theorem AssemblyInv.step (henv : Environment p known byzantine)
    (hi : AssemblyInv p known byzantine own none g r s) {e : Event PublicKey Digest Signature}
    {round : ℕ} (hen : Enabled s e round) (hp : Promised p known byzantine s e) :
    (Timely p s e → (Core.step p s e round).alive = true) ∧
      ∃ own' g' r', AssemblyInv p known byzantine own' none g' r'
        { Core.step p s e round with alive := true } := by
  obtain ⟨hpanic, own', hi'⟩ := hi.handle henv hen hp
  have hfuel := handle_fuel p e s
  have hr : r ≤ round := hi.consensusRound ▸ hen.2.1
  unfold Core.step
  generalize (Core.handle p e).run.run s = x at hpanic hi' hfuel ⊢
  obtain ⟨result, s'⟩ := x
  have hend : (if e.ofCore then s'.cleanup p.gcDepth round else s').alive = true ∧
      ∃ own' g' r', AssemblyInv p known byzantine own' none g' r'
        { (if e.ofCore then s'.cleanup p.gcDepth round else s') with alive := true } := by
    split
    · obtain ⟨g', hg'⟩ := hi'.cleanup hr
      exact ⟨hg'.alive, own', g', round, (State.running_eq hg'.alive).symm ▸ hg'⟩
    · exact ⟨hi'.alive, own', g, r, (State.running_eq hi'.alive).symm ▸ hi'⟩
  match result with
  | .ok _ => exact hend.imp_left fun halive _ => halive
  | .error (.dag _) => exact hend.imp_left fun halive _ => halive
  | .error .panic =>
      exact ⟨fun ht => absurd rfl (hpanic ht), own', g, r, (State.running_eq hi'.alive).symm ▸ hi'⟩
  | .error .fuel => exact absurd rfl hfuel

theorem AssemblyInv.initial : AssemblyInv p known byzantine (fun _ => False) none 0 0
    (State.initial : State PublicKey Digest Signature) where
  alive := rfl
  gcRound := rfl
  consensusRound := rfl
  gcRound_le := Nat.zero_le _
  current := ⟨Collected.new, by simp [State.initial, VotesAggregator.new], fun h0 => absurd rfl h0⟩
  voted := fun _ => False.elim
  marked := fun _ => False.elim
  voted_le := by simp [State.initial]
  rounds := fun _ => False.elim
  used := fun _ h0 => absurd rfl h0
  aggregators _ := ⟨[], ⟨by simp, List.nodup_nil⟩, rfl, rfl, by simp [State.initial]⟩
  outputs := by simp [State.initial]

/-- The invariant holds in every run that keeps the promises, up to the end of the task. -/
theorem assemblyInv_of_run (henv : Environment p known byzantine)
    {C : State PublicKey Digest Signature → Event PublicKey Digest Signature → Prop}
    (hC : ∀ s e, C s e → Promised p known byzantine s e)
    {events : List (Event PublicKey Digest Signature)} (hrun : Run p C events s) :
    ∃ own g r, AssemblyInv p known byzantine own none g r { s with alive := true } := by
  induction hrun with
  | initial => exact ⟨_, 0, 0, AssemblyInv.initial⟩
  | step run e round enabled cond ih =>
      obtain ⟨own, g, r, hi⟩ := ih
      rw [State.running_eq enabled.1] at hi
      exact (hi.step henv enabled (hC _ _ cond)).2

/-- What is assembled is valid, in every run that keeps the promises. -/
theorem verify_of_broadcast (henv : Environment p known byzantine)
    {C : State PublicKey Digest Signature → Event PublicKey Digest Signature → Prop}
    (hC : ∀ s e, C s e → Promised p known byzantine s e)
    {events : List (Event PublicKey Digest Signature)} (hrun : Run p C events s)
    (hc : .broadcastCertificate c ∈ s.outputs) : c.verify p.committee = .ok () := by
  obtain ⟨own, g, r, hi⟩ := assemblyInv_of_run henv hC hrun
  exact hi.outputs _ hc

/-- Assembled certificates are valid: `Core` does not panic, and every certificate that it
    assembles passes `Certificate::verify`. -/
theorem assembled_valid (p : Params PublicKey)
    (known : Header PublicKey Digest Signature → Prop) (byzantine : Finset PublicKey)
    (henv : Environment p known byzantine) (events : List (Event PublicKey Digest Signature))
    (s : State PublicKey Digest Signature)
    (hrun : Run p (fun s e => Promised p known byzantine s e ∧ Timely p s e) events s) :
    s.alive = true ∧ ∀ c, .broadcastCertificate c ∈ s.outputs → c.verify p.committee = .ok () := by
  refine ⟨?_, fun c => verify_of_broadcast henv (fun _ _ hc => hc.1) hrun⟩
  cases hrun with
  | initial => rfl
  | step run e round enabled cond =>
      obtain ⟨own, g, r, hi⟩ := assemblyInv_of_run henv (fun _ _ hc => hc.1) run
      rw [State.running_eq enabled.1] at hi
      exact (hi.step henv enabled cond.1).1 cond.2

/-! ## A vote that comes too late

Primary 0 of four authorities with one vote each proposes in round 1, and gets the votes of
authorities 1 and 2. -/

section Sample

open Toy

namespace AssemblySample

def committee : Committee ℕ :=
  ⟨⟨[(0, ⟨1, []⟩), (1, ⟨1, []⟩), (2, ⟨1, []⟩), (3, ⟨1, []⟩)], Committee.sorted_four⟩⟩

def params : Params ℕ := ⟨0, committee, 50, false⟩

def proposer : Proposer.Params ℕ := ⟨0, committee, 1000⟩

/-- The first header of primary 0. -/
def header : Header ℕ ℕ Unit :=
  Proposer.newHeader Unit proposer 0 (Proposer.State.initial Unit proposer)

def headers : List (Header ℕ ℕ Unit) := header :: (Certificate.genesis committee).map (·.header)

/-- The certificate of the header is completed by the second vote. -/
def onTime : List (Event ℕ ℕ Unit × ℕ) :=
  [(.ownHeader header, 0), (.primaryVote (Vote.new header 1), 0),
    (.primaryVote (Vote.new header 2), 0)]

/-- Round 1 is garbage collected between the two votes. -/
def tooLate : List (Event ℕ ℕ Unit × ℕ) :=
  [(.ownHeader header, 0), (.primaryVote (Vote.new header 1), 52),
    (.primaryVote (Vote.new header 2), 52)]

theorem environment : Environment params (· ∈ headers) ∅ where
  separated := {
    genesis := fun _ hc => List.mem_cons_of_mem _ (List.mem_map_of_mem hc)
    certificates := by
      have key : ∀ h ∈ headers, ∀ h' ∈ headers, voteDigest h = voteDigest h' →
          h.round = h'.round ∧ h.author = h'.author := by decide +kernel
      exact fun h h' hh hh' => key h hh h' hh'
    headers := by
      have key : ∀ h ∈ headers, ∀ h' ∈ headers, h.id ≠ voteDigest h' := by decide +kernel
      exact fun h h' hh hh' => key h hh h' hh' }
  stake := by decide
  total := by decide
  minority := by decide
  sign _ := rfl
  batch _ _ _ := rfl

theorem promised_header : Promised params (· ∈ headers) ∅ State.initial (.ownHeader header) :=
  ⟨List.mem_cons_self, proposer, _, 0, rfl, rfl, fun _ hx => absurd hx List.not_mem_nil,
    Nat.zero_lt_one, Or.inl ⟨rfl, rfl⟩⟩

theorem promised_vote (s : State ℕ ℕ Unit) (author : ℕ) :
    Promised params (· ∈ headers) ∅ s (.primaryVote (Vote.new header author)) :=
  fun h0 => absurd h0 Nat.one_ne_zero

theorem run_onTime : Run params
    (fun s e => Promised params (· ∈ headers) ∅ s e ∧ Timely params s e)
    (onTime.map Prod.fst) (replay params onTime) := by
  have h1 : Run params (fun s e => Promised params (· ∈ headers) ∅ s e ∧ Timely params s e)
      [.ownHeader header] (replay params (onTime.take 1)) :=
    Run.initial.step (.ownHeader header) 0 (by decide +kernel) ⟨promised_header, trivial⟩
  have h2 := h1.step (.primaryVote (Vote.new header 1)) 0 (by decide +kernel)
    ⟨promised_vote _ 1, fun _ => by decide +kernel⟩
  exact h2.step (.primaryVote (Vote.new header 2)) 0 (by decide +kernel)
    ⟨promised_vote _ 2, fun _ => by decide +kernel⟩

theorem run_tooLate : Run params (Promised params (· ∈ headers) ∅)
    (tooLate.map Prod.fst) (replay params tooLate) := by
  have h1 : Run params (Promised params (· ∈ headers) ∅) [.ownHeader header]
      (replay params (tooLate.take 1)) :=
    Run.initial.step (.ownHeader header) 0 (by decide +kernel) promised_header
  have h2 := h1.step (.primaryVote (Vote.new header 1)) 52 (by decide +kernel)
    (promised_vote _ 1)
  exact h2.step (.primaryVote (Vote.new header 2)) 52 (by decide +kernel) (promised_vote _ 2)

end AssemblySample

open AssemblySample

theorem assembled_valid_sample :
    (replay params onTime).alive = true ∧
      ∀ c, .broadcastCertificate c ∈ (replay params onTime).outputs →
        c.verify params.committee = .ok () :=
  assembled_valid params (· ∈ headers) ∅ environment (onTime.map Prod.fst) _ run_onTime

/-- Without the condition our own vote for the header may be counted twice, which panics. -/
theorem late_vote_panics :
    ¬ ∀ (p : Params ℕ) (known : Header ℕ ℕ Unit → Prop) (byzantine : Finset ℕ),
        Environment p known byzantine →
        ∀ (events : List (Event ℕ ℕ Unit)) (s : State ℕ ℕ Unit),
          Run p (Promised p known byzantine) events s →
          s.alive = true ∧
            ∀ c, .broadcastCertificate c ∈ s.outputs → c.verify p.committee = .ok () := by
  intro h
  have halive := (h params (· ∈ headers) ∅ environment _ _ run_tooLate).1
  exact absurd halive (by decide +kernel)

end Sample

end DagBft.Core
