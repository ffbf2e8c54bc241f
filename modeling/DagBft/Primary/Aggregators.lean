/-
  The aggregators of votes and of certificates (`primary/src/aggregators.rs`).
-/
import DagBft.Primary.Messages

namespace DagBft

variable {PublicKey Digest Signature : Type} [LinearOrder PublicKey] [LinearOrder Digest]

/-- Aggregates votes for a particular header into a certificate. -/
structure VotesAggregator (PublicKey Signature : Type) where
  weight : ℕ
  votes : List (PublicKey × Signature)
  used : List PublicKey
deriving DecidableEq

namespace VotesAggregator

def new : VotesAggregator PublicKey Signature := ⟨0, [], []⟩

/-- The new aggregator, and the certificate if this vote completes it. On an error the
    aggregator is as before. -/
def append (agg : VotesAggregator PublicKey Signature) (vote : Vote PublicKey Digest Signature)
    (committee : Committee PublicKey) (header : Header PublicKey Digest Signature) :
    Except (DagError PublicKey Digest)
      (VotesAggregator PublicKey Signature × Option (Certificate PublicKey Digest Signature)) := do
  let author := vote.author
  -- Ensure it is the first time this authority votes.
  ensure (author ∉ agg.used) (.authorityReuse author)
  let used := author :: agg.used
  let votes := agg.votes ++ [(author, vote.signature)]
  let weight := u32 (agg.weight + committee.stake author)
  if committee.quorumThreshold ≤ weight then
    -- Ensures quorum is only reached once.
    .ok (⟨0, votes, used⟩, some ⟨header, votes⟩)
  else
    .ok (⟨weight, votes, used⟩, none)

variable {agg agg' : VotesAggregator PublicKey Signature} {vote : Vote PublicKey Digest Signature}
  {committee : Committee PublicKey} {header : Header PublicKey Digest Signature}
  {o : Option (Certificate PublicKey Digest Signature)}

/-- What a vote that is accepted does. -/
theorem append_cases (h : agg.append vote committee header = .ok (agg', o)) :
    vote.author ∉ agg.used ∧ agg'.used = vote.author :: agg.used ∧
      agg'.votes = agg.votes ++ [(vote.author, vote.signature)] ∧
      ((committee.quorumThreshold ≤ u32 (agg.weight + committee.stake vote.author) ∧
          agg'.weight = 0 ∧ o = some ⟨header, agg'.votes⟩) ∨
        agg'.weight = u32 (agg.weight + committee.stake vote.author) ∧ o = none) := by
  unfold append ensure at h
  by_cases hu : vote.author ∈ agg.used
  · simp [hu, bind, Except.bind] at h
  · simp only [hu, not_false_eq_true, decide_true, if_true, bind, Except.bind] at h
    split at h
    · obtain ⟨rfl, rfl⟩ := Prod.mk.inj (Except.ok.inj h)
      exact ⟨hu, rfl, rfl, Or.inl ⟨‹_›, rfl, rfl⟩⟩
    · obtain ⟨rfl, rfl⟩ := Prod.mk.inj (Except.ok.inj h)
      exact ⟨hu, rfl, rfl, Or.inr ⟨rfl, rfl⟩⟩

/-- A vote is refused only if its author has voted. -/
theorem mem_used_of_append {e : DagError PublicKey Digest}
    (h : agg.append vote committee header = .error e) : vote.author ∈ agg.used := by
  by_contra hu
  unfold append ensure at h
  simp only [hu, not_false_eq_true, decide_true, if_true, bind, Except.bind] at h
  split at h <;> cases h

/-- A certificate that is assembled embeds the header. -/
theorem header_of_append {c : Certificate PublicKey Digest Signature}
    (h : agg.append vote committee header = .ok (agg', some c)) : c.header = header := by
  rcases (append_cases h).2.2.2 with ⟨-, -, hc⟩ | ⟨-, hc⟩
  · rw [Option.some.inj hc]
  · cases hc

end VotesAggregator

/-- Aggregate certificates and check if we reach a quorum. -/
structure CertificatesAggregator (PublicKey Digest : Type) where
  weight : ℕ
  certificates : List Digest
  used : List PublicKey
deriving DecidableEq

namespace CertificatesAggregator

def new : CertificatesAggregator PublicKey Digest := ⟨0, [], []⟩

variable [AsBytes PublicKey] [AsBytes Digest] [Sha512 Digest]

/-- The new aggregator, and the parents of the next header if this certificate completes
    the quorum. It returns a `Result` in the source, but never an error. -/
def append (agg : CertificatesAggregator PublicKey Digest)
    (certificate : Certificate PublicKey Digest Signature) (committee : Committee PublicKey) :
    CertificatesAggregator PublicKey Digest × Option (List Digest) :=
  let origin := certificate.origin
  -- Ensure it is the first time this authority votes.
  if origin ∈ agg.used then
    (agg, none)
  else
    let used := origin :: agg.used
    let certificates := agg.certificates ++ [certificate.digest]
    let weight := u32 (agg.weight + committee.stake origin)
    if committee.quorumThreshold ≤ weight then
      -- Ensures quorum is only reached once.
      (⟨0, [], used⟩, some certificates)
    else
      (⟨weight, certificates, used⟩, none)

end CertificatesAggregator

end DagBft
