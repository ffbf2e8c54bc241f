/-
  A quorum of votes, or of certificates, is announced once (`primary/src/aggregators.rs`).

  The two aggregators add up stakes in `u32` and start again from zero when they reach the
  threshold. Their stakes never wrap around, since they are of different authorities and
  the committee's are below `2 ^ 31`; and once a quorum is reached the other authorities
  hold less than another one (`stakeOf_lt_quorum`). So both are a `Counting` of what has
  been appended.
-/
import DagBft.Lib.Quorum
import DagBft.Primary.Aggregators

namespace DagBft

variable {PublicKey Digest Signature : Type} [LinearOrder PublicKey] [LinearOrder Digest]

namespace Committee

variable {committee : Committee PublicKey}

/-- Every set of authorities holds less than two quorums. -/
theorem stakeOf_lt_quorum (h : committee.total < 2 ^ 31) (s : Finset PublicKey) :
    committee.stakeOf s < 2 * committee.quorumThreshold := by
  rw [quorumThreshold_eq (by omega)]
  have := committee.stakeOf_le_total s
  omega

theorem quorumThreshold_pos (committee : Committee PublicKey) : 0 < committee.quorumThreshold :=
  Nat.succ_pos _

end Committee

/-- The results of appending `l` one after the other: a result comes at the first append at
    which the authors so far reach the quorum, and at no other, and it is made from what
    different authors appended who hold a quorum. -/
structure FiresOnce {β ρ : Type} (committee : Committee PublicKey) (author : β → PublicKey)
    (yielded : β → List β → ρ) (l : List β) (results : List (Option ρ)) : Prop where
  length : results.length = l.length
  fires : ∀ i : ℕ, (∃ r, results[i]? = some (some r)) ↔ i < l.length ∧
    committee.stakeOf ((l.take i).map author).toFinset < committee.quorumThreshold ∧
    committee.quorumThreshold ≤ committee.stakeOf ((l.take (i + 1)).map author).toFinset
  once : ∀ (i j : ℕ) (r r' : ρ), results[i]? = some (some r) → results[j]? = some (some r') → i = j
  made : ∀ (i : ℕ) (r : ρ), results[i]? = some (some r) → ∃ x counted, l[i]? = some x ∧
    r = yielded x counted ∧ counted.Sublist (l.take (i + 1)) ∧ (counted.map author).Nodup ∧
    committee.quorumThreshold ≤ committee.stakeOf (counted.map author).toFinset

section Aggregates

variable {σ β ρ γ : Type} {committee : Committee PublicKey} {author : β → PublicKey}
  {entry : β → γ} {yielded : β → List γ → ρ} {step : σ → β → σ × Option ρ} {weight : σ → ℕ}
  {used : σ → List PublicKey} {entries : σ → List γ}

/-- What both aggregators do with what is appended, as long as the weight does not wrap
    around. What they keep after a quorum differs. -/
structure Aggregates (committee : Committee PublicKey) (author : β → PublicKey) (entry : β → γ)
    (yielded : β → List γ → ρ) (step : σ → β → σ × Option ρ) (weight : σ → ℕ)
    (used : σ → List PublicKey) (entries : σ → List γ) : Prop where
  again : ∀ s x, author x ∈ used s → step s x = (s, none)
  more : ∀ s x, author x ∉ used s → weight s + committee.stake (author x) < 2 ^ 32 →
    weight s + committee.stake (author x) < committee.quorumThreshold →
    weight (step s x).1 = weight s + committee.stake (author x) ∧
    used (step s x).1 = author x :: used s ∧
    entries (step s x).1 = entries s ++ [entry x] ∧ (step s x).2 = none
  full : ∀ s x, author x ∉ used s → weight s + committee.stake (author x) < 2 ^ 32 →
    committee.quorumThreshold ≤ weight s + committee.stake (author x) →
    weight (step s x).1 = 0 ∧ used (step s x).1 = author x :: used s ∧
    (step s x).2 = some (yielded x (entries s ++ [entry x]))

/-- The aggregator counts what has been appended. -/
def Counts (committee : Committee PublicKey) (author : β → PublicKey) (entry : β → γ)
    (weight : σ → ℕ) (used : σ → List PublicKey) (entries : σ → List γ) (s : σ) (l : List β) :
    Prop :=
  ∃ kept, (held author committee.stake l < committee.quorumThreshold →
      entries s = kept.map entry) ∧
    Counting author committee.stake committee.quorumThreshold (weight s) (used s) kept l

/-- What is put out for `x` after `l`: something exactly if `x` completes the quorum, and
    then it is made from the entries of a quorum of different authors. -/
def Announces (committee : Committee PublicKey) (author : β → PublicKey) (entry : β → γ)
    (yielded : β → List γ → ρ) (l : List β) (x : β) (out : Option ρ) : Prop :=
  ((∃ r, out = some r) ↔ AtQuorum author committee.stake committee.quorumThreshold l x) ∧
  ∀ r, out = some r → ∃ counted, r = yielded x (counted.map entry) ∧
    counted.Sublist (l ++ [x]) ∧ (counted.map author).Nodup ∧
    committee.quorumThreshold ≤ held author committee.stake counted

theorem announces_none {l : List β} {x : β}
    (h : ¬AtQuorum author committee.stake committee.quorumThreshold l x) :
    Announces committee author entry yielded l x none :=
  ⟨⟨fun ⟨_, hr⟩ => (nomatch hr), fun hq => absurd hq h⟩, fun _ hr => (nomatch hr)⟩

/-- One append. -/
theorem Aggregates.announces
    (ha : Aggregates committee author entry yielded step weight used entries)
    (hlt : committee.total < 2 ^ 31) {s : σ} {l : List β} (x : β)
    (hc : Counts committee author entry weight used entries s l) :
    Counts committee author entry weight used entries (step s x).1 (l ++ [x]) ∧
      Announces committee author entry yielded l x (step s x).2 := by
  obtain ⟨kept, hkept, hcounting⟩ := hc
  have hmax : ∀ l' : List β, held author committee.stake l' ≤ committee.total := by
    exact fun l' => committee.stakeOf_le_total _
  by_cases hused : author x ∈ used s
  · obtain ⟨hcounting', hnot⟩ := hcounting.again hused
    rw [ha.again s x hused]
    refine ⟨⟨kept, fun h => hkept ?_, hcounting'⟩, announces_none hnot⟩
    exact held_le_snoc.trans_lt h
  · have hstake : weight s + committee.stake (author x) ≤ committee.total := by
      have h₁ := hcounting.weight_le
      have h₂ := hmax (l ++ [x])
      rw [held_snoc_of_notMem fun hmem => hused ((hcounting.used _).mpr hmem)] at h₂
      omega
    rcases Nat.lt_or_ge (weight s + committee.stake (author x)) committee.quorumThreshold
      with hless | hge
    · obtain ⟨hweight, hused', hentries, hout⟩ := ha.more s x hused (by omega) hless
      obtain ⟨hcounting', hnot⟩ := hcounting.more hused hless
      rw [hout]
      refine ⟨⟨kept ++ [x], fun h => ?_, by rwa [hweight, hused']⟩, announces_none hnot⟩
      rw [hentries, hkept (held_le_snoc.trans_lt h), List.map_append, List.map_singleton]
    · obtain ⟨hweight, hused', hout⟩ := ha.full s x hused (by omega) hge
      obtain ⟨hcounting', hat, hsub, hnodup, hquorum⟩ :=
        hcounting.full kept hused (committee.stakeOf_lt_quorum hlt _) hge
      refine ⟨⟨kept, fun h => absurd hat.2 (Nat.not_le.mpr h), by rwa [hweight, hused']⟩, ?_, ?_⟩
      · exact ⟨fun _ => hat, fun _ => ⟨_, hout⟩⟩
      · intro r hr
        rw [hout, Option.some.injEq, hkept hat.1] at hr
        refine ⟨kept ++ [x], ?_, hsub, hnodup, hquorum⟩
        rw [← hr, List.map_append, List.map_singleton]

/-- An aggregator fires once. -/
theorem Aggregates.firesOnce
    (ha : Aggregates committee author entry yielded step weight used entries)
    (hlt : committee.total < 2 ^ 31) {s : σ} (hweight : weight s = 0) (hused : used s = [])
    (hentries : entries s = []) (l : List β) :
    FiresOnce committee author (fun x counted => yielded x (counted.map entry)) l
      (outputs step s l) := by
  have hlength := length_outputs step s l
  have hs : Counts committee author entry weight used entries s [] := by
    refine ⟨[], fun _ => hentries, ?_⟩
    rw [hweight, hused]
    exact Counting.start committee.quorumThreshold_pos
  have hget : ∀ (i : ℕ) x, l[i]? = some x → ∃ out, (outputs step s l)[i]? = some out ∧
      Announces committee author entry yielded (l.take i) x out := by
    intro i x hx
    have hstep : ∀ s past x, Counts committee author entry weight used entries s past →
        Counts committee author entry weight used entries (step s x).1 (past ++ [x]) :=
      fun _ _ x hc => (ha.announces hlt x hc).1
    obtain ⟨s', hs', ho⟩ := outputs_getElem? step hstep hs hx
    exact ⟨_, ho, (ha.announces hlt x hs').2⟩
  have htake : ∀ (i : ℕ) x, l[i]? = some x → l.take (i + 1) = l.take i ++ [x] := by
    intro i x hx
    rw [List.take_add_one, hx]
    rfl
  have hfires : ∀ i : ℕ, (∃ r, (outputs step s l)[i]? = some (some r)) ↔ i < l.length ∧
      held author committee.stake (l.take i) < committee.quorumThreshold ∧
      committee.quorumThreshold ≤ held author committee.stake (l.take (i + 1)) := by
    intro i
    by_cases hi : i < l.length
    · have hx : l[i]? = some l[i] := List.getElem?_eq_getElem hi
      obtain ⟨out, ho, hiff, -⟩ := hget i _ hx
      rw [htake i _ hx, ho, and_iff_right hi]
      simp only [Option.some.injEq]
      exact hiff
    · have hnone : (outputs step s l)[i]? = none :=
        List.getElem?_eq_none (hlength ▸ Nat.not_lt.mp hi)
      rw [hnone]
      exact ⟨fun ⟨_, h⟩ => (nomatch h), fun h => absurd h.1 hi⟩
  refine ⟨hlength, hfires, fun i j r r' hi hj => ?_, fun i r hr => ?_⟩
  · exact atQuorum_unique ((hfires i).mp ⟨r, hi⟩).2 ((hfires j).mp ⟨r', hj⟩).2
  · obtain ⟨hi, -, -⟩ := (hfires i).mp ⟨r, hr⟩
    have hx : l[i]? = some l[i] := List.getElem?_eq_getElem hi
    obtain ⟨out, ho, -, hmade⟩ := hget i _ hx
    rw [ho, Option.some.injEq] at hr
    obtain ⟨counted, hr, hsub, hnodup, hquorum⟩ := hmade r hr
    exact ⟨l[i], counted, hx, hr, htake i _ hx ▸ hsub, hnodup, hquorum⟩

end Aggregates

/-! ## The two aggregators -/

section Aggregators

variable {committee : Committee PublicKey}

namespace VotesAggregator

/-- Appending a vote for a header. On an error there is no certificate. -/
def step (committee : Committee PublicKey) (agg : VotesAggregator PublicKey Signature)
    (x : Vote PublicKey Digest Signature × Header PublicKey Digest Signature) :
    VotesAggregator PublicKey Signature × Option (Certificate PublicKey Digest Signature) :=
  match agg.append x.1 committee x.2 with
  | .ok r => r
  | .error _ => (agg, none)

theorem aggregates : Aggregates committee
    (fun x : Vote PublicKey Digest Signature × Header PublicKey Digest Signature => x.1.author)
    (fun x => (x.1.author, x.1.signature)) (fun x votes => (⟨x.2, votes⟩ : Certificate _ _ _))
    (step committee) weight used votes where
  again agg x h := by
    unfold step append ensure
    simp [h, bind, Except.bind]
  more agg x h hlt hless := by
    unfold step append ensure
    simp [h, bind, Except.bind, u32_eq hlt, Nat.not_le.mpr hless]
  full agg x h hlt hge := by
    unfold step append ensure
    simp [h, bind, Except.bind, u32_eq hlt, hge]

end VotesAggregator

namespace CertificatesAggregator

variable [AsBytes PublicKey] [AsBytes Digest] [Sha512 Digest]

def step (committee : Committee PublicKey) (agg : CertificatesAggregator PublicKey Digest)
    (c : Certificate PublicKey Digest Signature) :
    CertificatesAggregator PublicKey Digest × Option (List Digest) := agg.append c committee

theorem aggregates : Aggregates committee
    (@Certificate.origin PublicKey Digest Signature _)
    Certificate.digest (fun _ digests => digests) (step committee) weight used certificates where
  again agg c h := by
    unfold step append
    simp [h]
  more agg c h hlt hless := by
    unfold step append
    simp [h, u32_eq hlt, Nat.not_le.mpr hless]
  full agg c h hlt hge := by
    unfold step append
    simp [h, u32_eq hlt, hge]

end CertificatesAggregator

/-- The aggregators of votes and of certificates fire once, at the quorum. -/
theorem aggregators_fire_once [AsBytes PublicKey] [AsBytes Digest] [Sha512 Digest]
    (hlt : committee.total < 2 ^ 31) :
    (∀ votes : List (Vote PublicKey Digest Signature × Header PublicKey Digest Signature),
      FiresOnce committee (fun x => x.1.author)
        (fun x counted => (⟨x.2, counted.map fun y => (y.1.author, y.1.signature)⟩ :
          Certificate PublicKey Digest Signature))
        votes (outputs (VotesAggregator.step committee) VotesAggregator.new votes)) ∧
    ∀ certificates : List (Certificate PublicKey Digest Signature),
      FiresOnce committee Certificate.origin
        (fun _ counted => counted.map Certificate.digest)
        certificates
        (outputs (CertificatesAggregator.step committee) CertificatesAggregator.new
          certificates) :=
  ⟨fun votes => VotesAggregator.aggregates.firesOnce hlt rfl rfl rfl votes,
    fun certificates => CertificatesAggregator.aggregates.firesOnce hlt rfl rfl rfl certificates⟩

end Aggregators

/-! ## Four authorities with a stake of one each -/

section Sample

open Toy

namespace QuorumSample

def committee : Committee ℕ :=
  ⟨⟨[(0, ⟨1, []⟩), (1, ⟨1, []⟩), (2, ⟨1, []⟩), (3, ⟨1, []⟩)], Committee.sorted_four⟩⟩

def header : Header ℕ ℕ Unit :=
  { author := 0, round := 1, payload := ∅, accountCounts := ∅, avgQueueDelayMs := 0
    createdAt := 0, parents := ∅, id := 5, signature := () }

/-- Authority 1 votes twice, and authorities 3 and 2 after the quorum. -/
def votes : List (Vote ℕ ℕ Unit × Header ℕ ℕ Unit) :=
  [1, 1, 0, 2, 3, 2].map fun a => (⟨5, 1, 0, a, ()⟩, header)

example : (outputs (VotesAggregator.step committee) VotesAggregator.new votes).map
    (Option.map fun c => c.votes.map Prod.fst) =
      [none, none, none, some [1, 0, 2], none, none] := by decide

end QuorumSample

open QuorumSample

theorem aggregators_fire_once_sample :
    (outputs (VotesAggregator.step committee) VotesAggregator.new votes)[3]? =
      some (some ⟨header, [(1, ()), (0, ()), (2, ())]⟩) ∧
    FiresOnce committee (fun x => x.1.author)
      (fun x counted => (⟨x.2, counted.map fun y => (y.1.author, y.1.signature)⟩ :
        Certificate ℕ ℕ Unit))
      votes (outputs (VotesAggregator.step committee) VotesAggregator.new votes) :=
  ⟨by decide, (aggregators_fire_once (by decide)).1 votes⟩

end Sample

end DagBft
