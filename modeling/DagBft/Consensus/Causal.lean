/-
  The DAG of certificates that the validators of a committee deliver, and orders of
  delivery that respect it.

  `CausalDag` is what the primaries guarantee: at most one certificate for each round
  and author, and parents of a quorum in the previous round. `reach_of_support` is the
  quorum intersection of Tusk: a certificate that f+1 stake of the next round refers to
  is an ancestor of every certificate two rounds up and beyond.
-/
import DagBft.Primary.Messages
import Mathlib.Logic.Relation

namespace DagBft

/-- `N - f`, the stake of a quorum (2f+1), without the wrap-around of
    `quorumThreshold`. -/
def Committee.quorum {PublicKey : Type} [LinearOrder PublicKey] (c : Committee PublicKey) : ℕ :=
  2 * c.total / 3 + 1

namespace Consensus

variable {PublicKey Digest Signature : Type} [LinearOrder PublicKey] [LinearOrder Digest]
  [AsBytes PublicKey] [AsBytes Digest] [Sha512 Digest]
  [Inhabited PublicKey] [Inhabited Digest] [Inhabited Signature]

/-- A set of certificates of rounds from 1 on. The vertices are these and the genesis
    certificates, which form round 0. -/
structure CausalDag (Digest Signature : Type) [LinearOrder Digest] [AsBytes Digest]
    [Sha512 Digest] [Inhabited Digest] [Inhabited Signature]
    (committee : Committee PublicKey) where
  certs : Set (Certificate PublicKey Digest Signature)
  round_pos : ∀ c ∈ certs, 0 < c.round
  /-- At most one certificate for each round and author. -/
  unique : ∀ c ∈ certs, ∀ c' ∈ certs, c.round = c'.round → c.origin = c'.origin → c = c'
  /-- A digest refers to one vertex. -/
  digest_inj : ∀ c c' : Certificate PublicKey Digest Signature,
    (c ∈ certs ∨ c ∈ Certificate.genesis committee) →
    (c' ∈ certs ∨ c' ∈ Certificate.genesis committee) → c.digest = c'.digest → c = c'
  /-- The parents of a certificate are vertices of the previous round. -/
  parents : ∀ c ∈ certs, ∀ d ∈ c.header.parents, ∃ p,
    (p ∈ certs ∨ p ∈ Certificate.genesis committee) ∧ p.digest = d ∧ p.round + 1 = c.round
  /-- The authors of the parents hold the stake of a quorum. -/
  quorum : ∀ c ∈ certs, ∃ s : Finset PublicKey, committee.quorum ≤ committee.stakeOf s ∧
    ∀ a ∈ s, ∃ p, (p ∈ certs ∨ p ∈ Certificate.genesis committee) ∧
      p.digest ∈ c.header.parents ∧ p.origin = a

variable {committee : Committee PublicKey}

namespace CausalDag

/-- The certificates and the genesis certificates. -/
def Vertex (D : CausalDag Digest Signature committee)
    (c : Certificate PublicKey Digest Signature) : Prop :=
  c ∈ D.certs ∨ c ∈ Certificate.genesis committee

/-- `p` is a parent of `c`. -/
def Parent (D : CausalDag Digest Signature committee)
    (c p : Certificate PublicKey Digest Signature) : Prop :=
  D.Vertex p ∧ p.digest ∈ c.header.parents

/-- `p` is in the causal history of `c`. -/
def Reach (D : CausalDag Digest Signature committee) :
    Certificate PublicKey Digest Signature → Certificate PublicKey Digest Signature → Prop :=
  Relation.ReflTransGen D.Parent

variable {D : CausalDag Digest Signature committee}
  {c c' p : Certificate PublicKey Digest Signature}

theorem not_parent_genesis (h : c ∈ Certificate.genesis committee) : ¬ D.Parent c p := by
  intro hp
  have hmem := hp.2
  rw [Certificate.parents_genesis h] at hmem
  exact OrdSet.notMem_empty _ hmem

theorem mem_certs_of_round (h : D.Vertex c) (hr : 0 < c.round) : c ∈ D.certs := by
  rcases h with h | h
  · exact h
  · exact absurd (Certificate.round_genesis h) (by omega)

theorem Parent.mem_left (hc : D.Vertex c) (h : D.Parent c p) : c ∈ D.certs := by
  rcases hc with hc | hc
  · exact hc
  · exact absurd h (not_parent_genesis hc)

theorem Parent.round (hc : D.Vertex c) (h : D.Parent c p) : p.round + 1 = c.round := by
  obtain ⟨q, hq, hd, hr⟩ := D.parents c (h.mem_left hc) _ h.2
  rwa [D.digest_inj p q h.1 hq hd.symm]

theorem Reach.vertex (hc : D.Vertex c) (h : D.Reach c p) : D.Vertex p := by
  induction h with
  | refl => exact hc
  | tail _ hstep _ => exact hstep.1

theorem Reach.round_le (hc : D.Vertex c) (h : D.Reach c p) : p.round ≤ c.round := by
  induction h with
  | refl => exact le_refl _
  | tail hreach hstep ih =>
      have := hstep.round (Reach.vertex hc hreach)
      omega

theorem Reach.eq_of_round (hc : D.Vertex c) (h : D.Reach c p) (hr : c.round ≤ p.round) :
    p = c := by
  rcases Relation.ReflTransGen.cases_head h with rfl | ⟨q, hq, hreach⟩
  · rfl
  · have h1 := Parent.round hc hq
    have h2 := Reach.round_le hq.1 hreach
    omega

theorem unique_vertex (hc : D.Vertex c) (hc' : D.Vertex c') (hr : c.round = c'.round)
    (ho : c.origin = c'.origin) : c = c' := by
  rcases hc with hc | hc <;> rcases hc' with hc' | hc'
  · exact D.unique c hc c' hc' hr ho
  · have h1 := Certificate.round_genesis hc'
    have h2 := D.round_pos c hc
    omega
  · have h1 := Certificate.round_genesis hc
    have h2 := D.round_pos c' hc'
    omega
  · obtain ⟨n, -, rfl⟩ := Certificate.mem_genesis.mp hc
    obtain ⟨n', -, rfl⟩ := Certificate.mem_genesis.mp hc'
    change n = n' at ho
    rw [ho]

/-- A certificate has a parent. -/
theorem exists_parent (hc : c ∈ D.certs) : ∃ p, D.Parent c p := by
  obtain ⟨s, hs, hp⟩ := D.quorum c hc
  have hne : s.Nonempty := by
    rw [Finset.nonempty_iff_ne_empty]
    rintro rfl
    simp [Committee.stakeOf, Committee.quorum] at hs
  obtain ⟨a, ha⟩ := hne
  obtain ⟨p, hpv, hpd, -⟩ := hp a ha
  exact ⟨p, hpv, hpd⟩

/-! ## Quorum intersection -/

/-- The authors in `s` issued in round `r` certificates that refer to `l`. -/
def Supports (D : CausalDag Digest Signature committee)
    (l : Certificate PublicKey Digest Signature) (s : Finset PublicKey) : Prop :=
  ∀ a ∈ s, ∃ x ∈ D.certs, x.origin = a ∧ x.round = l.round + 1 ∧ l.digest ∈ x.header.parents

/-- Two rounds above a supported certificate: one of the parents is a supporter. -/
theorem reach_of_support_two {l : Certificate PublicKey Digest Signature} {s : Finset PublicKey}
    (hl : D.Vertex l) (hs : D.Supports l s)
    (hq : committee.total < committee.quorum + committee.stakeOf s)
    (hc : c ∈ D.certs) (hr : c.round = l.round + 2) : D.Reach c l := by
  obtain ⟨t, ht, hp⟩ := D.quorum c hc
  have hlt : committee.total < committee.stakeOf t + committee.stakeOf s := by omega
  obtain ⟨a, hat, has⟩ := Committee.stakeOf_inter hlt
  obtain ⟨p, hpv, hpd, hpo⟩ := hp a hat
  obtain ⟨x, hx, hxo, hxr, hxd⟩ := hs a has
  have hpc : D.Parent c p := ⟨hpv, hpd⟩
  have hpr := hpc.round (Or.inl hc)
  -- the parent and the supporter are one certificate, since authors do not equivocate
  have hpx : p = x := unique_vertex hpv (Or.inl hx) (by omega) (by rw [hpo, hxo])
  subst hpx
  exact (Relation.ReflTransGen.single hpc).tail ⟨hl, hxd⟩

/-- A certificate supported by enough stake of the next round is an ancestor of every
    certificate two rounds up and beyond. -/
theorem reach_of_support {l : Certificate PublicKey Digest Signature} {s : Finset PublicKey}
    (hl : D.Vertex l) (hs : D.Supports l s)
    (hq : committee.total < committee.quorum + committee.stakeOf s)
    (hc : c ∈ D.certs) (hr : l.round + 2 ≤ c.round) : D.Reach c l := by
  obtain ⟨k, hk⟩ := Nat.exists_eq_add_of_le hr
  induction k generalizing c with
  | zero => exact reach_of_support_two hl hs hq hc (by omega)
  | succ k ih =>
      obtain ⟨p, hp⟩ := D.exists_parent hc
      have hpr := hp.round (Or.inl hc)
      have hpc : p ∈ D.certs := mem_certs_of_round hp.1 (by omega)
      exact Relation.ReflTransGen.head hp (ih hpc (by omega) (by omega))

end CausalDag

/-! ## Finite DAGs

Every condition on a finite DAG can be evaluated. -/

/-- The DAG of the certificates in a list. -/
def CausalDag.ofList (l : List (Certificate PublicKey Digest Signature))
    (round_pos : ∀ c ∈ l, 0 < c.round)
    (unique : ∀ c ∈ l, ∀ c' ∈ l, c.round = c'.round → c.origin = c'.origin → c = c')
    (digest_inj : ∀ c ∈ l ++ Certificate.genesis committee,
      ∀ c' ∈ l ++ Certificate.genesis committee, c.digest = c'.digest → c = c')
    (parents : ∀ c ∈ l, ∀ d ∈ c.header.parents.toList,
      ∃ p ∈ l ++ Certificate.genesis committee, p.digest = d ∧ p.round + 1 = c.round)
    (quorum : ∀ c ∈ l, committee.quorum ≤ committee.stakeOf
      (((l ++ Certificate.genesis committee).filter
        fun p : Certificate PublicKey Digest Signature =>
          decide (p.digest ∈ c.header.parents)).map Certificate.origin).toFinset) :
    CausalDag Digest Signature committee where
  certs := { c | c ∈ l }
  round_pos := round_pos
  unique := unique
  digest_inj c c' hc hc' := digest_inj c (List.mem_append.mpr hc) c' (List.mem_append.mpr hc')
  parents c hc d hd := by
    obtain ⟨p, hp, h⟩ := parents c hc d hd
    exact ⟨p, List.mem_append.mp hp, h⟩
  quorum c hc := by
    refine ⟨_, quorum c hc, ?_⟩
    intro a ha
    obtain ⟨p, hp, rfl⟩ := List.mem_map.mp (List.mem_toFinset.mp ha)
    obtain ⟨hmem, hpar⟩ := List.mem_filter.mp hp
    exact ⟨p, List.mem_append.mp hmem, by simpa using hpar, rfl⟩

/-! ## Delivery -/

/-- An order of delivery: each certificate of the DAG at most once, after its parents. -/
structure Delivery (D : CausalDag Digest Signature committee)
    (received : List (Certificate PublicKey Digest Signature)) : Prop where
  nodup : received.Nodup
  mem : ∀ c ∈ received, c ∈ D.certs
  causal : ∀ pre c post, received = pre ++ c :: post →
    ∀ p ∈ D.certs, p.digest ∈ c.header.parents → p ∈ pre

/-- An order of delivery in which a certificate may come again, at any later moment. -/
structure Redelivery (D : CausalDag Digest Signature committee)
    (received : List (Certificate PublicKey Digest Signature)) : Prop where
  mem : ∀ c ∈ received, c ∈ D.certs
  causal : ∀ pre c post, received = pre ++ c :: post →
    ∀ p ∈ D.certs, p.digest ∈ c.header.parents → p ∈ pre

theorem Delivery.redelivery {D : CausalDag Digest Signature committee}
    {received : List (Certificate PublicKey Digest Signature)} (h : Delivery D received) :
    Redelivery D received := ⟨h.mem, h.causal⟩

/-- An order of delivery of a finite DAG, checked position by position. -/
theorem Redelivery.ofList {D : CausalDag Digest Signature committee}
    {received l : List (Certificate PublicKey Digest Signature)} (hl : D.certs = { c | c ∈ l })
    (mem : ∀ c ∈ received, c ∈ l)
    (causal : ∀ i ∈ List.range received.length, ∀ c ∈ received[i]?, ∀ p ∈ l,
      p.digest ∈ c.header.parents → p ∈ received.take i) : Redelivery D received where
  mem c hc := hl ▸ mem c hc
  causal pre c post he p hp hpar := by
    have hlen : pre.length < received.length := by simp [he]
    have hc : received[pre.length]? = some c := by simp [he]
    have hpl : p ∈ l := by rwa [hl] at hp
    have := causal pre.length (List.mem_range.mpr hlen) c hc p hpl hpar
    rwa [he, List.take_left] at this

theorem Delivery.ofList {D : CausalDag Digest Signature committee}
    {received l : List (Certificate PublicKey Digest Signature)} (hl : D.certs = { c | c ∈ l })
    (nodup : received.Nodup) (mem : ∀ c ∈ received, c ∈ l)
    (causal : ∀ i ∈ List.range received.length, ∀ c ∈ received[i]?, ∀ p ∈ l,
      p.digest ∈ c.header.parents → p ∈ received.take i) : Delivery D received where
  nodup := nodup
  mem := (Redelivery.ofList hl mem causal).mem
  causal := (Redelivery.ofList hl mem causal).causal

namespace Redelivery

variable {D : CausalDag Digest Signature committee}
  {received : List (Certificate PublicKey Digest Signature)}
  {c : Certificate PublicKey Digest Signature}

/-- What was delivered at an earlier moment is delivered in order. -/
theorem of_append {rest : List (Certificate PublicKey Digest Signature)}
    (h : Redelivery D (received ++ rest)) : Redelivery D received where
  mem x hx := h.mem x (List.mem_append_left _ hx)
  causal pre x post he := h.causal pre x (post ++ rest) (by rw [he]; simp)

theorem last_mem (h : Redelivery D (received ++ [c])) : c ∈ D.certs := h.mem c (by simp)

/-- The causal history of what has been delivered has been delivered. -/
theorem mem_of_reach (h : Redelivery D received) {p : Certificate PublicKey Digest Signature}
    (hc : c ∈ received) (hr : D.Reach c p) :
    p ∈ received ∨ p ∈ Certificate.genesis committee := by
  induction hr with
  | refl => exact Or.inl hc
  | tail _ hstep ih =>
      rcases ih with ih | ih
      · rcases hstep.1 with hp | hp
        · obtain ⟨pre, post, he⟩ := List.append_of_mem ih
          left
          rw [he]
          exact List.mem_append_left _ (h.causal pre _ post he _ hp hstep.2)
        · exact Or.inr hp
      · exact absurd hstep (CausalDag.not_parent_genesis ih)

end Redelivery

theorem Delivery.of_append {D : CausalDag Digest Signature committee}
    {received rest : List (Certificate PublicKey Digest Signature)}
    (h : Delivery D (received ++ rest)) : Delivery D received where
  nodup := (List.nodup_append.mp h.nodup).1
  mem := h.redelivery.of_append.mem
  causal := h.redelivery.of_append.causal

end Consensus

end DagBft
