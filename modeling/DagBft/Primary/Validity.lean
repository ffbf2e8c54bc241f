/-
  What `Certificate::verify` guarantees (`primary/src/messages.rs`).

  A certificate that does not pass for a genesis certificate is certified: its id is the
  digest of its header and a quorum of the committee has signed it
  (`certified_of_verify`). One that passes for a genesis certificate is accepted as it is,
  so that `verify` is sound exactly for those that really are genesis certificates
  (`verify_sound_iff`).
-/
import DagBft.Primary.Core

namespace DagBft.Certificate

variable {PublicKey Digest Signature : Type} [LinearOrder PublicKey] [LinearOrder Digest]

/-! ## The loop over the votes -/

omit [LinearOrder Digest] in
/-- The loop succeeds if the voters are distinct, were not used before and have stake. -/
theorem checkVotes_eq_ok {committee : Committee PublicKey} {votes : List (PublicKey × Signature)}
    {used : List PublicKey} {w w' : ℕ} :
    (checkVotes committee votes used w : Except (DagError PublicKey Digest) ℕ) = .ok w' ↔
      (votes.map Prod.fst).Nodup ∧ (∀ v ∈ votes, v.1 ∉ used ∧ 0 < committee.stake v.1) ∧
        (votes.map fun v => committee.stake v.1).foldl (fun a b => u32 (a + b)) w = w' := by
  induction votes generalizing used w with
  | nil => simp [checkVotes]
  | cons v votes ih =>
      obtain ⟨name, signature⟩ := v
      rw [checkVotes, ensure_bind_eq_ok, ensure_bind_eq_ok, ih, decide_eq_true_eq,
        decide_eq_true_eq, List.map_cons, List.nodup_cons, List.map_cons, List.foldl_cons,
        List.forall_mem_cons]
      have hmem : (∀ v ∈ votes, v.1 ∉ name :: used ∧ 0 < committee.stake v.1) ↔
          name ∉ votes.map Prod.fst ∧ ∀ v ∈ votes, v.1 ∉ used ∧ 0 < committee.stake v.1 := by
        constructor
        · intro h
          refine ⟨fun hname => ?_, fun v hv => ⟨fun hu => (h v hv).1 (List.mem_cons_of_mem _ hu),
            (h v hv).2⟩⟩
          obtain ⟨v, hv, rfl⟩ := List.mem_map.mp hname
          exact (h v hv).1 List.mem_cons_self
        · intro h v hv
          refine ⟨fun hu => ?_, (h.2 v hv).2⟩
          rcases List.mem_cons.mp hu with he | hu
          · exact h.1 (he ▸ List.mem_map_of_mem hv)
          · exact (h.2 v hv).1 hu
      rw [hmem]
      tauto

/-! ## Soundness -/

variable [AsBytes PublicKey] [AsBytes Digest] [Sha512 Digest] [Inhabited PublicKey]
  [Inhabited Digest] [Inhabited Signature] [Ed25519 PublicKey Digest Signature]

/-- A quorum of the committee has signed the certificate of the header. -/
structure Certified (c : Certificate PublicKey Digest Signature)
    (committee : Committee PublicKey) : Prop where
  identified : c.header.id = c.header.digest
  distinct : (c.votes.map Prod.fst).Nodup
  members : ∀ v ∈ c.votes, v.1 ∈ committee.keys
  quorum : committee.quorumThreshold ≤ (c.votes.map fun v => committee.stake v.1).sum
  signed : ∀ v ∈ c.votes, Ed25519.verify v.2 c.digest v.1 = true

omit [AsBytes PublicKey] [AsBytes Digest] [Sha512 Digest] [Inhabited PublicKey]
  [Inhabited Digest] [Inhabited Signature] [Ed25519 PublicKey Digest Signature] in
theorem mem_keys_of_stake {committee : Committee PublicKey} {name : PublicKey}
    (h : 0 < committee.stake name) : name ∈ committee.keys := by
  by_contra hnot
  rw [Committee.stake_of_notMem hnot] at h
  exact absurd h (lt_irrefl 0)

/-- What does not pass for a genesis certificate is accepted only if it is certified. -/
theorem certified_of_verify {c : Certificate PublicKey Digest Signature}
    {committee : Committee PublicKey} {u : Unit}
    (hbatch : Ed25519.verifyBatch c.digest c.votes = true →
      ∀ v ∈ c.votes, Ed25519.verify v.2 c.digest v.1 = true)
    (hg : (genesis committee).any (·.same c) = false) (h : c.verify committee = .ok u) :
    c.Certified committee := by
  obtain ⟨hheader, weight, hweight, hquorum, hsigned⟩ := (verify_eq_ok hg).mp h
  obtain ⟨hdistinct, hstake, hsum⟩ := checkVotes_eq_ok.mp hweight
  refine ⟨(Header.verify_eq_ok.mp hheader).1.symm, hdistinct,
    fun v hv => mem_keys_of_stake (hstake v hv).2, ?_, hbatch hsigned⟩
  rw [foldl_u32 _ (Nat.two_pow_pos 32), Nat.zero_add] at hsum
  calc committee.quorumThreshold ≤ weight := hquorum
    _ = u32 (c.votes.map fun v => committee.stake v.1).sum := hsum.symm
    _ ≤ (c.votes.map fun v => committee.stake v.1).sum := Nat.mod_le _ _

/-- `verify` accepts only genesis certificates and certified ones, exactly if what passes
    for a genesis certificate is one. The hash is taken not to give the digest of
    `Header::default` to the header, and a batch verification to verify each signature. -/
theorem verify_sound_iff (committee : Committee PublicKey)
    (c : Certificate PublicKey Digest Signature) (hzero : c.header.digest ≠ default)
    (hbatch : Ed25519.verifyBatch c.digest c.votes = true →
      ∀ v ∈ c.votes, Ed25519.verify v.2 c.digest v.1 = true) :
    (c.verify committee = .ok () → c ∈ genesis committee ∨ c.Certified committee) ↔
      (c.header.id = default ∧ c.round = 0 ∧ c.origin ∈ committee.keys →
        c ∈ genesis committee) := by
  have hshortcut : (genesis committee).any (·.same c) = true ↔
      c.header.id = default ∧ c.round = 0 ∧ c.origin ∈ committee.keys := by
    rw [List.any_eq_true]
    constructor
    · rintro ⟨g, hg, hsame⟩
      obtain ⟨hid, hround, horigin⟩ := same_iff.mp hsame
      obtain ⟨name, hname, rfl⟩ := mem_genesis.mp hg
      exact ⟨hid.symm, hround.symm, horigin ▸ hname⟩
    · rintro ⟨hid, hround, horigin⟩
      exact ⟨_, mem_genesis.mpr ⟨c.origin, horigin, rfl⟩, same_iff.mpr ⟨hid.symm, hround.symm, rfl⟩⟩
  rw [← hshortcut]
  constructor
  · intro hsound hg
    have haccept : c.verify committee = .ok () := by
      unfold verify
      rw [if_pos hg]
    rcases hsound haccept with hmem | hcert
    · exact hmem
    · -- the id is that of the default header, so it is not the digest of this one
      exact absurd (hcert.identified.symm.trans (hshortcut.mp hg).1) hzero
  · intro hgenesis haccept
    cases hg : (genesis committee).any (·.same c) with
    | true => exact Or.inl (hgenesis hg)
    | false => exact Or.inr (certified_of_verify hbatch hg haccept)

section Sample

open Toy

namespace ValiditySample

def committee : Committee ℕ :=
  ⟨⟨[(0, ⟨1, []⟩), (1, ⟨1, []⟩), (2, ⟨1, []⟩), (3, ⟨1, []⟩)], Committee.sorted_four⟩⟩

/-- A header of round 1, with the votes of three of the four authorities. -/
def voted : Certificate ℕ ℕ Unit :=
  let h : Header ℕ ℕ Unit := { (default : Header ℕ ℕ Unit) with author := 0, round := 1 }
  ⟨{ h with id := h.digest }, [(0, ()), (1, ()), (2, ())]⟩

/-- A certificate of round 0 without votes, with a parent. -/
def forged : Certificate ℕ ℕ Unit :=
  ⟨{ (default : Header ℕ ℕ Unit) with author := 0, parents := OrdSet.ofList [7] }, []⟩

end ValiditySample

open ValiditySample

theorem verify_sound_iff_sample :
    (voted.verify committee = .ok () →
      voted ∈ genesis committee ∨ voted.Certified committee) ↔
      (voted.header.id = default ∧ voted.round = 0 ∧ voted.origin ∈ committee.keys →
        voted ∈ genesis committee) :=
  verify_sound_iff committee voted (by decide) (fun _ _ _ => rfl)

/-- A certificate that nobody voted for is accepted for its id, round and origin. -/
theorem forged_accepted :
    ¬ ∀ (committee : Committee ℕ) (c : Certificate ℕ ℕ Unit), c.header.digest ≠ default →
        (Ed25519.verifyBatch c.digest c.votes = true →
          ∀ v ∈ c.votes, Ed25519.verify v.2 c.digest v.1 = true) →
        c.verify committee = .ok () → c ∈ genesis committee ∨ c.Certified committee := by
  intro h
  rcases h committee forged (by decide) (fun _ _ _ => rfl) (by decide) with hmem | hcert
  · exact absurd hmem (by decide)
  · exact absurd hcert.quorum (by decide)

end Sample

end DagBft.Certificate
