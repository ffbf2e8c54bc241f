/-
  `linked` decides reachability, in every DAG whose edges go from a round to the previous one
  (`linked_decides_path`), whatever a validator has received. The DAG of a validator is such
  a DAG (`Inv.layered`); it is pruned, and above the last committed round its paths are those
  of the whole (`linked_iff`).
-/
import DagBft.Consensus.Agreement

namespace DagBft.Consensus

variable {PublicKey Digest Signature : Type} [LinearOrder PublicKey] [LinearOrder Digest]
  [AsBytes PublicKey] [AsBytes Digest] [Sha512 Digest]

namespace Dag

variable (dag : Dag PublicKey Digest Signature) (x y : Certificate PublicKey Digest Signature)

/-- The certificate is in the map, in the row of its round. -/
def Holds : Prop := ∃ name, dag.find x.round name = some (x.digest, x)

/-- `y` is in the map, and a parent of `x`. -/
def Refers : Prop := dag.Holds y ∧ y.digest ∈ x.header.parents

/-- A path of parent references. -/
def Path : Prop := Relation.ReflTransGen dag.Refers x y

/-- The certificates are in the rows of their rounds, with their digests, and all edges go
    from a round to the previous one. -/
structure Layered : Prop where
  row : ∀ r name v, dag.find r name = some v → v.2.round = r ∧ v.1 = v.2.digest
  edge : ∀ x y, dag.Holds x → dag.Refers x y → y.round + 1 = x.round

end Dag

variable {dag : Dag PublicKey Digest Signature} {x y z : Certificate PublicKey Digest Signature}

/-- Equality of certificates does not look at the votes, and neither does the digest. -/
theorem digest_of_same (h : x.same y = true) : x.digest = y.digest := by
  obtain ⟨hid, hround, horigin⟩ := Certificate.same_iff.mp h
  unfold Certificate.digest
  rw [hid, hround, horigin]

theorem Dag.Layered.goesDown (h : dag.Layered) :
    GoesDown dag.Refers Certificate.round dag.Holds := fun x y hx hxy => ⟨hxy.1, h.edge x y hx hxy⟩

/-- One round of `linked` finds the parents in that round. -/
theorem Dag.Layered.sweeps (h : dag.Layered) {r : ℕ} (hrow : (dag r).isSome) :
    Sweeps dag.Refers Certificate.round dag.Holds (linkedStep dag) r := by
  intro parents hparents
  obtain ⟨m, hm⟩ := Option.isSome_iff_exists.mp hrow
  refine ⟨_, by rw [linkedStep, hm]; rfl, fun y => ?_⟩
  simp only [List.mem_map, List.mem_filter, List.any_eq_true, decide_eq_true_eq]
  constructor
  · rintro ⟨v, ⟨hv, x, hx, hparent⟩, rfl⟩
    obtain ⟨name, hfind⟩ := (Dag.mem_values_iff hm).mp hv
    obtain ⟨hround, hdigest⟩ := h.row r name v hfind
    refine ⟨x, hx, ⟨name, ?_⟩, hdigest ▸ hparent⟩
    rw [hround, ← hdigest]
    exact hfind
  · rintro ⟨x, hx, ⟨name, hfind⟩, hparent⟩
    obtain ⟨hpx, hround⟩ := hparents x hx
    have hdown := h.edge x y hpx ⟨⟨name, hfind⟩, hparent⟩
    obtain rfl : y.round = r := by omega
    exact ⟨(y.digest, y), ⟨(Dag.mem_values_iff hm).mpr ⟨name, hfind⟩, x, hx, hparent⟩, rfl⟩

/-- Who reaches one of two equal certificates in a lower round reaches the other one. -/
theorem Dag.Path.of_same (hlt : y.round < x.round) (hy : dag.Holds y) (h : dag.Path x z)
    (hsame : z.same y = true) : dag.Path x y := by
  rcases Relation.ReflTransGen.cases_tail h with rfl | ⟨w, hpath, hedge⟩
  · have := (Certificate.same_iff.mp hsame).2.1
    omega
  · refine Relation.ReflTransGen.tail hpath ⟨hy, ?_⟩
    rw [← digest_of_same hsame]
    exact hedge.2

/-- Where the rounds between two certificates are present `linked` does not panic, and says
    whether there is a path of parent references from the one to the other. -/
theorem linked_decides_path (dag : Dag PublicKey Digest Signature)
    (leader prevLeader : Certificate PublicKey Digest Signature) (hdag : dag.Layered)
    (hrows : ∀ r, prevLeader.round ≤ r → r < leader.round → (dag r).isSome)
    (hleader : dag.Holds leader) (hprev : dag.Holds prevLeader)
    (hlt : prevLeader.round < leader.round) :
    ∃ b, linked leader prevLeader dag = some b ∧ (b = true ↔ dag.Path leader prevLeader) := by
  have hsum : prevLeader.round + (leader.round - prevLeader.round) = leader.round := by omega
  obtain ⟨found, hfound, hmem⟩ := sweep_spec hdag.goesDown prevLeader.round
    (leader.round - prevLeader.round)
    (fun r hle hr => hdag.sweeps (hrows r hle (by omega))) [leader] fun x hx => by
      rw [List.mem_singleton.mp hx, hsum]
      exact ⟨hleader, rfl⟩
  refine ⟨found.any fun x => x.same prevLeader, by rw [linked, roundsDown_eq, hfound]; rfl, ?_⟩
  rw [List.any_eq_true]
  constructor
  · rintro ⟨x, hx, hsame⟩
    obtain ⟨-, l, hl, hpath⟩ := (hmem x).mp hx
    rw [List.mem_singleton.mp hl] at hpath
    exact Dag.Path.of_same hlt hprev hpath hsame
  · intro hpath
    exact ⟨prevLeader, (hmem prevLeader).mpr ⟨rfl, leader, List.mem_singleton_self _, hpath⟩,
      Certificate.same_iff.mpr ⟨rfl, rfl, rfl⟩⟩

/-! ## DAGs that the code builds -/

/-- The DAG of a validator, whatever it has received so far. -/
theorem Inv.layered [Inhabited PublicKey] [Inhabited Digest] [Inhabited Signature]
    {p : Params PublicKey} {D : CausalDag Digest Signature p.committee}
    {received : List (Certificate PublicKey Digest Signature)}
    {s : State PublicKey Digest Signature} (hd : Redelivery D received) (h : Inv p received s) :
    s.dag.Layered where
  row r name v hfind := ⟨(h.sound r name v hfind).2.2.1, (h.sound r name v hfind).2.1⟩
  edge x y hx hxy := by
    obtain ⟨name, hfind⟩ := hx
    obtain ⟨⟨name', hfind'⟩, hparent⟩ := hxy
    have hkx := (h.sound _ _ _ hfind).1
    have hky := (h.sound _ _ _ hfind').1
    exact CausalDag.Parent.round (hd.vertex_of_known hkx) ⟨hd.vertex_of_known hky, hparent⟩

/-- The DAG with these certificates. -/
def Dag.ofCertificates (certificates : List (Certificate PublicKey Digest Signature)) :
    Dag PublicKey Digest Signature :=
  certificates.foldl (fun dag c => dag.insert c.round c.origin (c.digest, c)) fun _ => none

theorem Dag.find_ofCertificates {certificates : List (Certificate PublicKey Digest Signature)}
    {r : ℕ} {name : PublicKey} {v : Digest × Certificate PublicKey Digest Signature}
    (h : (Dag.ofCertificates certificates).find r name = some v) :
    v.2 ∈ certificates ∧ v.2.round = r ∧ v.1 = v.2.digest := by
  induction certificates using List.reverseRecOn with
  | nil => cases h
  | append_singleton certificates c ih =>
      unfold Dag.ofCertificates at h
      rw [List.foldl_append, List.foldl_cons, List.foldl_nil, Dag.find_insert] at h
      split at h
      · rename_i heq
        obtain rfl := Option.some.inj h
        exact ⟨List.mem_append_right _ (List.mem_singleton_self _), heq.1.symm, rfl⟩
      · obtain ⟨hmem, hrest⟩ := ih h
        exact ⟨List.mem_append_left _ hmem, hrest⟩

/-- It is layered if the edges between the certificates go down one round. -/
theorem Dag.layered_ofCertificates
    {certificates : List (Certificate PublicKey Digest Signature)}
    (h : ∀ x ∈ certificates, ∀ y ∈ certificates, y.digest ∈ x.header.parents →
      y.round + 1 = x.round) : (Dag.ofCertificates certificates).Layered where
  row r name v hfind := (Dag.find_ofCertificates hfind).2
  edge x y hx hxy := by
    obtain ⟨name, hfind⟩ := hx
    obtain ⟨⟨name', hfind'⟩, hparent⟩ := hxy
    exact h x (Dag.find_ofCertificates hfind).1 y (Dag.find_ofCertificates hfind').1 hparent

/-! ### From round 4 to round 2 -/

open Toy Sample

/-- The leader of round 4 reaches the one of round 2 through authority 0. -/
def linkedCertificates : List (Certificate ℕ ℕ Unit) :=
  [cert 2 0 [], cert 2 2 [], cert 3 0 [0, 2], cert 3 1 [0], cert 4 1 [0, 1]]

theorem linked_decides_path_sample :
    ∃ b, linked (cert 4 1 [0, 1]) (cert 2 2 []) (Dag.ofCertificates linkedCertificates) = some b ∧
      (b = true ↔
        (Dag.ofCertificates linkedCertificates).Path (cert 4 1 [0, 1]) (cert 2 2 [])) := by
  refine linked_decides_path _ (cert 4 1 [0, 1]) (cert 2 2 [])
    (Dag.layered_ofCertificates (by decide +kernel)) (fun r hle hlt => ?_) ⟨1, by decide +kernel⟩
    ⟨2, by decide +kernel⟩ (by decide)
  have hle : 2 ≤ r := hle
  have hlt : r < 4 := hlt
  rcases Nat.lt_succ_iff_lt_or_eq.mp hlt with hlt | rfl
  · obtain rfl : r = 2 := by omega
    decide +kernel
  · decide +kernel

end DagBft.Consensus
