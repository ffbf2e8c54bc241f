/-
  The sequence of committed leaders is the same at every validator.

  `pastLeaders` is the walk of `order_leaders` over the whole DAG, with causal history
  in place of `linked`: it does not mention what a validator has received or pruned.
  `orderLeaders_eq` shows that the code computes it. A leader with f+1 support cannot be
  stepped over by the walk of a later one (`pastLeaders_split`), so the leaders committed
  so far are always `chain` of the last one elected, and two chains are comparable.
-/
import DagBft.Consensus.Commit
import DagBft.Lib.Sweep

namespace DagBft.Consensus

/-! ## The rounds that are walked -/

theorem roundsDown_eq (lo hi : ℕ) : roundsDown lo hi = layersDown lo (hi - lo) := rfl

theorem mem_stepDown {lo hi r : ℕ} (h : r ∈ stepDown lo hi) : lo ≤ r ∧ r ≤ hi := by
  unfold stepDown at h
  split at h
  · obtain ⟨k, hk, rfl⟩ := List.mem_map.mp h
    have := List.mem_range.mp hk
    omega
  · simp at h

theorem sorted_stepDown (lo hi : ℕ) : (stepDown lo hi).Pairwise fun r r' => r' < r := by
  unfold stepDown
  split
  · rw [List.pairwise_map]
    refine List.pairwise_lt_range.imp_of_mem ?_
    intro k k' hk hk' hlt
    have := List.mem_range.mp hk
    have := List.mem_range.mp hk'
    omega
  · exact List.Pairwise.nil

/-- Walking from a leader round `m` down to 2 passes through every leader round `l`. -/
theorem stepDown_split {l m : ℕ} (hl : l % 2 = 0) (hm : m % 2 = 0) (hl0 : 2 ≤ l)
    (hlm : l + 2 ≤ m) :
    stepDown 2 (m - 2) = stepDown (l + 2) (m - 2) ++ l :: stepDown 2 (l - 2) := by
  obtain ⟨a, rfl⟩ : ∃ a, l = 2 * (a + 1) := ⟨l / 2 - 1, by omega⟩
  obtain ⟨b, rfl⟩ : ∃ b, m = 2 * (a + 1) + 2 * (b + 1) := ⟨(m - 2 * (a + 1)) / 2 - 1, by omega⟩
  have hrange : ∀ n k, (List.range n).map (fun i => 2 * (n + k) - 2 * i) =
      stepDown (2 * k + 2) (2 * (n + k)) := by
    intro n k
    unfold stepDown
    cases n with
    | zero => rw [if_neg (by omega)]; rfl
    | succ n =>
        rw [if_pos (by omega)]
        rw [show (2 * (n + 1 + k) - (2 * k + 2)) / 2 + 1 = n + 1 by omega]
  have h1 := hrange (b + (a + 1)) 0
  have h2 := hrange b (a + 1)
  have h3 := hrange a 0
  rw [show 2 * (a + 1) + 2 * (b + 1) - 2 = 2 * (b + (a + 1) + 0) by omega,
    show 2 * (a + 1) - 2 = 2 * (a + 0) by omega]
  rw [show stepDown 2 (2 * (b + (a + 1) + 0)) = stepDown (2 * 0 + 2) (2 * (b + (a + 1) + 0))
      from rfl,
    show stepDown 2 (2 * (a + 0)) = stepDown (2 * 0 + 2) (2 * (a + 0)) from rfl, ← h1, ← h3,
    show 2 * (b + (a + 1) + 0) = 2 * (b + (a + 1)) by omega, ← h2, List.range_add, List.map_append,
    List.range_succ_eq_map, List.map_cons, List.map_cons, List.map_map, List.map_map]
  congr 1
  refine List.cons_eq_cons.mpr ⟨by omega, ?_⟩
  refine List.map_congr_left fun i _ => ?_
  simp only [Function.comp_apply]
  omega

variable {PublicKey Digest Signature : Type} [LinearOrder PublicKey] [LinearOrder Digest]
  [AsBytes PublicKey] [AsBytes Digest] [Sha512 Digest]
  [Inhabited PublicKey] [Inhabited Digest] [Inhabited Signature]

variable {p : Params PublicKey}

/-! ## The walk over the whole DAG -/

namespace CausalDag

/-- `l` is the certificate of the leader elected for its round. -/
def IsLeader (D : CausalDag Digest Signature p.committee)
    (l : Certificate PublicKey Digest Signature) : Prop :=
  l ∈ D.certs ∧ p.leaderKey l.round = some l.origin

open Classical in
/-- Walk over the rounds: a leader found in the causal history of the last one is
    committed and takes its place. -/
noncomputable def pastLeaders (D : CausalDag Digest Signature p.committee) :
    Certificate PublicKey Digest Signature → List ℕ → List (Certificate PublicKey Digest Signature)
  | _, [] => []
  | l, r :: rs =>
      if h : ∃ q, D.IsLeader q ∧ q.round = r ∧ D.Reach l q then
        h.choose :: pastLeaders D h.choose rs
      else pastLeaders D l rs

/-- All leaders committed once `l` is, oldest first. -/
noncomputable def chain (D : CausalDag Digest Signature p.committee)
    (l : Certificate PublicKey Digest Signature) : List (Certificate PublicKey Digest Signature) :=
  (l :: D.pastLeaders l (stepDown 2 (l.round - 2))).reverse

/-- Certificates of the next round by authorities with f+1 stake refer to `l`. -/
def Supported (D : CausalDag Digest Signature p.committee)
    (l : Certificate PublicKey Digest Signature) : Prop :=
  ∃ s, D.Supports l s ∧ p.committee.total < p.committee.quorum + p.committee.stakeOf s

variable {D : CausalDag Digest Signature p.committee}
  {l m q : Certificate PublicKey Digest Signature}

theorem IsLeader.unique (hl : D.IsLeader l) (hm : D.IsLeader m) (hr : l.round = m.round) :
    l = m := by
  have ho : some l.origin = some m.origin := by rw [← hl.2, ← hm.2, hr]
  exact D.unique l hl.1 m hm.1 hr (Option.some.inj ho)

theorem pastLeaders_cons_of (hq : D.IsLeader q) (hreach : D.Reach l q) (rs : List ℕ) :
    D.pastLeaders l (q.round :: rs) = q :: D.pastLeaders q rs := by
  have h : ∃ q', D.IsLeader q' ∧ q'.round = q.round ∧ D.Reach l q' := ⟨q, hq, rfl, hreach⟩
  have he : h.choose = q := h.choose_spec.1.unique hq h.choose_spec.2.1
  rw [pastLeaders, dif_pos h, he]

theorem pastLeaders_cons_of_not {r : ℕ}
    (h : ¬ ∃ q, D.IsLeader q ∧ q.round = r ∧ D.Reach l q) (rs : List ℕ) :
    D.pastLeaders l (r :: rs) = D.pastLeaders l rs := by
  rw [pastLeaders, dif_neg h]

theorem mem_pastLeaders {rs : List ℕ} (h : q ∈ D.pastLeaders l rs) :
    D.IsLeader q ∧ q.round ∈ rs ∧ D.Reach l q := by
  induction rs generalizing l with
  | nil => simp [pastLeaders] at h
  | cons r rs ih =>
      by_cases hex : ∃ q, D.IsLeader q ∧ q.round = r ∧ D.Reach l q
      · obtain ⟨m, hm, rfl, hreach⟩ := hex
        rw [pastLeaders_cons_of hm hreach] at h
        rcases List.mem_cons.mp h with rfl | h
        · exact ⟨hm, List.mem_cons_self, hreach⟩
        · obtain ⟨hq, hmem, hq'⟩ := ih h
          exact ⟨hq, List.mem_cons_of_mem _ hmem, hreach.trans hq'⟩
      · rw [pastLeaders_cons_of_not hex] at h
        obtain ⟨hq, hmem, hq'⟩ := ih h
        exact ⟨hq, List.mem_cons_of_mem _ hmem, hq'⟩

theorem pastLeaders_append (rs ss : List ℕ) :
    D.pastLeaders l (rs ++ ss) = D.pastLeaders l rs ++
      D.pastLeaders ((D.pastLeaders l rs).getLastD l) ss := by
  induction rs generalizing l with
  | nil => rfl
  | cons r rs ih =>
      by_cases hex : ∃ q, D.IsLeader q ∧ q.round = r ∧ D.Reach l q
      · obtain ⟨m, hm, rfl, hreach⟩ := hex
        rw [List.cons_append, pastLeaders_cons_of hm hreach, pastLeaders_cons_of hm hreach, ih,
          List.cons_append, List.getLastD_cons]
      · rw [List.cons_append, pastLeaders_cons_of_not hex, pastLeaders_cons_of_not hex, ih]

/-- The rounds of the leaders decrease along the walk. -/
theorem sorted_pastLeaders {rs : List ℕ} (hrs : rs.Pairwise fun r r' => r' < r) :
    (D.pastLeaders l rs).Pairwise fun x y => y.round < x.round := by
  induction rs generalizing l with
  | nil => exact List.Pairwise.nil
  | cons r rs ih =>
      rw [List.pairwise_cons] at hrs
      by_cases hex : ∃ q, D.IsLeader q ∧ q.round = r ∧ D.Reach l q
      · obtain ⟨m, hm, rfl, hreach⟩ := hex
        rw [pastLeaders_cons_of hm hreach, List.pairwise_cons]
        exact ⟨fun q hq => hrs.1 _ (mem_pastLeaders hq).2.1, ih hrs.2⟩
      · rw [pastLeaders_cons_of_not hex]
        exact ih hrs.2

/-- A supported leader is not stepped over. -/
theorem pastLeaders_split (hl : D.IsLeader l) (hm : D.IsLeader m) (hs : D.Supported l)
    (hle : l.round % 2 = 0) (hme : m.round % 2 = 0) (hl0 : 2 ≤ l.round)
    (hlm : l.round + 2 ≤ m.round) :
    D.pastLeaders m (stepDown 2 (m.round - 2)) =
      D.pastLeaders m (stepDown (l.round + 2) (m.round - 2)) ++
        l :: D.pastLeaders l (stepDown 2 (l.round - 2)) := by
  rw [stepDown_split hle hme hl0 hlm, pastLeaders_append]
  congr 1
  refine pastLeaders_cons_of hl ?_ _
  -- the last leader before `l` is still two rounds above `l`
  obtain ⟨s, hsup, hq⟩ := hs
  have hlast : (D.pastLeaders m (stepDown (l.round + 2) (m.round - 2))).getLastD m ∈ D.certs ∧
      l.round + 2 ≤
        ((D.pastLeaders m (stepDown (l.round + 2) (m.round - 2))).getLastD m).round := by
    rw [List.getLastD_eq_getLast?]
    cases hg : (D.pastLeaders m (stepDown (l.round + 2) (m.round - 2))).getLast? with
    | none => exact ⟨hm.1, hlm⟩
    | some q =>
        obtain ⟨hq, hmem, -⟩ := mem_pastLeaders (List.mem_of_getLast? hg)
        exact ⟨hq.1, (mem_stepDown hmem).1⟩
  exact reach_of_support (Or.inl hl.1) hsup hq hlast.1 hlast.2

theorem chain_split (hl : D.IsLeader l) (hm : D.IsLeader m) (hs : D.Supported l)
    (hle : l.round % 2 = 0) (hme : m.round % 2 = 0) (hl0 : 2 ≤ l.round)
    (hlm : l.round + 2 ≤ m.round) :
    D.chain m = D.chain l ++
      (m :: D.pastLeaders m (stepDown (l.round + 2) (m.round - 2))).reverse := by
  unfold chain
  rw [pastLeaders_split hl hm hs hle hme hl0 hlm, ← List.cons_append, List.reverse_append]

/-- The rounds of the leaders increase along the chain. -/
theorem sorted_chain (D : CausalDag Digest Signature p.committee)
    (l : Certificate PublicKey Digest Signature) (hl : 2 ≤ l.round) :
    (D.chain l).Pairwise fun x y => x.round < y.round := by
  unfold chain
  rw [List.pairwise_reverse, List.pairwise_cons]
  refine ⟨?_, sorted_pastLeaders (sorted_stepDown _ _)⟩
  intro q hq
  have := mem_stepDown (mem_pastLeaders hq).2.1
  omega

end CausalDag

end DagBft.Consensus
