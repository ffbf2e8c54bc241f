/-
  Committing leaders: `order_dag` and the updates that follow it never panic, keep the
  invariant, and leave the round of the leader as the last committed round.
-/
import DagBft.Consensus.Invariant

namespace DagBft.Consensus

variable {PublicKey Digest Signature : Type} [LinearOrder PublicKey] [LinearOrder Digest]

/-- The digests in the DAG below a round. -/
def digestsBelow (dag : Dag PublicKey Digest Signature) (round : ℕ) : Finset Digest :=
  ((List.range round).flatMap fun r => (dag r).elim [] fun m => m.values.map Prod.fst).toFinset

omit [LinearOrder PublicKey] in
theorem card_digestsBelow (dag : Dag PublicKey Digest Signature) (round : ℕ) :
    (digestsBelow dag round).card ≤ dagSize dag round := by
  refine (List.toFinset_card_le _).trans (le_of_eq ?_)
  rw [List.length_flatMap, dagSize]
  congr 1
  refine List.map_congr_left fun r _ => ?_
  cases dag r <;> simp [AList.values]

theorem mem_digestsBelow {dag : Dag PublicKey Digest Signature} {round r : ℕ} {n : PublicKey}
    {v : Digest × Certificate PublicKey Digest Signature} (h : dag.find r n = some v)
    (hr : r < round) : v.1 ∈ digestsBelow dag round := by
  obtain ⟨m, hm⟩ := Dag.row_of_find h
  rw [digestsBelow, List.mem_toFinset, List.mem_flatMap]
  refine ⟨r, List.mem_range.mpr hr, ?_⟩
  rw [hm]
  exact List.mem_map_of_mem ((Dag.mem_values_iff hm).mpr ⟨n, h⟩)

theorem filter_true_children (s : State PublicKey Digest Signature) :
    (fun x => (children s x).filter fun _ => true) = children s := by
  funext x
  simp

variable [AsBytes PublicKey] [AsBytes Digest] [Sha512 Digest]
  [Inhabited PublicKey] [Inhabited Digest] [Inhabited Signature]

variable {p : Params PublicKey} {D : CausalDag Digest Signature p.committee}
  {received : List (Certificate PublicKey Digest Signature)}
  {s : State PublicKey Digest Signature} {x y leader : Certificate PublicKey Digest Signature}

/-! ## The search -/

/-- The parents that `order_dag` visits: the DAG still holds them, and they are not the
    last committed certificate of their author. -/
theorem heldParent_eq_some (hd : Redelivery D received) (h : Inv p received s)
    (hx : Known p.committee received x) {parent k : Digest} (hp : parent ∈ x.header.parents) :
    heldParent s x parent = some (k, y) ↔ D.Vertex y ∧ y.digest = parent ∧ k = parent ∧
      s.dag.find y.round y.origin = some (y.digest, y) ∧
      s.lastCommitted.lookup y.origin ≠ some y.round := by
  have hvx := hd.vertex_of_known hx
  simp only [heldParent, Option.filter_eq_some_iff, Option.bind_eq_some_iff]
  constructor
  · rintro ⟨⟨m, hm, hfind⟩, hlc⟩
    have hk : k = parent := by simpa using List.find?_some hfind
    obtain ⟨n, hn⟩ := (Dag.mem_values_iff hm).mp (List.mem_of_find?_eq_some hfind)
    obtain ⟨hky, hdig, hr, ho⟩ := h.sound _ _ _ hn
    dsimp only at hky hdig hr ho
    subst hdig ho
    refine ⟨hd.vertex_of_known hky, hk, hk, ?_, by simpa using hlc⟩
    rw [hr]
    exact hn
  · rintro ⟨hvy, hdy, rfl, hfind, hlc⟩
    subst hdy
    have hround := CausalDag.Parent.round hvx ⟨hvy, hp⟩
    have hprev : prevRound x.round = y.round := by rw [← hround, prevRound_succ]
    obtain ⟨m, hm⟩ := Dag.row_of_find hfind
    refine ⟨⟨m, by rw [hprev, hm], ?_⟩, by simpa using hlc⟩
    have hmem : (y.digest, y) ∈ m.values := (Dag.mem_values_iff hm).mpr ⟨_, hfind⟩
    cases hf : m.values.find? fun v => decide (v.1 = y.digest) with
    | none =>
        rw [List.find?_eq_none] at hf
        exact absurd (hf _ hmem) (by simp)
    | some v =>
        -- the digest determines the certificate
        obtain ⟨n, hn⟩ := (Dag.mem_values_iff hm).mp (List.mem_of_find?_eq_some hf)
        obtain ⟨hk, hdig, -, -⟩ := h.sound _ _ _ hn
        have heq : v.1 = y.digest := by simpa using List.find?_some hf
        have hvy : v.2 = y := D.digest_inj _ _ (hd.vertex_of_known hk) hvy (hdig ▸ heq)
        rw [← hvy, ← hdig]

theorem mem_children (hd : Redelivery D received) (h : Inv p received s)
    (hx : Known p.committee received x) {k : Digest} (hm : (k, y) ∈ children s x) :
    D.Parent x y ∧ k = y.digest ∧ s.dag.find y.round y.origin = some (y.digest, y) := by
  obtain ⟨parent, hp, hpar⟩ := List.mem_filterMap.mp hm
  obtain ⟨hv, hdig, rfl, hfind, -⟩ := (heldParent_eq_some (D := D) hd h hx hp).mp hpar
  subst hdig
  exact ⟨⟨hv, hp⟩, rfl, hfind⟩

theorem known_of_mem_children (hd : Redelivery D received) (h : Inv p received s)
    (hx : Known p.committee received x) {q : Digest × Certificate PublicKey Digest Signature}
    (hq : q ∈ children s x) : Known p.committee received q.2 ∧ q.2.round + 1 = x.round := by
  have hpar := (mem_children (D := D) hd h hx hq).1
  exact ⟨hd.known_of_reach hx (Relation.ReflTransGen.single hpar),
    hpar.round (hd.vertex_of_known hx)⟩

/-- The search of `order_dag` ends, for the pruned DAG and for any part of it. -/
theorem dfs_children_isSome (hd : Redelivery D received) (h : Inv p received s)
    (hl : Known p.committee received leader)
    (keep : Digest × Certificate PublicKey Digest Signature → Bool) :
    (dfs (fun x => (children s x).filter keep) (dagSize s.dag leader.round + 1) [leader]
      []).isSome := by
  refine dfs_isSome (U := digestsBelow s.dag leader.round)
    (fun x => Known p.committee received x ∧ x.round ≤ leader.round) ?_ _ _ _ ?_ ?_
  · rintro x ⟨hx, hr⟩ q hq
    have hq := (List.mem_filter.mp hq).1
    obtain ⟨hk, hround⟩ := known_of_mem_children (D := D) hd h hx hq
    obtain ⟨-, hdig, hfind⟩ := mem_children (D := D) hd h hx hq
    refine ⟨?_, hk, by omega⟩
    rw [hdig]
    exact mem_digestsBelow hfind (by omega)
  · simpa using hl
  · have := card_digestsBelow s.dag leader.round
    simp only [List.length_singleton, List.toFinset_nil, Finset.sdiff_empty]
    omega

/-- `order_dag` succeeds: it lists the leader, and otherwise older certificates. -/
theorem orderDag_spec (hd : Redelivery D received) (h : Inv p received s)
    (hl : Known p.committee received leader)
    (hgc : s.lastCommittedRound ≤ leader.round + p.gcDepth) :
    ∃ xs, orderDag p leader s = some xs ∧ leader ∈ xs ∧
      ∀ x ∈ xs, x.round ≤ leader.round := by
  have hsome := dfs_children_isSome (D := D) hd h hl fun _ => true
  rw [filter_true_children] at hsome
  obtain ⟨out, hout⟩ := Option.isSome_iff_exists.mp hsome
  refine ⟨_, by rw [orderDag, hout]; rfl, ?_, ?_⟩
  · rw [List.mem_insertionSort, List.mem_filter]
    exact ⟨mem_dfs_head hout, by simpa using hgc⟩
  · intro x hx
    rw [List.mem_insertionSort, List.mem_filter] at hx
    refine (forall_mem_dfs
      (fun x => Known p.committee received x ∧ x.round ≤ leader.round) ?_ _ _ _ _ ?_ hout x hx.1).2
    · rintro y ⟨hy, hr⟩ q hq
      obtain ⟨hk, hround⟩ := known_of_mem_children (D := D) hd h hy hq
      exact ⟨hk, by omega⟩
    · simpa using hl

/-! ## The updates -/

/-- The state after a list of certificates is committed. -/
def State.updates (s : State PublicKey Digest Signature)
    (xs : List (Certificate PublicKey Digest Signature)) (gcDepth : ℕ) :
    State PublicKey Digest Signature :=
  xs.foldl (fun s x => s.update x gcDepth) s

theorem inv_updates (h : Inv p received s) (xs : List (Certificate PublicKey Digest Signature)) :
    Inv p received (s.updates xs p.gcDepth) := by
  induction xs generalizing s with
  | nil => exact h
  | cons x xs ih => exact ih (inv_update h)

theorem lastCommittedRound_updates (h : Inv p received s)
    {xs : List (Certificate PublicKey Digest Signature)} (hmem : leader ∈ xs)
    (hle : ∀ x ∈ xs, x.round ≤ leader.round) (hlc : s.lastCommittedRound ≤ leader.round) :
    (s.updates xs p.gcDepth).lastCommittedRound = leader.round := by
  have key : ∀ (xs : List (Certificate PublicKey Digest Signature))
      (s : State PublicKey Digest Signature), Inv p received s → ∀ b,
      (s.updates xs p.gcDepth).lastCommittedRound ≤ b ↔
        s.lastCommittedRound ≤ b ∧ ∀ x ∈ xs, x.round ≤ b := by
    intro xs
    induction xs with
    | nil => intro s _ b; simp [State.updates]
    | cons x xs ih =>
        intro s h b
        change ((s.update x p.gcDepth).updates xs p.gcDepth).lastCommittedRound ≤ b ↔ _
        rw [ih _ (inv_update h), State.lastCommittedRound_update h.isMax, max_le_iff,
          List.forall_mem_cons, and_assoc]
  refine le_antisymm ?_ ?_
  · rw [key xs s h]
    exact ⟨hlc, hle⟩
  · exact ((key xs s h _).mp (le_refl _)).2 leader hmem

/-- Committing one leader. -/
theorem commitLeader_spec (hd : Redelivery D received) (h : Inv p received s)
    (hl : Known p.committee received leader) (hlc : s.lastCommittedRound ≤ leader.round)
    (out : List (Certificate PublicKey Digest Signature)) :
    ∃ xs, orderDag p leader s = some xs ∧
      commitLeader p (s, out) leader = some (s.updates xs p.gcDepth, out ++ xs) ∧
      Inv p received (s.updates xs p.gcDepth) ∧
      (s.updates xs p.gcDepth).lastCommittedRound = leader.round := by
  obtain ⟨xs, hxs, hmem, hle⟩ := orderDag_spec (D := D) hd h hl (by omega)
  refine ⟨xs, hxs, ?_, inv_updates h xs, lastCommittedRound_updates h hmem hle hlc⟩
  simp only [commitLeader, hxs, Option.map_some]
  rfl

/-- Committing leaders of increasing rounds leaves the round of the last one. -/
theorem foldlM_commitLeader_spec (hd : Redelivery D received)
    (ls : List (Certificate PublicKey Digest Signature)) (h : Inv p received s)
    (hl : ∀ l ∈ ls, Known p.committee received l) (hlc : ∀ l ∈ ls, s.lastCommittedRound ≤ l.round)
    (hsorted : ls.Pairwise fun l l' => l.round < l'.round)
    (out : List (Certificate PublicKey Digest Signature)) :
    ∃ s' out', ls.foldlM (commitLeader p) (s, out) = some (s', out') ∧ Inv p received s' ∧
      s'.lastCommittedRound = (ls.getLast?.map Certificate.round).getD s.lastCommittedRound := by
  induction ls generalizing s out with
  | nil => exact ⟨s, out, rfl, h, rfl⟩
  | cons l ls ih =>
      rw [List.pairwise_cons] at hsorted
      obtain ⟨xs, -, hcommit, hinv, hround⟩ := commitLeader_spec (D := D) hd h
        (hl l List.mem_cons_self) (hlc l List.mem_cons_self) out
      obtain ⟨s', out', hrun, hinv', hlast⟩ := ih hinv
        (fun l' hl' => hl l' (List.mem_cons_of_mem _ hl'))
        (fun l' hl' => hround ▸ (hsorted.1 l' hl').le) hsorted.2 (out ++ xs)
      refine ⟨s', out', ?_, hinv', ?_⟩
      · rw [List.foldlM_cons, hcommit]
        exact hrun
      · rw [hlast, hround, List.getLast?_cons]
        cases ls.getLast? <;> rfl

end DagBft.Consensus
