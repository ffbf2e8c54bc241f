/-
  The invariant of the consensus state, over every order of delivery.

  `Inv` says what the pruned DAG of `State` still holds of what has been delivered:
  everything that is neither older than the last committed round of its author nor
  garbage collected. From there, every row above the last committed round is complete
  (`Inv.row_complete`), which is all that the leader walk looks at.

  The clean-up of `State::update` is described once, by `find_update`; the invariant and
  the later results use that description only.
-/
import DagBft.Consensus.State
import DagBft.Consensus.Causal

namespace DagBft.Consensus

variable {PublicKey Digest Signature : Type} [LinearOrder PublicKey] [LinearOrder Digest]

/-! ## Looking up the DAG -/

namespace Dag

/-- What the DAG holds of an author in a round. -/
def find (dag : Dag PublicKey Digest Signature) (r : ℕ) (n : PublicKey) :
    Option (Digest × Certificate PublicKey Digest Signature) :=
  (dag r).bind fun m => m.lookup n

theorem find_eq {dag : Dag PublicKey Digest Signature} {r : ℕ}
    {m : Authorities PublicKey Digest Signature} (h : dag r = some m) (n : PublicKey) :
    dag.find r n = m.lookup n := by
  simp [find, h]

theorem row_of_find {dag : Dag PublicKey Digest Signature} {r : ℕ} {n : PublicKey}
    {x : Digest × Certificate PublicKey Digest Signature} (h : dag.find r n = some x) :
    ∃ m, dag r = some m := by
  unfold find at h
  cases hm : dag r with
  | none => simp [hm] at h
  | some m => exact ⟨m, rfl⟩

/-- The values of a row are the entries found in it. -/
theorem mem_values_iff {dag : Dag PublicKey Digest Signature} {r : ℕ}
    {m : Authorities PublicKey Digest Signature} (hm : dag r = some m)
    {v : Digest × Certificate PublicKey Digest Signature} :
    v ∈ m.values ↔ ∃ n, dag.find r n = some v := by
  simp only [AList.mem_values_iff, find_eq hm]

theorem find_insert (dag : Dag PublicKey Digest Signature) (round : ℕ) (name : PublicKey)
    (x : Digest × Certificate PublicKey Digest Signature) (r : ℕ) (n : PublicKey) :
    (dag.insert round name x).find r n =
      if r = round ∧ n = name then some x else dag.find r n := by
  unfold find insert
  by_cases hr : r = round
  · subst hr
    simp only [Function.update_self, Option.bind_some, AList.lookup_insert_eq, true_and]
    congr 1
    cases dag r <;> simp
  · simp [hr]

theorem find_retain (dag : Dag PublicKey Digest Signature) (name : PublicKey)
    (round gcDepth lcr r : ℕ) (n : PublicKey) :
    (dag.retain name round gcDepth lcr).find r n =
      if (n ≠ name ∨ round ≤ r) ∧ lcr ≤ r + gcDepth then dag.find r n else none := by
  unfold find retain
  cases dag r with
  | none => simp
  | some m =>
      simp only [Option.bind_some]
      by_cases hnil : (m.retain fun n _ => decide (n ≠ name ∨ round ≤ r)).entries = []
      · -- the row is dropped: it held nothing of `n`
        have hnone := AList.entries_eq_nil_iff.mp hnil n
        rw [AList.lookup_retain] at hnone
        simp only [hnil, ne_eq, not_true_eq_false, false_and, if_false, Option.bind_none]
        split
        · rename_i h
          have hp : decide (n ≠ name ∨ round ≤ r) = true := decide_eq_true h.1
          cases hl : m.lookup n with
          | none => rfl
          | some v => simp [hl, hp] at hnone
        · rfl
      · by_cases hgc : lcr ≤ r + gcDepth
        · simp only [hnil, hgc, ne_eq, not_false_eq_true, and_self, if_true, Option.bind_some,
            AList.lookup_retain, and_true]
          by_cases hp : n ≠ name ∨ round ≤ r
          · rw [if_pos hp]
            cases m.lookup n <;> simp [hp]
          · rw [if_neg hp]
            cases m.lookup n <;> simp [hp]
        · simp [hgc]

theorem find_retain_foldl (dag : Dag PublicKey Digest Signature)
    (l : List (Sigma fun _ : PublicKey => ℕ)) (gcDepth lcr r : ℕ) (n : PublicKey) :
    (l.foldl (fun dag x => dag.retain x.1 x.2 gcDepth lcr) dag).find r n =
      if (∀ x ∈ l, n ≠ x.1 ∨ x.2 ≤ r) ∧ (l ≠ [] → lcr ≤ r + gcDepth) then dag.find r n
      else none := by
  induction l generalizing dag with
  | nil => simp
  | cons y l ih =>
      rw [List.foldl_cons, ih, find_retain]
      by_cases hgc : lcr ≤ r + gcDepth
      · by_cases hy : n ≠ y.1 ∨ y.2 ≤ r
        · simp [hgc, hy]
        · have hall : ¬ ∀ x ∈ y :: l, n ≠ x.1 ∨ x.2 ≤ r := fun h => hy (h y List.mem_cons_self)
          simp only [hgc, hy, hall, and_true, false_and, if_false, ite_self]
      · simp [hgc]

end Dag

/-! ## The committed rounds -/

theorem foldl_max_le {l : List ℕ} {a b : ℕ} : l.foldl max a ≤ b ↔ a ≤ b ∧ ∀ v ∈ l, v ≤ b := by
  induction l generalizing a with
  | nil => simp
  | cons v l ih =>
      rw [List.foldl_cons, ih, max_le_iff, List.forall_mem_cons, and_assoc]

namespace State

/-- The last committed round of an author, 0 if nothing of it is committed. -/
def committedOf (s : State PublicKey Digest Signature) (a : PublicKey) : ℕ :=
  (s.lastCommitted.lookup a).getD 0

/-- `last_committed_round` is the highest entry of `last_committed`. -/
def IsMax (s : State PublicKey Digest Signature) : Prop :=
  s.lastCommittedRound = s.lastCommitted.values.foldl max 0

variable {s : State PublicKey Digest Signature} {x : Certificate PublicKey Digest Signature}
  {gcDepth : ℕ}

theorem IsMax.le_iff (h : s.IsMax) {b : ℕ} :
    s.lastCommittedRound ≤ b ↔ ∀ a, s.committedOf a ≤ b := by
  unfold IsMax at h
  rw [h, foldl_max_le]
  simp only [Nat.zero_le, true_and, AList.mem_values_iff, committedOf]
  constructor
  · intro hv a
    cases ha : s.lastCommitted.lookup a with
    | none => exact Nat.zero_le _
    | some v => exact hv v ⟨a, ha⟩
  · rintro ha v ⟨a, hv⟩
    have := ha a
    rwa [hv, Option.getD_some] at this

theorem IsMax.committedOf_le (h : s.IsMax) (a : PublicKey) :
    s.committedOf a ≤ s.lastCommittedRound :=
  h.le_iff.mp (le_refl _) a

theorem isMax_update : (s.update x gcDepth).IsMax := rfl

theorem lookup_bumpCommitted (m : AList fun _ : PublicKey => ℕ)
    (x : Certificate PublicKey Digest Signature) (a : PublicKey) :
    (bumpCommitted m x).lookup a =
      if a = x.origin then some (max ((m.lookup a).getD 0) x.round) else m.lookup a := by
  unfold bumpCommitted
  cases hm : m.lookup x.origin with
  | none =>
      rw [AList.lookup_insert_eq]
      split
      · rename_i h
        subst h
        simp [hm]
      · rfl
  | some r =>
      rw [AList.lookup_insert_eq]
      split
      · rename_i h
        subst h
        simp [hm]
      · rfl

theorem lastCommitted_update :
    (s.update x gcDepth).lastCommitted = bumpCommitted s.lastCommitted x := rfl

theorem committedOf_update (a : PublicKey) :
    (s.update x gcDepth).committedOf a =
      if a = x.origin then max (s.committedOf a) x.round else s.committedOf a := by
  unfold committedOf
  rw [lastCommitted_update, lookup_bumpCommitted]
  split <;> rfl

theorem committedOf_le_update (a : PublicKey) :
    s.committedOf a ≤ (s.update x gcDepth).committedOf a := by
  rw [committedOf_update]
  split
  · exact le_max_left _ _
  · exact le_refl _

theorem isSome_lookup_update {a : PublicKey} (h : (s.lastCommitted.lookup a).isSome) :
    ((s.update x gcDepth).lastCommitted.lookup a).isSome := by
  rw [lastCommitted_update, lookup_bumpCommitted]
  split
  · rfl
  · exact h

theorem lastCommittedRound_update (h : s.IsMax) :
    (s.update x gcDepth).lastCommittedRound = max s.lastCommittedRound x.round := by
  refine eq_of_forall_ge_iff fun b => ?_
  rw [isMax_update.le_iff, max_le_iff, h.le_iff]
  constructor
  · intro hb
    refine ⟨fun a => (committedOf_le_update a).trans (hb a), ?_⟩
    have := hb x.origin
    rw [committedOf_update, if_pos rfl] at this
    exact (le_max_right _ _).trans this
  · rintro ⟨ha, hx⟩ a
    rw [committedOf_update]
    split
    · exact max_le (ha a) hx
    · exact ha a

/-- The clean-up of `State::update`, all passes at once. -/
theorem find_update (r : ℕ) (n : PublicKey) :
    (s.update x gcDepth).dag.find r n =
      if (s.update x gcDepth).committedOf n ≤ r ∧
        (s.update x gcDepth).lastCommittedRound ≤ r + gcDepth
      then s.dag.find r n else none := by
  have hne : (bumpCommitted s.lastCommitted x).entries ≠ [] := by
    intro hnil
    have := AList.entries_eq_nil_iff.mp hnil x.origin
    rw [lookup_bumpCommitted, if_pos rfl] at this
    exact absurd this (by simp)
  have hall : (∀ y ∈ (bumpCommitted s.lastCommitted x).entries, n ≠ y.1 ∨ y.2 ≤ r) ↔
      (s.update x gcDepth).committedOf n ≤ r := by
    unfold committedOf
    rw [lastCommitted_update]
    constructor
    · intro h
      cases hn : (bumpCommitted s.lastCommitted x).lookup n with
      | none => exact Nat.zero_le _
      | some v =>
          rcases h _ (AList.mem_entries_iff.mpr hn) with hne | hle
          · exact absurd rfl hne
          · exact hle
    · rintro h ⟨k, v⟩ hv
      by_cases hk : n = k
      · subst hk
        rw [AList.mem_entries_iff.mp hv] at h
        exact Or.inr h
      · exact Or.inl hk
  change (Dag.find (List.foldl _ _ _) r n) = _
  rw [Dag.find_retain_foldl]
  refine if_congr (and_congr hall ?_) rfl rfl
  exact ⟨fun h => h hne, fun h _ => h⟩

end State

/-! ## The invariant -/

variable [AsBytes PublicKey] [AsBytes Digest] [Sha512 Digest]
  [Inhabited PublicKey] [Inhabited Digest] [Inhabited Signature]

/-- The certificates a validator knows: genesis, and what it has received. -/
def Known (committee : Committee PublicKey)
    (received : List (Certificate PublicKey Digest Signature))
    (x : Certificate PublicKey Digest Signature) : Prop :=
  x ∈ received ∨ x ∈ Certificate.genesis committee

structure Inv (p : Params PublicKey) (received : List (Certificate PublicKey Digest Signature))
    (s : State PublicKey Digest Signature) : Prop where
  /-- Every entry of the DAG is a known certificate, filed under its digest, round and
      origin. -/
  sound : ∀ r n v, s.dag.find r n = some v →
    Known p.committee received v.2 ∧ v.1 = v.2.digest ∧ v.2.round = r ∧ v.2.origin = n
  /-- What is missing is older than the last commit of its author, or garbage collected. -/
  complete : ∀ x, Known p.committee received x → s.committedOf x.origin ≤ x.round →
    s.lastCommittedRound ≤ x.round + p.gcDepth →
    s.dag.find x.round x.origin = some (x.digest, x)
  isMax : s.IsMax
  isSome_committed : ∀ a ∈ p.committee.keys, (s.lastCommitted.lookup a).isSome

variable {p : Params PublicKey} {D : CausalDag Digest Signature p.committee}
  {received : List (Certificate PublicKey Digest Signature)}
  {s : State PublicKey Digest Signature} {c x : Certificate PublicKey Digest Signature}

theorem Redelivery.vertex_of_known (h : Redelivery D received) (hx : Known p.committee received x) :
    D.Vertex x :=
  hx.imp (h.mem x) id

theorem Redelivery.known_of_reach (h : Redelivery D received)
    {y : Certificate PublicKey Digest Signature}
    (hx : Known p.committee received x) (hr : D.Reach x y) : Known p.committee received y := by
  rcases hx with hx | hx
  · exact h.mem_of_reach hx hr
  · rcases Relation.ReflTransGen.cases_head hr with rfl | ⟨q, hq, -⟩
    · exact Or.inr hx
    · exact absurd hq (CausalDag.not_parent_genesis hx)

theorem find_genesis (r : ℕ) (n : PublicKey) :
    (State.new (Certificate.genesis p.committee) : State PublicKey Digest Signature).dag.find r n =
      if r = 0 then
        ((Certificate.genesis p.committee : List (Certificate PublicKey Digest Signature)).find?
          fun x => x.origin = n).map fun x => (x.digest, x)
      else none := by
  unfold Dag.find State.new
  by_cases hr : r = 0
  · simp only [hr, if_true, Option.bind_some]
    rw [AList.lookup_foldl_insert _ _ _ (Certificate.nodup_origin_genesis p.committee)]
    simp
  · simp [hr]

theorem lookup_genesis (a : PublicKey) :
    (State.new (Certificate.genesis p.committee) :
      State PublicKey Digest Signature).lastCommitted.lookup a =
      ((Certificate.genesis p.committee : List (Certificate PublicKey Digest Signature)).find?
        fun x => x.origin = a).map Certificate.round := by
  unfold State.new
  rw [AList.lookup_foldl_insert _ _ _ (Certificate.nodup_origin_genesis p.committee)]
  simp

theorem committedOf_genesis (a : PublicKey) :
    (State.new (Certificate.genesis p.committee) :
      State PublicKey Digest Signature).committedOf a = 0 := by
  unfold State.committedOf
  rw [lookup_genesis]
  cases hf : (Certificate.genesis p.committee :
      List (Certificate PublicKey Digest Signature)).find? fun x => x.origin = a with
  | none => rfl
  | some x => simpa using Certificate.round_genesis (List.mem_of_find?_eq_some hf)

theorem isMax_genesis : (State.new (Certificate.genesis p.committee) :
    State PublicKey Digest Signature).IsMax := by
  refine le_antisymm (Nat.zero_le _) ?_
  rw [foldl_max_le]
  refine ⟨le_refl _, ?_⟩
  intro v hv
  obtain ⟨a, ha⟩ := AList.mem_values_iff.mp hv
  have hzero : (State.new (Certificate.genesis p.committee) :
      State PublicKey Digest Signature).committedOf a = 0 := committedOf_genesis a
  unfold State.committedOf at hzero
  rw [ha, Option.getD_some] at hzero
  exact hzero.le

theorem inv_new : Inv p [] (State.new (Certificate.genesis p.committee) :
    State PublicKey Digest Signature) where
  sound r n v h := by
    rw [find_genesis] at h
    split at h
    · rename_i hr
      obtain ⟨x, hx, rfl⟩ := Option.map_eq_some_iff.mp h
      have hmem := List.mem_of_find?_eq_some hx
      refine ⟨Or.inr hmem, rfl, ?_, by simpa using List.find?_some hx⟩
      rw [hr]
      exact Certificate.round_genesis hmem
    · exact absurd h (by simp)
  complete x hx _ _ := by
    have hx : x ∈ Certificate.genesis p.committee := by
      rcases hx with hx | hx
      · exact absurd hx (by simp)
      · exact hx
    rw [find_genesis, if_pos (Certificate.round_genesis hx),
      find?_key_of_mem (Certificate.nodup_origin_genesis p.committee) hx]
    rfl
  isMax := isMax_genesis
  isSome_committed a ha := by
    rw [lookup_genesis, Option.isSome_map, List.find?_isSome]
    exact ⟨_, Certificate.mem_genesis.mpr ⟨a, ha, rfl⟩, by simp [Certificate.origin]⟩

theorem inv_add (hd : Redelivery D (received ++ [c])) (h : Inv p received s) :
    Inv p (received ++ [c]) (s.add c) where
  sound r n v hv := by
    simp only [State.add, Dag.find_insert] at hv
    split at hv
    · rename_i hrn
      obtain rfl : (c.digest, c) = v := by simpa using hv
      exact ⟨Or.inl (by simp), rfl, hrn.1.symm, hrn.2.symm⟩
    · obtain ⟨hk, hrest⟩ := h.sound r n v hv
      exact ⟨hk.imp (List.mem_append_left _) id, hrest⟩
  complete x hx hlc hgc := by
    simp only [State.add, Dag.find_insert]
    split
    · rename_i hrn
      have hxc : x = c :=
        CausalDag.unique_vertex (hd.vertex_of_known hx) (Or.inl hd.last_mem) hrn.1 hrn.2
      rw [hxc]
    · rename_i hrn
      refine h.complete x ?_ hlc hgc
      rcases hx with hx | hx
      · rcases List.mem_append.mp hx with hx | hx
        · exact Or.inl hx
        · obtain rfl : x = c := by simpa using hx
          exact absurd ⟨rfl, rfl⟩ hrn
      · exact Or.inr hx
  isMax := h.isMax
  isSome_committed := h.isSome_committed

theorem inv_update (h : Inv p received s) : Inv p received (s.update x p.gcDepth) where
  sound r n v hv := by
    rw [State.find_update] at hv
    split at hv
    · exact h.sound r n v hv
    · exact absurd hv (by simp)
  complete y hy hlc hgc := by
    rw [State.find_update, if_pos ⟨hlc, hgc⟩]
    refine h.complete y hy ((State.committedOf_le_update _).trans hlc) ?_
    rw [State.lastCommittedRound_update h.isMax] at hgc
    exact (le_max_left _ _).trans hgc
  isMax := State.isMax_update
  isSome_committed a ha := State.isSome_lookup_update (h.isSome_committed a ha)

/-! ## The rows above the last committed round -/

/-- Rows from the last committed round on hold everything that is known. -/
theorem Inv.row_complete (h : Inv p received s) (hx : Known p.committee received x)
    (hr : s.lastCommittedRound ≤ x.round) :
    s.dag.find x.round x.origin = some (x.digest, x) :=
  h.complete x hx ((h.isMax.committedOf_le _).trans hr) (by omega)

/-- There is a certificate in every round below a known one. -/
theorem Redelivery.exists_known (hd : Redelivery D received) (hc : Known p.committee received c)
    {r : ℕ} (hr : r ≤ c.round) : ∃ x, Known p.committee received x ∧ x.round = r := by
  obtain ⟨k, hk⟩ := Nat.exists_eq_add_of_le hr
  induction k generalizing c with
  | zero => exact ⟨c, hc, by omega⟩
  | succ k ih =>
      have hmem : c ∈ D.certs := CausalDag.mem_certs_of_round (hd.vertex_of_known hc) (by omega)
      obtain ⟨q, hq⟩ := D.exists_parent hmem
      have hqr := hq.round (Or.inl hmem)
      exact ih (hd.known_of_reach hc (Relation.ReflTransGen.single hq)) (by omega) (by omega)

theorem Inv.row_isSome (h : Inv p received s) (hd : Redelivery D received)
    (hc : Known p.committee received c) {r : ℕ} (hr : r ≤ c.round)
    (hlc : s.lastCommittedRound ≤ r) : ∃ m, s.dag r = some m := by
  obtain ⟨x, hx, rfl⟩ := hd.exists_known hc hr
  exact Dag.row_of_find (h.row_complete hx hlc)

end DagBft.Consensus
