/-
  Tusk agrees on the sequence of leaders.

  `linked_iff` and `orderLeaders_eq` show that on a state satisfying `Inv` the walk of the
  code is the walk over the whole DAG. `electedLeader_spec` reads off what a leader that
  is elected satisfies; `Committed` is the invariant of a validator's log, and
  `leaders_agree` compares two of them.
-/
import DagBft.Consensus.Leaders

namespace DagBft.Consensus

variable {PublicKey Digest Signature : Type} [LinearOrder PublicKey] [LinearOrder Digest]
  [AsBytes PublicKey] [AsBytes Digest] [Sha512 Digest]
  [Inhabited PublicKey] [Inhabited Digest] [Inhabited Signature]

variable {p : Params PublicKey} {D : CausalDag Digest Signature p.committee}
  {received : List (Certificate PublicKey Digest Signature)}
  {s : State PublicKey Digest Signature} {c l q x y : Certificate PublicKey Digest Signature}

/-! ## `linked` -/

theorem goesDown_parent (hd : Redelivery D received) :
    GoesDown D.Parent Certificate.round (Known p.committee received) := fun _ _ hx hpar =>
  ⟨hd.known_of_reach hx (Relation.ReflTransGen.single hpar), hpar.round (hd.vertex_of_known hx)⟩

/-- One round of `linked` finds the parents in that round. -/
theorem sweeps_linkedStep (hd : Redelivery D received) (h : Inv p received s) {r : ℕ}
    {m : Authorities PublicKey Digest Signature} (hm : s.dag r = some m)
    (hlc : s.lastCommittedRound ≤ r) :
    Sweeps D.Parent Certificate.round (Known p.committee received) (linkedStep s.dag) r := by
  intro parents hps
  refine ⟨_, by rw [linkedStep, hm]; rfl, ?_⟩
  intro y
  simp only [List.mem_map, List.mem_filter, List.any_eq_true, decide_eq_true_eq]
  constructor
  · rintro ⟨v, ⟨hv, x, hx, hpar⟩, rfl⟩
    obtain ⟨n, hn⟩ := (Dag.mem_values_iff hm).mp hv
    obtain ⟨hk, hdig, -, -⟩ := h.sound _ _ _ hn
    exact ⟨x, hx, hd.vertex_of_known hk, hdig ▸ hpar⟩
  · rintro ⟨x, hx, hpar⟩
    obtain ⟨hk, hr⟩ := hps x hx
    obtain ⟨hy, hround⟩ := goesDown_parent hd x y hk hpar
    have hyr : y.round = r := by omega
    have hfind := h.row_complete hy (by omega)
    rw [hyr] at hfind
    exact ⟨(y.digest, y), ⟨(Dag.mem_values_iff hm).mpr ⟨_, hfind⟩, x, hx, hpar.2⟩, rfl⟩

/-- Above the last committed round, `linked` decides causal history. -/
theorem linked_iff (hd : Redelivery D received) (h : Inv p received s)
    (hl : Known p.committee received l) (hq : Known p.committee received q)
    (hlc : s.lastCommittedRound ≤ q.round) (hlt : q.round < l.round) :
    ∃ b, linked l q s.dag = some b ∧ (b = true ↔ D.Reach l q) := by
  have hk : q.round + (l.round - q.round) = l.round := by omega
  obtain ⟨qs, hqs, hspec⟩ := sweep_spec (goesDown_parent hd) q.round (l.round - q.round)
    (fun r hle hlt => by
      obtain ⟨m, hm⟩ := h.row_isSome hd hl (show r ≤ l.round by omega) (by omega)
      exact sweeps_linkedStep hd h hm (by omega)) [l] (by simpa [hk] using hl)
  refine ⟨_, by rw [linked, roundsDown_eq, hqs]; rfl, ?_⟩
  simp only [List.any_eq_true, hspec, List.mem_singleton, exists_eq_left]
  constructor
  · rintro ⟨x, ⟨-, hreach⟩, hsame⟩
    simp only [Certificate.same, Bool.decide_and, Bool.and_eq_true, decide_eq_true_eq] at hsame
    have hxq : x = q := CausalDag.unique_vertex
      (CausalDag.Reach.vertex (hd.vertex_of_known hl) hreach)
      (hd.vertex_of_known hq) hsame.2.1 hsame.2.2
    rwa [← hxq]
  · intro hreach
    exact ⟨q, ⟨rfl, hreach⟩, by simp [Certificate.same]⟩

/-! ## `leader` and `order_leaders` -/

theorem leader_sound (hd : Redelivery D received) (h : Inv p received s) {r : ℕ} (hr : 0 < r)
    {v : Digest × Certificate PublicKey Digest Signature} (hv : p.leader r s.dag = some v) :
    D.IsLeader v.2 ∧ v.2.round = r ∧ Known p.committee received v.2 ∧ v.1 = v.2.digest := by
  simp only [Params.leader, Option.bind_eq_some_iff] at hv
  obtain ⟨name, hname, m, hm, hlook⟩ := hv
  obtain ⟨hk, hdig, hround, horigin⟩ := h.sound r name v (by rw [Dag.find_eq hm, hlook])
  refine ⟨⟨CausalDag.mem_certs_of_round (hd.vertex_of_known hk) (by omega), ?_⟩, hround, hk, hdig⟩
  rw [hround, horigin, hname]

theorem leader_complete (h : Inv p received s) (hq : D.IsLeader q)
    (hk : Known p.committee received q) (hlc : s.lastCommittedRound ≤ q.round) :
    p.leader q.round s.dag = some (q.digest, q) := by
  have hfind := h.row_complete hk hlc
  obtain ⟨m, hm⟩ := Dag.row_of_find hfind
  rw [Dag.find_eq hm] at hfind
  simp only [Params.leader, hq.2, hm, Option.bind_some, hfind]

/-- One round of `order_leaders` is one round of `pastLeaders`. -/
theorem orderLeadersStep_spec (hd : Redelivery D received) (h : Inv p received s)
    (hl : Known p.committee received l) {r : ℕ} (hlc : s.lastCommittedRound ≤ r) (hr0 : 0 < r)
    (hlt : r < l.round) (out : List (Certificate PublicKey Digest Signature)) (rs : List ℕ) :
    ∃ new l', orderLeadersStep p s.dag (out, l) r = some (out ++ new, l') ∧
      D.pastLeaders l (r :: rs) = new ++ D.pastLeaders l' rs ∧
      Known p.committee received l' ∧ (l' = l ∨ l'.round = r) := by
  by_cases hex : ∃ q, D.IsLeader q ∧ q.round = r ∧ D.Reach l q
  · obtain ⟨q, hq, rfl, hreach⟩ := hex
    have hkq := hd.known_of_reach hl hreach
    obtain ⟨b, hb, hiff⟩ := linked_iff hd h hl hkq hlc hlt
    refine ⟨[q], q, ?_, CausalDag.pastLeaders_cons_of hq hreach rs, hkq, Or.inr rfl⟩
    simp only [orderLeadersStep, leader_complete h hq hkq hlc, hb, hiff.mpr hreach,
      Option.map_some, if_true]
  · refine ⟨[], l, ?_, CausalDag.pastLeaders_cons_of_not hex rs, hl, Or.inl rfl⟩
    rw [List.append_nil]
    unfold orderLeadersStep
    cases hlead : p.leader r s.dag with
    | none => rfl
    | some v =>
        obtain ⟨d, q⟩ := v
        obtain ⟨hq, hqr, hkq, -⟩ := leader_sound hd h hr0 hlead
        obtain ⟨b, hb, hiff⟩ := linked_iff hd h hl hkq (hqr ▸ hlc) (hqr ▸ hlt)
        have hfalse : b ≠ true := fun hb' => hex ⟨q, hq, hqr, hiff.mp hb'⟩
        simp only [hb, Option.map_some, if_neg hfalse]

theorem foldlM_orderLeadersStep_spec (hd : Redelivery D received) (h : Inv p received s)
    (rs : List ℕ) (hl : Known p.committee received l)
    (hrs : ∀ r ∈ rs, s.lastCommittedRound ≤ r ∧ 0 < r ∧ r < l.round)
    (hsorted : rs.Pairwise fun r r' => r' < r)
    (out : List (Certificate PublicKey Digest Signature)) :
    ∃ l', rs.foldlM (orderLeadersStep p s.dag) (out, l) =
      some (out ++ D.pastLeaders l rs, l') := by
  induction rs generalizing l out with
  | nil => exact ⟨l, by simp [CausalDag.pastLeaders]⟩
  | cons r rs ih =>
      rw [List.pairwise_cons] at hsorted
      obtain ⟨hlc, hr0, hlt⟩ := hrs r List.mem_cons_self
      obtain ⟨new, l', hstep, hpast, hl', hcase⟩ :=
        orderLeadersStep_spec (D := D) hd h hl hlc hr0 hlt out rs
      have hrs' : ∀ r' ∈ rs, s.lastCommittedRound ≤ r' ∧ 0 < r' ∧ r' < l'.round := by
        intro r' hr'
        obtain ⟨h1, h2, h3⟩ := hrs r' (List.mem_cons_of_mem _ hr')
        refine ⟨h1, h2, ?_⟩
        rcases hcase with rfl | hcase
        · exact h3
        · rw [hcase]
          exact hsorted.1 r' hr'
      obtain ⟨l'', hrun⟩ := ih hl' hrs' hsorted.2 (out ++ new)
      refine ⟨l'', ?_⟩
      rw [List.foldlM_cons, hstep, hpast, ← List.append_assoc]
      exact hrun

theorem orderLeaders_eq (hd : Redelivery D received) (h : Inv p received s)
    (hl : Known p.committee received l) (hl0 : 2 ≤ l.round) :
    orderLeaders p l s =
      some (l :: D.pastLeaders l (stepDown (s.lastCommittedRound + 2) (l.round - 2))) := by
  have hrs : ∀ r ∈ stepDown (s.lastCommittedRound + 2) (l.round - 2),
      s.lastCommittedRound ≤ r ∧ 0 < r ∧ r < l.round := by
    intro r hr
    have := mem_stepDown hr
    omega
  obtain ⟨l', hrun⟩ := foldlM_orderLeadersStep_spec (D := D) hd h _ hl hrs (sorted_stepDown _ _) [l]
  rw [orderLeaders, hrun]
  rfl

/-! ## Support -/

/-- The stake that `support` counts is held by supporters of the leader. -/
theorem support_spec (hd : Redelivery D received) (h : Inv p received s)
    (htotal : p.committee.total < 2 ^ 32) {m : Authorities PublicKey Digest Signature}
    (hm : s.dag (l.round + 1) = some m) :
    ∃ t, support p s.dag (l.round + 1) l.digest = some (p.committee.stakeOf t) ∧
      D.Supports l t := by
  let vs := m.values.filter fun x => decide (l.digest ∈ x.2.header.parents)
  have hvs : ∀ v ∈ vs, v.2.round = l.round + 1 ∧ Known p.committee received v.2 ∧
      l.digest ∈ v.2.header.parents := by
    intro v hv
    obtain ⟨hv, hpar⟩ := List.mem_filter.mp hv
    obtain ⟨n, hn⟩ := (Dag.mem_values_iff hm).mp hv
    obtain ⟨hk, -, hr, -⟩ := h.sound _ _ _ hn
    exact ⟨hr, hk, by simpa using hpar⟩
  have horigin : m.values.map (fun v => v.2.origin) = m.entries.map Sigma.fst := by
    rw [AList.values, List.map_map]
    refine List.map_congr_left fun e he => ?_
    have hfind : s.dag.find (l.round + 1) e.1 = some e.2 := by
      rw [Dag.find_eq hm]
      exact AList.mem_entries_iff.mp he
    exact (h.sound _ _ _ hfind).2.2.2
  have hnodup : (vs.map fun v => v.2.origin).Nodup := by
    refine List.Nodup.sublist (List.Sublist.map _ List.filter_sublist) ?_
    rw [horigin]
    exact m.nodupKeys
  have hsum : (vs.map fun v => p.committee.stake v.2.origin).sum =
      p.committee.stakeOf (vs.map fun v => v.2.origin).toFinset := by
    rw [Committee.stakeOf, List.sum_toFinset _ hnodup, List.map_map]
    rfl
  refine ⟨(vs.map fun v => v.2.origin).toFinset, ?_, ?_⟩
  · rw [support, hm, Option.map_some, sumU32_eq]
    · exact congrArg some hsum
    · exact hsum ▸ (p.committee.stakeOf_le_total _).trans_lt htotal
  · intro a ha
    obtain ⟨v, hv, rfl⟩ := List.mem_map.mp (List.mem_toFinset.mp ha)
    obtain ⟨hr, hk, hpar⟩ := hvs v hv
    exact ⟨v.2, CausalDag.mem_certs_of_round (hd.vertex_of_known hk) (by omega), rfl, hr, hpar⟩

/-- A committee that certifies anything is not empty. -/
theorem size_ne_zero (hc : c ∈ D.certs) : p.committee.size ≠ 0 := by
  intro h0
  obtain ⟨t, ht, -⟩ := D.quorum c hc
  have hnil : p.committee.authorities.entries = [] := List.eq_nil_of_length_eq_zero h0
  have hle := p.committee.stakeOf_le_total t
  have h0 : p.committee.total = 0 := by simp [Committee.total, hnil]
  unfold Committee.quorum at ht
  omega

/-- A leader that is elected is above the last committed round, known and supported. -/
structure Elected (D : CausalDag Digest Signature p.committee)
    (received : List (Certificate PublicKey Digest Signature))
    (s : State PublicKey Digest Signature) (l : Certificate PublicKey Digest Signature) :
    Prop where
  isLeader : D.IsLeader l
  known : Known p.committee received l
  supported : D.Supported l
  round_even : l.round % 2 = 0
  two_le_round : 2 ≤ l.round
  lt_round : s.lastCommittedRound < l.round

/-- A leader that may be elected is above the last committed round and known. -/
structure Candidate (D : CausalDag Digest Signature p.committee)
    (received : List (Certificate PublicKey Digest Signature))
    (s : State PublicKey Digest Signature) (l : Certificate PublicKey Digest Signature) :
    Prop where
  isLeader : D.IsLeader l
  known : Known p.committee received l
  round_even : l.round % 2 = 0
  two_le_round : 2 ≤ l.round
  lt_round : s.lastCommittedRound < l.round

theorem Elected.candidate (h : Elected D received s l) : Candidate D received s l :=
  ⟨h.isLeader, h.known, h.round_even, h.two_le_round, h.lt_round⟩

/-- `electedLeader` does not panic. A leader that it elects has the support of the next
    round, as far as `u32` can tell. -/
theorem electedLeader_candidate (hd : Redelivery D received) (h : Inv p received s)
    (hc : Known p.committee received c) (hcert : c ∈ D.certs) :
    ∃ o, electedLeader p s c.round = some o ∧ ∀ l, o = some l → Candidate D received s l ∧
      (∃ m, s.dag (l.round + 1) = some m) ∧
      ∃ stake, support p s.dag (l.round + 1) l.digest = some stake ∧
        p.committee.validityThreshold ≤ stake := by
  have hc0 := D.round_pos c hcert
  have hprev : prevRound c.round = c.round - 1 := by rw [prevRound, if_neg (by omega)]
  unfold electedLeader
  simp only [hprev, size_ne_zero hcert, if_false]
  split
  · exact ⟨none, rfl, by simp⟩
  · rename_i heven
    split
    · exact ⟨none, rfl, by simp⟩
    · rename_i hlc
      cases hlead : p.leader (c.round - 1 - 2) s.dag with
      | none => exact ⟨none, rfl, by simp⟩
      | some v =>
          obtain ⟨d, l⟩ := v
          obtain ⟨hl, hlr, hkl, hdig⟩ := leader_sound hd h (by omega) hlead
          dsimp only at hl hlr hkl hdig
          subst hdig
          have hrow : c.round - 1 - 1 = l.round + 1 := by omega
          obtain ⟨m, hm⟩ := h.row_isSome (r := l.round + 1) hd hc (by omega) (by omega)
          have hsup : ∃ stake, support p s.dag (l.round + 1) l.digest = some stake :=
            ⟨_, by rw [support, hm]; rfl⟩
          obtain ⟨stake, hstake⟩ := hsup
          simp only [hrow, hstake, Option.map_some]
          split
          · exact ⟨none, rfl, by simp⟩
          · rename_i hge
            refine ⟨some l, rfl, ?_⟩
            rintro _ ⟨rfl⟩
            exact ⟨⟨hl, hkl, by omega, by omega, by omega⟩, ⟨m, hm⟩, stake, hstake, by omega⟩

/-- `electedLeader` elects leaders with enough support only. -/
theorem electedLeader_spec (hd : Redelivery D received) (h : Inv p received s)
    (hc : Known p.committee received c) (hcert : c ∈ D.certs)
    (htotal : 2 * p.committee.total < 2 ^ 32) :
    ∃ o, electedLeader p s c.round = some o ∧ ∀ l, o = some l → Elected D received s l := by
  obtain ⟨o, ho, hspec⟩ := electedLeader_candidate hd h hc hcert
  refine ⟨o, ho, fun l hl => ?_⟩
  obtain ⟨hcand, ⟨m, hm⟩, stake, hstake, hge⟩ := hspec l hl
  obtain ⟨t, hsup, ht⟩ := support_spec (D := D) hd h (by omega) hm
  obtain rfl : stake = p.committee.stakeOf t := Option.some.inj (hstake.symm.trans hsup)
  have hvalid : p.committee.total < p.committee.quorum + p.committee.stakeOf t := by
    have hone : p.committee.total = 0 ∨ p.committee.total + 2 < 2 ^ 32 := by omega
    rcases hone with h0 | hone
    · unfold Committee.quorum
      omega
    · rw [Committee.validityThreshold_eq hone] at hge
      unfold Committee.quorum
      omega
  exact ⟨hcand.isLeader, hcand.known, ⟨t, ht, hvalid⟩, hcand.round_even, hcand.two_le_round,
    hcand.lt_round⟩

/-! ## The log of a validator -/

/-- What a validator has committed is the chain of the last leader it elected. -/
structure Committed (D : CausalDag Digest Signature p.committee)
    (received : List (Certificate PublicKey Digest Signature))
    (log : Log PublicKey Digest Signature) : Prop where
  inv : Inv p received log.state
  leaders : (log.leaders = [] ∧ log.state.lastCommittedRound = 0) ∨
    ∃ l, D.IsLeader l ∧ D.Supported l ∧ l.round % 2 = 0 ∧ 2 ≤ l.round ∧
      log.state.lastCommittedRound = l.round ∧ log.leaders = D.chain l

theorem committed_initial (D : CausalDag Digest Signature p.committee) :
    Committed D [] (Log.initial p) :=
  ⟨inv_new, Or.inl ⟨rfl, rfl⟩⟩

/-- The leaders that electing `l` commits extend the log to the chain of `l`. -/
theorem Committed.chain_eq {log : Log PublicKey Digest Signature} (h : Committed D received log)
    {received' : List (Certificate PublicKey Digest Signature)}
    (hl : Elected D received' log.state l) :
    D.chain l = log.leaders ++
      (l :: D.pastLeaders l
        (stepDown (log.state.lastCommittedRound + 2) (l.round - 2))).reverse := by
  rcases h.leaders with ⟨hnil, h0⟩ | ⟨m, hm, hs, heven, h2, hround, hchain⟩
  · rw [hnil, h0]
    rfl
  · have := hl.lt_round
    have := hl.round_even
    rw [hchain, hround]
    exact CausalDag.chain_split hm hl.isLeader hs heven hl.round_even h2 (by omega)

/-- The leaders that an elected leader commits are known, above the last committed round
    and of decreasing rounds. -/
theorem orderLeaders_spec (hd : Redelivery D received) (hl : Candidate D received s l) :
    (∀ q ∈ l :: D.pastLeaders l (stepDown (s.lastCommittedRound + 2) (l.round - 2)),
        Known p.committee received q) ∧
      (∀ q ∈ l :: D.pastLeaders l (stepDown (s.lastCommittedRound + 2) (l.round - 2)),
        s.lastCommittedRound ≤ q.round) ∧
      (l :: D.pastLeaders l (stepDown (s.lastCommittedRound + 2) (l.round - 2))).Pairwise
        fun x y => y.round < x.round := by
  have hlt := hl.lt_round
  have h2 := hl.two_le_round
  have hpast : ∀ q ∈ D.pastLeaders l (stepDown (s.lastCommittedRound + 2) (l.round - 2)),
      Known p.committee received q ∧ s.lastCommittedRound ≤ q.round ∧ q.round < l.round := by
    intro q hq
    obtain ⟨-, hr, hreach⟩ := CausalDag.mem_pastLeaders hq
    have := mem_stepDown hr
    exact ⟨hd.known_of_reach hl.known hreach, by omega, by omega⟩
  simp only [List.forall_mem_cons, List.pairwise_cons]
  exact ⟨⟨hl.known, fun q hq => (hpast q hq).1⟩, ⟨hlt.le, fun q hq => (hpast q hq).2.1⟩,
    fun q hq => (hpast q hq).2.2, CausalDag.sorted_pastLeaders (sorted_stepDown _ _)⟩

/-- An iteration does not panic. What it commits, if anything, are the leaders of the walk
    from an elected leader, oldest first. -/
theorem logStep_cases {log : Log PublicKey Digest Signature} (hd : Redelivery D (received ++ [c]))
    (h : Inv p received log.state) :
    ∃ log', logStep p log c = some log' ∧ Inv p (received ++ [c]) log'.state ∧
      ((electedLeader p (log.state.add c) c.round = some none ∧ log'.state = log.state.add c ∧
          log'.leaders = log.leaders) ∨
        ∃ l, electedLeader p (log.state.add c) c.round = some (some l) ∧
          Candidate D (received ++ [c]) (log.state.add c) l ∧
          log'.state.lastCommittedRound = l.round ∧
          log'.leaders = log.leaders ++ (l :: D.pastLeaders l
            (stepDown (log.state.lastCommittedRound + 2) (l.round - 2))).reverse) := by
  have hinv := inv_add hd h
  have hc : Known p.committee (received ++ [c]) c := Or.inl (by simp)
  obtain ⟨o, ho, hel⟩ := electedLeader_candidate hd hinv hc hd.last_mem
  unfold logStep runStep
  simp only [ho]
  cases o with
  | none => exact ⟨_, rfl, hinv, Or.inl ⟨rfl, rfl, List.append_nil _⟩⟩
  | some l =>
      have hl := (hel l rfl).1
      have h2 := hl.two_le_round
      obtain ⟨hknown, hlc, hsorted⟩ := orderLeaders_spec hd hl
      simp only [orderLeaders_eq hd hinv hl.known h2, Option.bind_some]
      obtain ⟨s', out', hrun, hinv', hround⟩ := foldlM_commitLeader_spec hd _ hinv
        (fun q hq => hknown q (List.mem_reverse.mp hq))
        (fun q hq => hlc q (List.mem_reverse.mp hq))
        (List.pairwise_reverse.mpr hsorted) []
      refine ⟨_, by rw [hrun]; rfl, hinv', Or.inr ⟨l, rfl, hl, ?_, rfl⟩⟩
      simpa using hround

/-- One iteration of the loop. -/
theorem logStep_spec (htotal : 2 * p.committee.total < 2 ^ 32)
    {log : Log PublicKey Digest Signature} (hd : Redelivery D (received ++ [c]))
    (h : Committed D received log) :
    ∃ log', logStep p log c = some log' ∧ Committed D (received ++ [c]) log' := by
  obtain ⟨log', hstep, hinv', hcase⟩ := logStep_cases hd h.inv
  refine ⟨log', hstep, hinv', ?_⟩
  rcases hcase with ⟨-, hstate, hleaders⟩ | ⟨l, ho, -, hround, hleaders⟩
  · rw [hstate, hleaders]
    exact h.leaders
  · obtain ⟨o, ho', hel⟩ := electedLeader_spec hd (inv_add hd h.inv) (Or.inl (by simp))
      hd.last_mem htotal
    have hl := hel l (Option.some.inj (ho'.symm.trans ho))
    have hel : Elected D (received ++ [c]) log.state l :=
      ⟨hl.isLeader, hl.known, hl.supported, hl.round_even, hl.two_le_round, hl.lt_round⟩
    exact Or.inr ⟨l, hl.isLeader, hl.supported, hl.round_even, hl.two_le_round, hround,
      by rw [hleaders, h.chain_eq hel]⟩

/-- A validator never panics, and its log stays the chain of a leader. -/
theorem run_spec (htotal : 2 * p.committee.total < 2 ^ 32) (hd : Redelivery D received) :
    ∃ log, run p received = some log ∧ Committed D received log := by
  induction received using List.reverseRecOn with
  | nil => exact ⟨_, rfl, committed_initial D⟩
  | append_singleton received c ih =>
      obtain ⟨log, hrun, hlog⟩ := ih hd.of_append
      obtain ⟨log', hstep, hlog'⟩ := logStep_spec htotal hd hlog
      refine ⟨log', ?_, hlog'⟩
      unfold run at hrun ⊢
      rw [List.foldlM_append, hrun]
      simpa using hstep

/-- The same without a bound on the stake. -/
theorem run_inv (hd : Redelivery D received) :
    ∃ log, run p received = some log ∧ Inv p received log.state := by
  induction received using List.reverseRecOn with
  | nil => exact ⟨_, rfl, inv_new⟩
  | append_singleton received c ih =>
      obtain ⟨log, hrun, hlog⟩ := ih hd.of_append
      obtain ⟨log', hstep, hlog', -⟩ := logStep_cases hd hlog
      refine ⟨log', ?_, hlog'⟩
      unfold run at hrun ⊢
      rw [List.foldlM_append, hrun]
      simpa using hstep

/-- The leader sequences of two validators are comparable. -/
theorem leaders_comparable {received' : List (Certificate PublicKey Digest Signature)}
    {log log' : Log PublicKey Digest Signature} (h : Committed D received log)
    (h' : Committed D received' log') :
    log.leaders <+: log'.leaders ∨ log'.leaders <+: log.leaders := by
  rcases h.leaders with ⟨hnil, -⟩ | ⟨l, hl, hs, heven, h2, -, hchain⟩
  · rw [hnil]
    exact Or.inl List.nil_prefix
  rcases h'.leaders with ⟨hnil', -⟩ | ⟨l', hl', hs', heven', h2', -, hchain'⟩
  · rw [hnil']
    exact Or.inr List.nil_prefix
  rw [hchain, hchain']
  rcases lt_trichotomy l.round l'.round with hlt | heq | hlt
  · rw [CausalDag.chain_split hl hl' hs heven heven' h2 (by omega)]
    exact Or.inl (List.prefix_append _ _)
  · rw [hl.unique hl' heq]
    exact Or.inl (List.prefix_refl _)
  · rw [CausalDag.chain_split hl' hl hs' heven' heven h2' (by omega)]
    exact Or.inr (List.prefix_append _ _)

theorem Committed.sorted {log : Log PublicKey Digest Signature} (h : Committed D received log) :
    log.leaders.Pairwise fun x y => x.round < y.round := by
  rcases h.leaders with ⟨hnil, -⟩ | ⟨l, -, -, -, h2, -, hchain⟩
  · rw [hnil]
    exact List.Pairwise.nil
  · rw [hchain]
    exact D.sorted_chain l h2

/-- A leader below a shared one is shared: nobody skips it. -/
theorem mem_leaders_of_le {received' : List (Certificate PublicKey Digest Signature)}
    {log log' : Log PublicKey Digest Signature} (h : Committed D received log)
    (h' : Committed D received' log') (hq : q ∈ log.leaders) (hl : l ∈ log'.leaders)
    (hle : q.round ≤ l.round) : q ∈ log'.leaders := by
  rcases leaders_comparable h h' with hpre | ⟨rest, hpre⟩
  · exact hpre.subset hq
  · have hsorted := h.sorted
    rw [← hpre, List.pairwise_append] at hsorted
    rw [← hpre] at hq
    rcases List.mem_append.mp hq with hq | hq
    · exact hq
    · have := hsorted.2.2 l hl q hq
      omega

/-! ## A DAG of three authorities

Authority 0 has stake 5, and 1 and 2 have stake 1 each: authority 0 alone is a quorum.
The leaders of rounds 2 and 4 are 2 and 1. -/

open Toy

namespace Sample

def committee : Committee ℕ :=
  ⟨⟨[(0, ⟨5, []⟩), (1, ⟨1, []⟩), (2, ⟨1, []⟩)], Committee.sorted_three⟩⟩

def params : Params ℕ := ⟨committee, 50⟩

/-- The id of the header of an authority in a round. -/
def headerId (r o : ℕ) : ℕ := if r = 0 then 0 else 10 * r + o

/-- The certificate of `o` in round `r` whose parents are by the given authors. -/
def cert (r o : ℕ) (authors : List ℕ) : Certificate ℕ ℕ Unit where
  header :=
    { author := o, round := r, payload := ∅, accountCounts := ∅, avgQueueDelayMs := 0
      createdAt := 0, id := headerId r o, signature := ()
      parents := OrdSet.ofList (authors.map fun a =>
        Sha512.sha512 (voteBytes (headerId (r - 1) a) (r - 1) a)) }
  votes := []

/-- What is delivered before the leader of round 2 is committed, but for the certificate
    of authority 2 in round 1. -/
def early : List (Certificate ℕ ℕ Unit) :=
  [cert 2 2 [0], cert 2 0 [0], cert 3 0 [0, 2], cert 4 0 [0], cert 5 2 [0]]

/-- What is delivered after. -/
def late : List (Certificate ℕ ℕ Unit) :=
  [cert 2 1 [0, 2], cert 3 1 [0, 1], cert 4 1 [0, 1], cert 5 0 [0, 1], cert 6 0 [0], cert 7 0 [0]]

/-- The certificate of authority 2 in round 1 comes early. -/
def orderEarly : List (Certificate ℕ ℕ Unit) := [cert 1 0 [0], cert 1 2 [0]] ++ early ++ late

/-- The same in another order. -/
def orderSwapped : List (Certificate ℕ ℕ Unit) := [cert 1 2 [0], cert 1 0 [0]] ++ early ++ late

/-- The certificate of authority 2 in round 1 comes late. -/
def orderLate : List (Certificate ℕ ℕ Unit) := [cert 1 0 [0]] ++ early ++ [cert 1 2 [0]] ++ late

def dag : CausalDag ℕ Unit params.committee :=
  CausalDag.ofList orderEarly (by decide +kernel) (by decide +kernel) (by decide +kernel)
    (by decide +kernel) (by decide +kernel)

theorem delivery_orderEarly : Delivery dag orderEarly :=
  Delivery.ofList rfl (by decide +kernel) (by decide +kernel) (by decide +kernel)

theorem delivery_orderSwapped : Delivery dag orderSwapped :=
  Delivery.ofList (l := orderEarly) rfl (by decide +kernel) (by decide +kernel) (by decide +kernel)

theorem delivery_orderLate : Delivery dag orderLate :=
  Delivery.ofList (l := orderEarly) rfl (by decide +kernel) (by decide +kernel) (by decide +kernel)

end Sample

/-! ## Agreement -/

/-- Any two validators commit comparable sequences of leaders, whatever the order in
    which each of them receives the DAG, and at every moment; no leader that one of them
    commits below a shared leader is skipped by the other. -/
theorem leaders_agree (p : Params PublicKey) (htotal : 2 * p.committee.total < 2 ^ 32)
    (D : CausalDag Digest Signature p.committee)
    (received received' : List (Certificate PublicKey Digest Signature))
    (hd : Delivery D received) (hd' : Delivery D received') :
    ∃ log log', run p received = some log ∧ run p received' = some log' ∧
      (log.leaders <+: log'.leaders ∨ log'.leaders <+: log.leaders) ∧
      ∀ q ∈ log.leaders, ∀ l ∈ log.leaders, l ∈ log'.leaders → q.round ≤ l.round →
        q ∈ log'.leaders := by
  obtain ⟨log, hrun, hlog⟩ := run_spec htotal hd.redelivery
  obtain ⟨log', hrun', hlog'⟩ := run_spec htotal hd'.redelivery
  exact ⟨log, log', hrun, hrun', leaders_comparable hlog hlog',
    fun q hq l _ hl hle => mem_leaders_of_le hlog hlog' hq hl hle⟩

theorem leaders_agree_sample :
    ∃ log log', run Sample.params Sample.orderEarly = some log ∧
      run Sample.params Sample.orderLate = some log' ∧
      (log.leaders <+: log'.leaders ∨ log'.leaders <+: log.leaders) ∧
      ∀ q ∈ log.leaders, ∀ l ∈ log.leaders, l ∈ log'.leaders → q.round ≤ l.round →
        q ∈ log'.leaders :=
  leaders_agree Sample.params (by decide) Sample.dag Sample.orderEarly Sample.orderLate
    Sample.delivery_orderEarly Sample.delivery_orderLate

end DagBft.Consensus
