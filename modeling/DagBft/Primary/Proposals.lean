/-
  The headers that a proposer makes over a run (`primary/src/proposer.rs`).

  Parents, batches and the timer come in any order; rounds are natural numbers, as in
  `Primary/Proposer`. `proposer_discipline`: the rounds of the headers increase, the parents
  of each are those of one delivery for the round before, and the batches received fall into
  one piece for each header and the piece that waits.
-/
import DagBft.Primary.Acceptance

namespace DagBft.Proposer

/-- One iteration of the loop: whether the timer has expired, the time at the top, and the
    branch of `select!`. -/
structure Iteration (Digest : Type) [LinearOrder Digest] where
  timerExpired : Bool
  now : ℕ
  event : Event Digest

/-- The headers sent to `Core`, in order, and the state. -/
structure Proposals (PublicKey Digest Signature : Type) [LinearOrder PublicKey]
    [LinearOrder Digest] where
  headers : List (Header PublicKey Digest Signature)
  state : State Digest

variable {PublicKey Digest Signature : Type} [LinearOrder PublicKey] [LinearOrder Digest]
  [AsBytes PublicKey] [AsBytes Digest] [Sha512 Digest] [Inhabited PublicKey] [Inhabited Digest]
  [Inhabited Signature] [Ed25519 PublicKey Digest Signature]

section Definitions

variable (p : Params PublicKey)

/-- One iteration: `step`, with the header it makes. -/
def iterate (x : Proposals PublicKey Digest Signature) (i : Iteration Digest) :
    Proposals PublicKey Digest Signature where
  headers := if proposes p i.timerExpired x.state then
    x.headers ++ [newHeader Signature p i.now x.state] else x.headers
  state := step p x.state i.timerExpired i.event

variable (Signature) in
/-- `run`, for some iterations. -/
def run (iterations : List (Iteration Digest)) : Proposals PublicKey Digest Signature :=
  iterations.foldl (iterate p) ⟨[], State.initial Signature p⟩

/-- The parents delivered, with their rounds. -/
def delivered (iterations : List (Iteration Digest)) : List (List Digest × ℕ) :=
  iterations.filterMap fun i => match i.event with
    | .newParents parents round => some (parents, round)
    | _ => none

/-- The batches received. -/
def received (iterations : List (Iteration Digest)) : List (Digest × ℕ) :=
  iterations.filterMap fun i => match i.event with
    | .ourBatch digest worker _ _ => some (digest, worker)
    | _ => none

variable (Signature) in
/-- The genesis vector and the deliveries of later rounds. -/
def vectors (iterations : List (Iteration Digest)) : List (List Digest × ℕ) :=
  ((State.initial Signature p).lastParents, 0) ::
    (delivered iterations).filter fun d => 0 < d.2

/-- What a header takes from a vector of parents and its round. -/
def ofVector (d : List Digest × ℕ) : OrdSet Digest × ℕ := (OrdSet.ofList d.1, d.2 + 1)

end Definitions

/-! ## One iteration -/

variable {p : Params PublicKey}

/-- The vector of parents that waits in a state. -/
def pending (s : State Digest) : List (List Digest × ℕ) :=
  if s.lastParents = [] then [] else [(s.lastParents, s.round - 1)]

/-- The invariant: the headers use some of the vectors in order, the one that waits comes
    after them, and the headers hold what was received before the batches that wait. -/
structure Discipline (vs : List (List Digest × ℕ)) (bs : List (Digest × ℕ))
    (x : Proposals PublicKey Digest Signature) : Prop where
  round_pos : 0 < x.state.round
  increasing : x.headers.Pairwise fun h h' => h.round < h'.round
  lt_round : ∀ h ∈ x.headers,
    h.round < x.state.round ∨ h.round = x.state.round ∧ x.state.lastParents = []
  parents : ∃ used : List (List Digest × ℕ), (used ++ pending x.state).Sublist vs ∧
    x.headers.map (fun h => (h.parents, h.round)) = used.map ofVector
  batches : ∃ chunks : List (List (Digest × ℕ)), chunks.flatten ++ x.state.digests = bs ∧
    x.headers.map (·.payload) = chunks.map collectPayload

variable {vs : List (List Digest × ℕ)} {bs : List (Digest × ℕ)}
  {x : Proposals PublicKey Digest Signature} {s : State Digest}

omit [LinearOrder Digest] [AsBytes PublicKey] [AsBytes Digest] [Sha512 Digest]
  [Inhabited PublicKey] [Inhabited Digest] in
theorem proposes_parents {timerExpired : Bool} (h : proposes p timerExpired s = true) :
    s.lastParents ≠ [] := by
  unfold proposes at h
  simp only [Bool.and_eq_true, decide_eq_true_eq] at h
  exact h.2

omit [LinearOrder Digest] [AsBytes Digest] [Sha512 Digest] [Inhabited Digest] in
theorem pending_sublist (s : State Digest) :
    (pending s).Sublist [(s.lastParents, s.round - 1)] := by
  unfold pending
  split
  · exact List.nil_sublist _
  · exact List.Sublist.refl _

omit [LinearOrder Digest] [AsBytes Digest] [Sha512 Digest] [Inhabited Digest] in
theorem pending_drained (s : State Digest) : pending s.drained = [] := if_pos rfl

omit [Inhabited PublicKey] in
/-- The header at the top of the loop takes the vector and the batches that wait. -/
theorem Discipline.propose (hd : Discipline vs bs x)
    (hparents : x.state.lastParents ≠ []) (now : ℕ) :
    Discipline vs bs
      ⟨x.headers ++ [newHeader Signature p now x.state], x.state.drained⟩ where
  round_pos := hd.round_pos
  increasing := by
    rw [List.pairwise_append]
    refine ⟨hd.increasing, List.pairwise_singleton _ _, fun h hh h' hh' => ?_⟩
    obtain rfl := List.mem_singleton.mp hh'
    exact (hd.lt_round h hh).resolve_right fun hnone => hparents hnone.2
  lt_round h hh := by
    rcases List.mem_append.mp hh with hh | hh
    · exact Or.inl ((hd.lt_round h hh).resolve_right fun hnone => hparents hnone.2)
    · obtain rfl := List.mem_singleton.mp hh
      exact Or.inr ⟨rfl, rfl⟩
  parents := by
    obtain ⟨used, hsub, hused⟩ := hd.parents
    refine ⟨used ++ [(x.state.lastParents, x.state.round - 1)], ?_, ?_⟩
    · rw [pending, if_neg hparents] at hsub
      show (used ++ [(x.state.lastParents, x.state.round - 1)] ++
        pending x.state.drained).Sublist vs
      rwa [pending_drained, List.append_nil]
    · have hround : x.state.round - 1 + 1 = x.state.round := Nat.sub_add_cancel hd.round_pos
      rw [List.map_append, List.map_append, hused, List.map_singleton, List.map_singleton,
        ofVector, hround]
      rfl
  batches := by
    obtain ⟨chunks, hchunks, hpayload⟩ := hd.batches
    refine ⟨chunks ++ [x.state.digests], ?_, ?_⟩
    · rw [List.flatten_append, List.flatten_singleton]
      exact (List.append_nil _).trans hchunks
    · rw [List.map_append, List.map_append, hpayload]
      rfl

omit [AsBytes PublicKey] [Inhabited PublicKey] [Inhabited Signature]
  [Ed25519 PublicKey Digest Signature] [AsBytes Digest] [Sha512 Digest] [Inhabited Digest] in
/-- Parents of an older round are dropped, others replace the vector that waits. -/
theorem Discipline.newParents (hd : Discipline vs bs x) (parents : List Digest)
    (round : ℕ) :
    Discipline (vs ++ [(parents, round)].filter fun d => 0 < d.2) bs
      { x with state := receive x.state (.newParents parents round) } := by
  obtain ⟨used, hsub, hused⟩ := hd.parents
  by_cases hold : round < x.state.round
  · simp only [receive, if_pos hold]
    exact
      { hd with parents := ⟨used, hsub.trans (List.sublist_append_left _ _), hused⟩ }
  · have hpos : 0 < round := hd.round_pos.trans_le (not_lt.mp hold)
    have hfilter : [(parents, round)].filter (fun d => decide (0 < d.2)) = [(parents, round)] := by
      simp [hpos]
    rw [hfilter]
    simp only [receive, if_neg hold]
    refine ⟨Nat.succ_pos round, hd.increasing, fun h hh => Or.inl ?_, ⟨used, ?_, hused⟩,
      hd.batches⟩
    · have hle : h.round ≤ x.state.round := by
        rcases hd.lt_round h hh with hlt | ⟨heq, -⟩
        · exact hlt.le
        · exact heq.le
      exact Nat.lt_succ_of_le (hle.trans (not_lt.mp hold))
    · exact ((List.sublist_append_left _ _).trans hsub).append (pending_sublist _)

omit [AsBytes PublicKey] [AsBytes Digest] [Sha512 Digest] [Inhabited PublicKey] [Inhabited Digest]
  [Inhabited Signature] [Ed25519 PublicKey Digest Signature] in
theorem Discipline.ourBatch (hd : Discipline vs bs x) (digest : Digest) (worker : ℕ)
    (counts : OrdMap ℕ ℕ) (queueDelayMs : ℕ) :
    Discipline vs (bs ++ [(digest, worker)])
      { x with state := receive x.state (.ourBatch digest worker counts queueDelayMs) } where
  round_pos := hd.round_pos
  increasing := hd.increasing
  lt_round := hd.lt_round
  parents := hd.parents
  batches := by
    obtain ⟨chunks, hchunks, hpayload⟩ := hd.batches
    refine ⟨chunks, ?_, hpayload⟩
    rw [← hchunks, List.append_assoc]
    rfl

/-! ## Runs -/

theorem discipline_run (p : Params PublicKey) (iterations : List (Iteration Digest)) :
    Discipline (vectors Signature p iterations) (received iterations)
      (run Signature p iterations) := by
  induction iterations using List.reverseRecOn with
  | nil =>
      have hgenesis := pending_sublist (State.initial Signature p : State Digest)
      have hempty : ∀ h : Header PublicKey Digest Signature, h ∉ [] := fun _ => List.not_mem_nil
      exact
        { round_pos := Nat.one_pos
          increasing := List.Pairwise.nil
          lt_round := fun h hh => absurd hh (hempty h)
          parents := ⟨[], hgenesis, rfl⟩
          batches := ⟨[], rfl, rfl⟩ }
  | append_singleton iterations i ih =>
      -- the top of the loop
      have htop : Discipline (vectors Signature p iterations) (received iterations)
          ⟨(iterate p (run Signature p iterations) i).headers,
            if proposes p i.timerExpired (run Signature p iterations).state then
              (run Signature p iterations).state.drained
            else (run Signature p iterations).state⟩ := by
        unfold iterate
        dsimp only
        split
        · rename_i hproposes
          exact ih.propose (proposes_parents hproposes) i.now
        · exact ih
      have hrun : run Signature p (iterations ++ [i]) =
          iterate p (run Signature p iterations) i := by
        unfold run
        rw [List.foldl_append]
        rfl
      have hvectors : vectors Signature p (iterations ++ [i]) =
          vectors Signature p iterations ++
            (delivered [i]).filter fun d => 0 < d.2 := by
        unfold vectors delivered
        rw [List.filterMap_append, List.filter_append, List.cons_append]
      have hreceived : received (iterations ++ [i]) = received iterations ++ received [i] :=
        List.filterMap_append
      rw [hrun, hvectors, hreceived]
      obtain ⟨timerExpired, now, e⟩ := i
      cases e with
      | newParents parents round =>
          rw [show received [Iteration.mk timerExpired now (.newParents parents round)] = []
            from rfl, List.append_nil]
          exact htop.newParents parents round
      | ourBatch digest worker counts queueDelayMs =>
          rw [show delivered [Iteration.mk timerExpired now
            (.ourBatch digest worker counts queueDelayMs)] = [] from rfl, List.filter_nil,
            List.append_nil]
          exact htop.ourBatch digest worker counts queueDelayMs
      | timer =>
          rw [show received [Iteration.mk timerExpired now (Event.timer : Event Digest)] = []
            from rfl, show delivered [Iteration.mk timerExpired now (Event.timer : Event Digest)] =
            [] from rfl, List.filter_nil, List.append_nil, List.append_nil]
          exact htop

omit [AsBytes Digest] [Sha512 Digest] [Inhabited Digest] in
/-- A digest received once is in one piece at most. -/
theorem countP_chunks (digest : Digest) (chunks : List (List (Digest × ℕ)))
    (h : (chunks.flatten.map Prod.fst).count digest ≤ 1) :
    (chunks.map collectPayload).countP (fun payload => digest ∈ payload.keys) =
      (chunks.flatten.map Prod.fst).count digest := by
  induction chunks with
  | nil => rfl
  | cons chunk chunks ih =>
      rw [List.flatten_cons, List.map_append, List.count_append] at h ⊢
      rw [List.map_cons, List.countP_cons, ih (by omega), Nat.add_comm]
      congr 1
      by_cases hmem : digest ∈ chunk.map Prod.fst
      · have hpos := List.count_pos_iff.mpr hmem
        rw [if_pos (decide_eq_true (mem_keys_collectPayload.mpr hmem))]
        omega
      · rw [List.count_eq_zero.mpr hmem, if_neg]
        simpa [mem_keys_collectPayload] using hmem

/-- The headers of a run: their rounds increase; each carries one of the vectors, none of
    which is used twice, and at round 1 that is the genesis vector; and what was received is,
    piece by piece, the payloads and what waits, so that a digest received once is in exactly
    one header or waits. -/
theorem proposer_discipline (p : Params PublicKey) (iterations : List (Iteration Digest)) :
    let headers := (run Signature p iterations).headers
    let waiting := (run Signature p iterations).state.digests
    (headers.Pairwise fun h h' => h.round < h'.round) ∧
      (∃ used : List (List Digest × ℕ), used.Sublist (vectors Signature p iterations) ∧
        headers.map (fun h => (h.parents, h.round)) = used.map ofVector) ∧
      (∀ h ∈ headers, h.round = 1 →
        h.parents = OrdSet.ofList (State.initial Signature p).lastParents) ∧
      (∃ chunks : List (List (Digest × ℕ)), chunks.flatten ++ waiting = received iterations ∧
        headers.map (·.payload) = chunks.map collectPayload) ∧
      ∀ digest, ((received iterations).map Prod.fst).count digest = 1 →
        headers.countP (fun h => digest ∈ h.payload.keys) +
          (waiting.map Prod.fst).count digest = 1 := by
  have hd : Discipline (vectors Signature p iterations) (received iterations)
      (run Signature p iterations) := discipline_run p iterations
  obtain ⟨used, hsub, hused⟩ := hd.parents
  obtain ⟨chunks, hchunks, hpayload⟩ := hd.batches
  have hsub' := (List.sublist_append_left _ _).trans hsub
  refine ⟨hd.increasing, ⟨used, hsub', hused⟩, fun h hh hround => ?_,
    ⟨chunks, hchunks, hpayload⟩, fun digest hone => ?_⟩
  · have hmem := List.mem_map_of_mem (f := fun h => (h.parents, h.round)) hh
    rw [hused] at hmem
    obtain ⟨d, hdused, heq⟩ := List.mem_map.mp hmem
    obtain ⟨hparents, hd2⟩ := Prod.mk.inj heq
    rcases List.mem_cons.mp (hsub'.subset hdused) with rfl | hlater
    · exact hparents.symm
    · -- later deliveries are for headers of later rounds
      have hpos := of_decide_eq_true (List.mem_filter.mp hlater).2
      omega
  · rw [← hchunks, List.map_append, List.count_append] at hone
    have hcount := countP_chunks digest chunks (by omega)
    rw [← hpayload, List.countP_map] at hcount
    exact (congrArg (· + _) hcount).trans hone

end DagBft.Proposer
