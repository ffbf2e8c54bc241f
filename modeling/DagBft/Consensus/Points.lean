/-
  The moments of a run of `Consensus::run` at which a leader is committed.

  A `Point` is a leader about to be committed, with the state and with everything that has
  been output so far. `output_eq` says that the output of a run is what `order_dag` lists
  at its points, one after the other. `run_points` is the rule for facts about them: what holds
  initially, is kept when a certificate is added, and is kept at every point, holds at every
  point and at the end. Certificates may come again here, see `Redelivery`.
-/
import DagBft.Consensus.TotalOrder

namespace DagBft.Consensus

variable {PublicKey Digest Signature : Type} [LinearOrder PublicKey] [LinearOrder Digest]

/-- A leader that is about to be committed. -/
structure Point (PublicKey Digest Signature : Type) [LinearOrder PublicKey]
    [LinearOrder Digest] where
  state : State PublicKey Digest Signature
  /-- Everything that has been output. -/
  output : List (Certificate PublicKey Digest Signature)
  leader : Certificate PublicKey Digest Signature

/-- What `order_dag` lists for the leader. -/
def Point.sequence (p : Params PublicKey) (pt : Point PublicKey Digest Signature) :
    List (Certificate PublicKey Digest Signature) :=
  (orderDag p pt.leader pt.state).getD []

/-- The points of the leaders of one iteration, oldest first. -/
def leaderPoints (p : Params PublicKey) :
    State PublicKey Digest Signature × List (Certificate PublicKey Digest Signature) →
      List (Certificate PublicKey Digest Signature) → List (Point PublicKey Digest Signature)
  | _, [] => []
  | acc, leader :: leaders =>
      ⟨acc.1, acc.2, leader⟩ ::
        (commitLeader p acc leader).elim [] fun acc => leaderPoints p acc leaders

variable [AsBytes PublicKey] [AsBytes Digest] [Sha512 Digest]

/-- The points of one iteration of the loop. -/
def stepPoints (p : Params PublicKey) (log : Log PublicKey Digest Signature)
    (certificate : Certificate PublicKey Digest Signature) :
    List (Point PublicKey Digest Signature) :=
  let s := log.state.add certificate
  match electedLeader p s certificate.round with
  | some (some leader) =>
      (orderLeaders p leader s).elim [] fun toCommit =>
        leaderPoints p (s, log.output) toCommit.reverse
  | _ => []

/-- The points of a run that goes on from a log. -/
def pointsFrom (p : Params PublicKey) : Log PublicKey Digest Signature →
    List (Certificate PublicKey Digest Signature) → List (Point PublicKey Digest Signature)
  | _, [] => []
  | log, c :: cs =>
      stepPoints p log c ++ (logStep p log c).elim [] fun log => pointsFrom p log cs

/-- The points of a run. -/
def points [Inhabited PublicKey] [Inhabited Digest] [Inhabited Signature] (p : Params PublicKey)
    (received : List (Certificate PublicKey Digest Signature)) :
    List (Point PublicKey Digest Signature) :=
  pointsFrom p (Log.initial p) received

variable {p : Params PublicKey} {s : State PublicKey Digest Signature}
  {c l : Certificate PublicKey Digest Signature}
  {log log' : Log PublicKey Digest Signature}
  {received : List (Certificate PublicKey Digest Signature)}

/-! ## The output of a run -/

omit [AsBytes PublicKey] [AsBytes Digest] [Sha512 Digest] in
theorem commitLeader_eq (out : List (Certificate PublicKey Digest Signature)) :
    commitLeader p (s, out) l =
      (orderDag p l s).map fun xs => (s.updates xs p.gcDepth, out ++ xs) := rfl

omit [AsBytes PublicKey] [AsBytes Digest] [Sha512 Digest] in
/-- What was output before does not matter for what is committed. -/
theorem foldlM_commitLeader_append (ls : List (Certificate PublicKey Digest Signature))
    (s : State PublicKey Digest Signature)
    (out out' : List (Certificate PublicKey Digest Signature)) :
    ls.foldlM (commitLeader p) (s, out ++ out') =
      (ls.foldlM (commitLeader p) (s, out')).map fun acc => (acc.1, out ++ acc.2) := by
  induction ls generalizing s out' with
  | nil => rfl
  | cons l ls ih =>
      simp only [List.foldlM_cons, commitLeader_eq]
      cases orderDag p l s with
      | none => rfl
      | some xs =>
          simp only [Option.map_some, Option.bind_eq_bind, Option.bind_some]
          rw [List.append_assoc, ih]

/-- An iteration commits the leaders of its points. -/
theorem logStep_eq_some (h : logStep p log c = some log') :
    ∃ leaders, stepPoints p log c = leaderPoints p (log.state.add c, log.output) leaders ∧
      leaders.foldlM (commitLeader p) (log.state.add c, log.output) =
        some (log'.state, log'.output) := by
  unfold logStep runStep at h
  unfold stepPoints
  cases hel : electedLeader p (log.state.add c) c.round with
  | none => simp [hel] at h
  | some o =>
      cases o with
      | none =>
          simp only [hel, Option.map_some, Option.some.injEq] at h
          subst h
          exact ⟨[], by simp only [hel, leaderPoints], by simp⟩
      | some leader =>
          simp only [hel] at h
          cases hord : orderLeaders p leader (log.state.add c) with
          | none => simp [hord] at h
          | some toCommit =>
              simp only [hord, Option.bind_some, Option.map_map, Option.map_eq_some_iff] at h
              obtain ⟨⟨s', out⟩, hfold, rfl⟩ := h
              refine ⟨toCommit.reverse, by simp only [hel, hord, Option.elim_some], ?_⟩
              have := foldlM_commitLeader_append (p := p) toCommit.reverse (log.state.add c)
                log.output []
              rw [List.append_nil, hfold] at this
              exact this

omit [AsBytes PublicKey] [AsBytes Digest] [Sha512 Digest] in
theorem output_eq_leaderPoints {ls : List (Certificate PublicKey Digest Signature)}
    {acc acc' : State PublicKey Digest Signature × List (Certificate PublicKey Digest Signature)}
    (h : ls.foldlM (commitLeader p) acc = some acc') :
    acc'.2 = acc.2 ++ (leaderPoints p acc ls).flatMap (·.sequence p) := by
  induction ls generalizing acc with
  | nil =>
      obtain rfl : acc = acc' := by simpa using h
      simp [leaderPoints]
  | cons l ls ih =>
      obtain ⟨s, out⟩ := acc
      simp only [List.foldlM_cons, commitLeader_eq, leaderPoints] at h ⊢
      cases hord : orderDag p l s with
      | none => simp [hord] at h
      | some xs =>
          simp only [hord, Option.map_some, Option.bind_eq_bind, Option.bind_some] at h
          rw [ih h]
          simp [Point.sequence, hord, List.append_assoc]

theorem output_eq_pointsFrom (h : received.foldlM (logStep p) log = some log') :
    log'.output = log.output ++ (pointsFrom p log received).flatMap (·.sequence p) := by
  induction received generalizing log with
  | nil =>
      obtain rfl : log = log' := by simpa using h
      simp [pointsFrom]
  | cons c received ih =>
      rw [List.foldlM_cons] at h
      obtain ⟨log₁, hstep, hrest⟩ := Option.bind_eq_some_iff.mp h
      obtain ⟨leaders, hpoints, hfold⟩ := logStep_eq_some hstep
      have hout := output_eq_leaderPoints hfold
      dsimp only at hout
      rw [ih hrest, pointsFrom, hstep, hpoints, hout]
      simp [List.append_assoc]

omit [AsBytes PublicKey] [AsBytes Digest] [Sha512 Digest] in
theorem prefix_of_mem_leaderPoints {ls : List (Certificate PublicKey Digest Signature)}
    {acc acc' : State PublicKey Digest Signature × List (Certificate PublicKey Digest Signature)}
    (h : ls.foldlM (commitLeader p) acc = some acc') {pt : Point PublicKey Digest Signature}
    (hpt : pt ∈ leaderPoints p acc ls) : pt.output ++ pt.sequence p <+: acc'.2 := by
  induction ls generalizing acc with
  | nil => exact absurd hpt List.not_mem_nil
  | cons l ls ih =>
      obtain ⟨s, out⟩ := acc
      rw [List.foldlM_cons] at h
      obtain ⟨acc₁, hcommit, hrest⟩ := Option.bind_eq_some_iff.mp h
      simp only [leaderPoints, hcommit, Option.elim_some, List.mem_cons] at hpt
      rcases hpt with rfl | hpt
      · rw [commitLeader_eq, Option.map_eq_some_iff] at hcommit
        obtain ⟨xs, hxs, rfl⟩ := hcommit
        rw [output_eq_leaderPoints hrest, Point.sequence, hxs]
        exact List.prefix_append _ _
      · exact ih hrest hpt

/-- What has been output after a point is the beginning of the output at the end. -/
theorem prefix_of_mem_pointsFrom (h : received.foldlM (logStep p) log = some log')
    {pt : Point PublicKey Digest Signature} (hpt : pt ∈ pointsFrom p log received) :
    pt.output ++ pt.sequence p <+: log'.output := by
  induction received generalizing log with
  | nil => exact absurd hpt List.not_mem_nil
  | cons c received ih =>
      rw [List.foldlM_cons] at h
      obtain ⟨log₁, hstep, hrest⟩ := Option.bind_eq_some_iff.mp h
      obtain ⟨leaders, hpoints, hfold⟩ := logStep_eq_some hstep
      rw [pointsFrom, hstep, hpoints, List.mem_append] at hpt
      rcases hpt with hpt | hpt
      · refine (prefix_of_mem_leaderPoints hfold hpt).trans ?_
        rw [output_eq_pointsFrom hrest]
        exact List.prefix_append _ _
      · exact ih hrest hpt

theorem pointsFrom_append (received received' : List (Certificate PublicKey Digest Signature))
    (h : received.foldlM (logStep p) log = some log') :
    pointsFrom p log (received ++ received') =
      pointsFrom p log received ++ pointsFrom p log' received' := by
  induction received generalizing log with
  | nil =>
      obtain rfl : log = log' := by simpa using h
      rfl
  | cons c received ih =>
      rw [List.foldlM_cons] at h
      obtain ⟨log₁, hstep, hrest⟩ := Option.bind_eq_some_iff.mp h
      simp only [List.cons_append, pointsFrom, hstep, Option.elim_some]
      rw [ih hrest, List.append_assoc]

/-! ## Facts about the points of a run -/

variable [Inhabited PublicKey] [Inhabited Digest] [Inhabited Signature]
variable {D : CausalDag Digest Signature p.committee}

/-- What is known of the state at a point. -/
structure Point.Ok (D : CausalDag Digest Signature p.committee)
    (received : List (Certificate PublicKey Digest Signature))
    (pt : Point PublicKey Digest Signature) : Prop where
  delivery : Redelivery D received
  inv : Inv p received pt.state
  known : Known p.committee received pt.leader
  lt_round : pt.state.lastCommittedRound < pt.leader.round

/-- What is kept by adding a certificate and by committing a leader at a point that
    satisfies `C`. -/
structure Kept (D : CausalDag Digest Signature p.committee)
    (I : State PublicKey Digest Signature → List (Certificate PublicKey Digest Signature) → Prop)
    (C : Point PublicKey Digest Signature → Prop) : Prop where
  initial : I (State.new (Certificate.genesis p.committee)) []
  add : ∀ s c out, I s out → I (s.add c) out
  commit : ∀ received pt xs, Point.Ok D received pt → orderDag p pt.leader pt.state = some xs →
    C pt → I pt.state pt.output → I (pt.state.updates xs p.gcDepth) (pt.output ++ xs)

variable {I : State PublicKey Digest Signature → List (Certificate PublicKey Digest Signature) →
  Prop} {C : Point PublicKey Digest Signature → Prop}

theorem leaderPoints_spec (hI : Kept D I C) (hd : Redelivery D received)
    (ls : List (Certificate PublicKey Digest Signature)) (h : Inv p received s)
    (hl : ∀ l ∈ ls, Known p.committee received l) (hlc : ∀ l ∈ ls, s.lastCommittedRound < l.round)
    (hsorted : ls.Pairwise fun l l' => l.round < l'.round)
    (out : List (Certificate PublicKey Digest Signature)) (hs : I s out)
    (hC : ∀ pt ∈ leaderPoints p (s, out) ls, C pt) :
    (∀ pt ∈ leaderPoints p (s, out) ls, Point.Ok D received pt ∧ I pt.state pt.output) ∧
      ∃ s' out', ls.foldlM (commitLeader p) (s, out) = some (s', out') ∧ I s' out' := by
  induction ls generalizing s out with
  | nil => exact ⟨fun pt hpt => absurd hpt List.not_mem_nil, s, out, rfl, hs⟩
  | cons l ls ih =>
      rw [List.pairwise_cons] at hsorted
      have hok : Point.Ok D received ⟨s, out, l⟩ :=
        ⟨hd, h, hl l List.mem_cons_self, hlc l List.mem_cons_self⟩
      obtain ⟨xs, hxs, hcommit, hinv, hround⟩ := commitLeader_spec (D := D) hd h hok.known
        hok.lt_round.le out
      simp only [leaderPoints, hcommit, Option.elim_some, List.forall_mem_cons] at hC ⊢
      obtain ⟨hpoints, s', out', hrun, hI'⟩ := ih hinv
        (fun l' hl' => hl l' (List.mem_cons_of_mem _ hl'))
        (fun l' hl' => hround ▸ hsorted.1 l' hl') hsorted.2 (out ++ xs)
        (hI.commit received _ xs hok hxs hC.1 hs) hC.2
      exact ⟨⟨⟨hok, hs⟩, hpoints⟩, s', out', by rw [List.foldlM_cons, hcommit]; exact hrun, hI'⟩

/-- The leaders of one iteration are above what has been committed before. -/
theorem lt_round_of_mem_orderLeaders (hl : Candidate D received s l)
    {q : Certificate PublicKey Digest Signature}
    (hq : q ∈ l :: D.pastLeaders l (stepDown (s.lastCommittedRound + 2) (l.round - 2))) :
    s.lastCommittedRound < q.round := by
  rcases List.mem_cons.mp hq with rfl | hq
  · exact hl.lt_round
  · have := mem_stepDown (CausalDag.mem_pastLeaders hq).2.1
    omega

theorem stepPoints_spec (hI : Kept D I C) (hd : Redelivery D (received ++ [c]))
    (h : Inv p received log.state)
    (hs : I log.state log.output) (hC : ∀ pt ∈ stepPoints p log c, C pt) :
    (∀ pt ∈ stepPoints p log c, Point.Ok D (received ++ [c]) pt ∧ I pt.state pt.output) ∧
      ∀ log', logStep p log c = some log' → I log'.state log'.output := by
  have hinv := inv_add hd h
  have hc : Known p.committee (received ++ [c]) c := Or.inl (by simp)
  have hadd := hI.add log.state c log.output hs
  obtain ⟨o, ho, hel⟩ := electedLeader_candidate hd hinv hc hd.last_mem
  cases o with
  | none =>
      refine ⟨fun pt hpt => ?_, fun log' hstep => ?_⟩
      · simp [stepPoints, ho] at hpt
      · unfold logStep runStep at hstep
        simp only [ho, Option.map_some, Option.some.injEq] at hstep
        subst hstep
        show I (log.state.add c) (log.output ++ [])
        rw [List.append_nil]
        exact hadd
  | some l =>
      have hl := (hel l rfl).1
      obtain ⟨hknown, -, hsorted⟩ := orderLeaders_spec hd hl
      have hwalk := orderLeaders_eq hd hinv hl.known hl.two_le_round
      have hpts : stepPoints p log c = leaderPoints p (log.state.add c, log.output)
          (l :: D.pastLeaders l (stepDown ((log.state.add c).lastCommittedRound + 2)
            (l.round - 2))).reverse := by
        simp only [stepPoints, ho, hwalk, Option.elim_some]
      rw [hpts] at hC ⊢
      obtain ⟨hpoints, s', out', hrun, hI'⟩ := leaderPoints_spec hI hd _ hinv
        (fun q hq => hknown q (List.mem_reverse.mp hq))
        (fun q hq => lt_round_of_mem_orderLeaders hl (List.mem_reverse.mp hq))
        (List.pairwise_reverse.mpr hsorted) log.output hadd hC
      refine ⟨hpoints, fun log' hstep => ?_⟩
      unfold logStep runStep at hstep
      have hshift := foldlM_commitLeader_append (p := p) (l :: D.pastLeaders l (stepDown
        ((log.state.add c).lastCommittedRound + 2) (l.round - 2))).reverse (log.state.add c)
        log.output []
      rw [List.append_nil, hrun] at hshift
      simp only [ho, hwalk, Option.bind_some, Option.map_map, Option.map_eq_some_iff] at hstep
      obtain ⟨⟨s₁, out₁⟩, hfold, rfl⟩ := hstep
      rw [hfold, Option.map_some, Option.some.injEq, Prod.mk.injEq] at hshift
      obtain ⟨rfl, rfl⟩ := hshift
      exact hI'

/-- What is kept holds at every point and at the end. -/
theorem run_points (hI : Kept D I C) (hd : Redelivery D received)
    (hC : ∀ pt ∈ points p received, C pt) :
    (∀ pt ∈ points p received, (∃ pre, Point.Ok D pre pt) ∧ I pt.state pt.output) ∧
      ∃ log, run p received = some log ∧ Inv p received log.state ∧ I log.state log.output := by
  induction received using List.reverseRecOn with
  | nil =>
      exact ⟨fun pt hpt => absurd hpt List.not_mem_nil, _, rfl, inv_new, hI.initial⟩
  | append_singleton received c ih =>
      obtain ⟨log, hrun, -⟩ := run_inv hd.of_append
      have happend : points p (received ++ [c]) = points p received ++ stepPoints p log c := by
        unfold points
        rw [pointsFrom_append received [c] hrun]
        congr 1
        simp only [pointsFrom]
        cases logStep p log c <;> simp
      rw [happend] at hC ⊢
      obtain ⟨hpoints, log₀, hrun₀, hlog, hlogI⟩ :=
        ih hd.of_append fun pt hpt => hC pt (List.mem_append_left _ hpt)
      obtain rfl : log = log₀ := Option.some.inj (hrun.symm.trans hrun₀)
      obtain ⟨hlast, hend⟩ := stepPoints_spec hI hd hlog hlogI
        fun pt hpt => hC pt (List.mem_append_right _ hpt)
      obtain ⟨log', hstep, hlog', -⟩ := logStep_cases hd hlog
      refine ⟨fun pt hpt => ?_, log', ?_, hlog', hend log' hstep⟩
      · rcases List.mem_append.mp hpt with hpt | hpt
        · exact hpoints pt hpt
        · exact ⟨⟨_, (hlast pt hpt).1⟩, (hlast pt hpt).2⟩
      · unfold run at hrun ⊢
        rw [List.foldlM_append, hrun]
        simpa using hstep

/-- What every point of a run satisfies. -/
theorem ok_of_mem_points (hd : Redelivery D received) {pt : Point PublicKey Digest Signature}
    (hpt : pt ∈ points p received) : ∃ pre, Point.Ok D pre pt := by
  have hI : Kept D (fun _ _ => True) fun _ => True :=
    ⟨trivial, fun _ _ _ _ => trivial, fun _ _ _ _ _ _ _ => trivial⟩
  exact ((run_points hI hd fun _ _ => trivial).1 pt hpt).1

/-- The output of a run is what `order_dag` lists at its points. -/
theorem output_eq (h : run p received = some log) :
    log.output = (points p received).flatMap (·.sequence p) :=
  output_eq_pointsFrom h

end DagBft.Consensus
