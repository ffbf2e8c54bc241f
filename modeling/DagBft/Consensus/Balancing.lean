/-
  The load-balancing task of consensus (`spawn_load_balancing`), one certificate at a time.

  `tracked`: when an own certificate makes the task look at a window of rounds, the rounds
  are there, after any number of evaluations and evictions.
-/
import DagBft.Consensus.Checked
import DagBft.Consensus.Rerouting
import DagBft.Lib.Runs

namespace DagBft.Consensus

open Node (MigrationNotice)

/-! ## The task -/

/-- What the task reads of the committee. -/
structure BalancingSettings (PublicKey : Type) [LinearOrder PublicKey] where
  committee : Committee PublicKey
  /-- Estimated max request throughput of an authority. -/
  capacityByBw : PublicKey → ℕ
  latencyMatrix : OrdMap PublicKey (OrdMap PublicKey ℕ)
  /-- Per-validator `(account_start, account_count)`. -/
  accountRanges : OrdMap PublicKey (ℕ × ℕ)

/-- The certificates of the last rounds. -/
structure Trackers (PublicKey : Type) where
  accounts : AccountDistributionTracker PublicKey
  throughput : ValidatorThroughputTracker PublicKey

/-- What one evaluation leaves for the next. -/
structure Memory (PublicKey : Type) where
  lastMigrated : HashMap ℕ ℕ
  prevAvgQd : HashMap PublicKey ℚ
  prevEvalTsMs : Option ℕ
  currentAssignments : List (Finset ℕ)

/-- What comes of an own certificate of a round in which rerouting is evaluated: the
    migrations, `none` where `get_tps` is, and the assignments afterwards. -/
structure Evaluation (PublicKey : Type) where
  round : ℕ
  migrations : Option (List (MigrationNotice PublicKey))
  currentAssignments : List (Finset ℕ)
deriving DecidableEq

structure Balancer (PublicKey : Type) where
  trackers : Trackers PublicKey
  memory : Memory PublicKey
  evaluations : List (Evaluation PublicKey)

variable {PublicKey Digest Signature : Type} [LinearOrder PublicKey] [LinearOrder Digest]

namespace BalancingSettings

variable (cfg : BalancingSettings PublicKey)

def validatorCapacities (pk : PublicKey) : Option ℕ :=
  if pk ∈ cfg.committee.keys then some (cfg.capacityByBw pk) else none

/-- The accounts `start..start + count`. -/
def accounts (range : ℕ × ℕ) : Finset ℕ := Finset.Ico range.1 (u64 (range.1 + range.2))

/-- The latency row of an account. Where ranges overlap the last one counts. -/
def accountLatency (account : ℕ) : Option (OrdMap PublicKey ℕ) :=
  (cfg.accountRanges.entries.reverse.find? fun x => account ∈ accounts x.2).bind fun x =>
    cfg.latencyMatrix.get x.1

def initial : Except BalancingPanic (Balancer PublicKey) :=
  if ∃ x ∈ cfg.accountRanges.entries, (cfg.latencyMatrix.get x.1).isNone then
    .error .latencyMatrix
  else .ok
    { trackers := ⟨⟨∅⟩, ⟨∅, ∅⟩⟩
      memory := ⟨∅, ∅, none, cfg.accountRanges.entries.map fun x => accounts x.2⟩
      evaluations := [] }

end BalancingSettings

namespace Trackers

/-- `record` of both trackers. -/
def record (t : Trackers PublicKey) (c : Certificate PublicKey Digest Signature) :
    Trackers PublicKey where
  accounts := ⟨t.accounts.dag.record c.round c.origin (c.header.accountCounts, c.header.createdAt)⟩
  throughput :=
    { rounds := t.throughput.rounds.record c.round c.origin
        (c.header.createdAt, u64 (c.header.accountCounts.entries.map Prod.snd).sum)
      quorumStats := t.throughput.quorumStats.record c.round c.origin c.header.avgQueueDelayMs }

def evict (t : Trackers PublicKey) (minRound : ℕ) : Trackers PublicKey where
  accounts := ⟨t.accounts.dag.evict minRound⟩
  throughput := ⟨t.throughput.rounds.evict minRound, t.throughput.quorumStats.evict minRound⟩

end Trackers

/-- The rerouting decision of a round, once the throughput is known. -/
def evaluate (cfg : BalancingSettings PublicKey) (t : Trackers PublicKey) (m : Memory PublicKey)
    (round createdAt : ℕ) (tps : HashMap PublicKey ℚ) :
    Except BalancingPanic (List (MigrationNotice PublicKey) × Memory PublicKey) := do
  let stableRound := round - 2
  let avgQd := t.throughput.avgQueueDelay stableRound
  let currentTsMs := (← t.throughput.roundTimestampMs stableRound).getD createdAt
  let deltaTSecs ← match m.prevEvalTsMs with
    | some prev => .ok (Double.fdiv (Double.ofNat (currentTsMs - prev)) 1000)
    | none => do
        match ← t.throughput.roundTimestampMs (stableRound - trackingWindow) with
        | none => .error .firstRound
        | some firstTs => .ok (Double.fdiv (Double.ofNat (currentTsMs - firstTs)) 1000)
  let (migrations, currentAssignments) ← Report.computeRerouting
    { tps := tps
      capacities := cfg.validatorCapacities
      avgQueueDelay := avgQd
      accountLatency := cfg.accountLatency
      perValidatorAccountCounts := t.accounts.perValidatorAccountCounts stableRound
      sortedKeys := cfg.committee.keys
      f := (cfg.committee.size - 1) / 3
      lastMigrated := m.lastMigrated
      currentRound := round
      prevAvgQd := m.prevAvgQd
      deltaTSecs := deltaTSecs } m.currentAssignments
  .ok (migrations,
    { lastMigrated := migrations.foldl (fun l n => l.insert n.accountId round) m.lastMigrated
      prevAvgQd := HashMap.mapEntries avgQd (fun pk qd =>
        Double.fadd (Double.fmul qdEmaAlpha qd)
          (Double.fmul (Double.fsub 1 qdEmaAlpha) ((m.prevAvgQd.lookup pk).getD qd))) ∪ m.prevAvgQd
      prevEvalTsMs := some currentTsMs
      currentAssignments := currentAssignments })

/-- An own certificate of a round in which rerouting is evaluated. -/
def trigger (cfg : BalancingSettings PublicKey) (t : Trackers PublicKey) (m : Memory PublicKey)
    (round createdAt : ℕ) :
    Except BalancingPanic (Evaluation PublicKey × Memory PublicKey) := do
  match ← t.throughput.getTps (round - 2) with
  | none => .ok (⟨round, none, m.currentAssignments⟩, m)
  | some tps => do
      let (migrations, m') ← evaluate cfg t m round createdAt tps
      .ok (⟨round, some migrations, m'.currentAssignments⟩, m')

/-- One iteration of the loop. -/
def onCertificate (cfg : BalancingSettings PublicKey) (name : PublicKey) (s : Balancer PublicKey)
    (c : Certificate PublicKey Digest Signature) : Except BalancingPanic (Balancer PublicKey) :=
  let t := s.trackers.record c
  if c.origin ≠ name then .ok { s with trackers := t }
  else do
    -- log TPS
    if c.round % trackingWindow = 0 then
      let _ ← t.throughput.getTps (c.round - 2)
    if c.round % rerouteInterval ≠ 0 then .ok { s with trackers := t }
    else do
      let (e, m) ← trigger cfg t s.memory c.round c.header.createdAt
      .ok
        { trackers := t.evict (c.round - 2 - trackingWindow)
          memory := m
          evaluations := s.evaluations ++ [e] }

/-- The task after some certificates. -/
def balance (cfg : BalancingSettings PublicKey) (name : PublicKey)
    (received : List (Certificate PublicKey Digest Signature)) :
    Except BalancingPanic (Balancer PublicKey) := do
  received.foldlM (onCertificate cfg name) (← cfg.initial)

/-! ## What the trackers hold -/

section Trackers

variable {V : Type} {rounds rounds' : Rounds PublicKey V} {r b b' R : ℕ} {o : PublicKey} {x : V}

theorem lookup_record (rounds : Rounds PublicKey V) (r r' : ℕ) (o : PublicKey) (x : V) :
    (rounds.record r o x).lookup r' =
      if r' = r then some (((rounds.lookup r).getD ∅).insert o x) else rounds.lookup r' :=
  HashMap.lookup_insert_eq _ _ _ _

omit [LinearOrder PublicKey] in
theorem lookup_evict (rounds : Rounds PublicKey V) (b r : ℕ) :
    (rounds.evict b).lookup r = if b ≤ r then rounds.lookup r else none :=
  HashMap.lookup_retain _ _ _

/-- From round `b` on the rounds are those of the certificates received, and none is
    empty. -/
structure Covers (rounds : Rounds PublicKey V)
    (received : List (Certificate PublicKey Digest Signature)) (b : ℕ) : Prop where
  isSome : ∀ r, b ≤ r → ((rounds.lookup r).isSome ↔ ∃ c ∈ received, c.round = r)
  nonempty : ∀ r m, rounds.lookup r = some m → ∃ o v, m.lookup o = some v

variable {received : List (Certificate PublicKey Digest Signature)}
  {c : Certificate PublicKey Digest Signature}

theorem covers_empty : Covers (∅ : Rounds PublicKey V)
    ([] : List (Certificate PublicKey Digest Signature)) 0 where
  isSome r _ := by simp
  nonempty r m h := by cases h

theorem Covers.record (h : Covers rounds received b) (c : Certificate PublicKey Digest Signature)
    (x : V) : Covers (rounds.record c.round c.origin x) (received ++ [c]) b where
  isSome r hr := by
    rw [lookup_record]
    split
    · rename_i hrc
      simp [hrc]
    · rename_i hrc
      rw [h.isSome r hr]
      simp [Ne.symm hrc]
  nonempty r m hm := by
    rw [lookup_record] at hm
    split at hm
    · rw [← Option.some.inj hm]
      exact ⟨c.origin, x, Finmap.lookup_insert _⟩
    · exact h.nonempty r m hm

theorem Covers.evict (h : Covers rounds received b) (hb : b ≤ b') :
    Covers (rounds.evict b') received b' where
  isSome r hr := by
    rw [lookup_evict, if_pos hr]
    exact h.isSome r (hb.trans hr)
  nonempty r m hm := by
    rw [lookup_evict] at hm
    split at hm
    · exact h.nonempty r m hm
    · cases hm

/-- From round `b` on the entries are those of the certificates received. -/
def Holds (val : Certificate PublicKey Digest Signature → V) (rounds : Rounds PublicKey V)
    (received : List (Certificate PublicKey Digest Signature)) (b : ℕ) : Prop :=
  ∀ r m, b ≤ r → rounds.lookup r = some m → ∀ o v, m.lookup o = some v ↔
    ∃ c ∈ received, c.round = r ∧ c.origin = o ∧ val c = v

variable {val : Certificate PublicKey Digest Signature → V}

theorem holds_empty (val : Certificate PublicKey Digest Signature → V) :
    Holds val (∅ : Rounds PublicKey V) [] 0 := by
  intro r m _ hm
  rw [Finmap.lookup_empty] at hm
  cases hm

theorem Holds.record (h : Holds val rounds received b) (hc : Covers rounds received b)
    (hunique : ∀ c' ∈ received, c'.round = c.round → c'.origin = c.origin → c' = c) :
    Holds val (rounds.record c.round c.origin (val c)) (received ++ [c]) b := by
  intro r m hr hm o v
  rw [lookup_record] at hm
  simp only [List.mem_append, List.mem_singleton, or_and_right, exists_or, exists_eq_left]
  split at hm
  · rename_i hrc
    subst hrc
    rw [← Option.some.inj hm, HashMap.lookup_insert_eq]
    by_cases ho : o = c.origin
    · subst ho
      rw [if_pos rfl, Option.some.injEq]
      constructor
      · exact fun hv => Or.inr ⟨rfl, rfl, hv⟩
      · rintro (⟨c', hc', hround, horigin, hv⟩ | ⟨-, -, hv⟩)
        · rw [← hunique c' hc' hround horigin, hv]
        · exact hv
    · have hne : ¬ (True ∧ c.origin = o ∧ val c = v) := fun h => ho h.2.1.symm
      rw [if_neg ho, eq_self c.round, or_iff_left hne]
      cases hl : rounds.lookup c.round with
      | none =>
          have hnone := (hc.isSome c.round hr).not.mp (by simp [hl])
          push Not at hnone
          simp only [Option.getD_none, Finmap.lookup_empty, reduceCtorEq, false_iff, not_exists,
            not_and]
          exact fun c' hc' hround => absurd hround (hnone c' hc')
      | some m' => exact h c.round m' hr hl o v
  · rename_i hrc
    have hne : ¬ (c.round = r ∧ c.origin = o ∧ val c = v) := fun h => hrc h.1.symm
    rw [or_iff_left hne]
    exact h r m hr hm o v

theorem Holds.evict (h : Holds val rounds received b) (hb : b ≤ b') :
    Holds val (rounds.evict b') received b' := by
  intro r m hr hm
  rw [lookup_evict, if_pos hr] at hm
  exact h r m (hb.trans hr) hm

end Trackers

/-! ## Runs of the task -/

section Runs

variable {cfg : BalancingSettings PublicKey} {name : PublicKey}
  {received : List (Certificate PublicKey Digest Signature)}
  {c : Certificate PublicKey Digest Signature} {s s' : Balancer PublicKey}

/-- The certificates that make the task evaluate. -/
def Triggers (name : PublicKey) (c : Certificate PublicKey Digest Signature) : Prop :=
  c.origin = name ∧ c.round % rerouteInterval = 0

instance : Decidable (Triggers name c) :=
  inferInstanceAs (Decidable (c.origin = name ∧ c.round % rerouteInterval = 0))

/-- What an iteration does. -/
theorem onCertificate_cases (h : onCertificate cfg name s c = .ok s') :
    (¬ Triggers name c ∧ s' = { s with trackers := s.trackers.record c }) ∨
      (Triggers name c ∧ ∃ e m,
        trigger cfg (s.trackers.record c) s.memory c.round c.header.createdAt = .ok (e, m) ∧
        s' = ⟨(s.trackers.record c).evict (c.round - 2 - trackingWindow), m,
          s.evaluations ++ [e]⟩) := by
  unfold onCertificate at h
  dsimp only at h
  split at h
  · rename_i hown
    exact Or.inl ⟨fun ht => hown ht.1, (Except.ok.inj h).symm⟩
  · rename_i hown
    have key : (if c.round % rerouteInterval ≠ 0 then
        Except.ok { s with trackers := s.trackers.record c }
      else do
        let (e, m) ← trigger cfg (s.trackers.record c) s.memory c.round c.header.createdAt
        .ok ⟨(s.trackers.record c).evict (c.round - 2 - trackingWindow), m,
          s.evaluations ++ [e]⟩ : Except BalancingPanic (Balancer PublicKey)) = .ok s' := by
      split at h
      · obtain ⟨_, -, h⟩ := bind_eq_ok.mp h
        exact h
      · exact h
    split at key
    · rename_i hround
      exact Or.inl ⟨fun ht => hround ht.2, (Except.ok.inj key).symm⟩
    · rename_i hround
      obtain ⟨⟨e, m⟩, htrigger, hs⟩ := bind_eq_ok.mp key
      exact Or.inr ⟨⟨not_not.mp hown, not_not.mp hround⟩, e, m, htrigger,
        (Except.ok.inj hs).symm⟩

theorem balance_append :
    balance cfg name (received ++ [c]) = .ok s' ↔
      ∃ s, balance cfg name received = .ok s ∧ onCertificate cfg name s c = .ok s' := by
  unfold balance
  simp only [List.foldlM_append, List.foldlM_cons, List.foldlM_nil]
  cases cfg.initial with
  | error e => simp [bind, Except.bind]
  | ok s₀ =>
      simp only [bind, Except.bind]
      cases List.foldlM (onCertificate cfg name) s₀ received with
      | error e => simp
      | ok s =>
          cases hs : onCertificate cfg name s c with
          | error e => simp [hs]
          | ok s₁ => simp [hs, pure, Except.pure]

/-- Own certificates have increasing rounds. -/
def Increasing (name : PublicKey) (received : List (Certificate PublicKey Digest Signature)) :
    Prop :=
  (received.filter fun c => c.origin = name).Pairwise fun c c' => c.round < c'.round

theorem Increasing.of_append (h : Increasing name (received ++ [c])) :
    Increasing name received := by
  unfold Increasing at *
  rw [List.filter_append, List.pairwise_append] at h
  exact h.1

theorem Increasing.lt (h : Increasing name (received ++ [c])) (hc : c.origin = name)
    {o : Certificate PublicKey Digest Signature} (ho : o ∈ received) (hown : o.origin = name) :
    o.round < c.round := by
  unfold Increasing at h
  rw [List.filter_append, List.pairwise_append] at h
  exact h.2.2 o (List.mem_filter.mpr ⟨ho, by simpa using hown⟩) c (by simp [hc])

/-- Everything below `b` may have been evicted, on an own certificate. -/
def Bound (name : PublicKey) (received : List (Certificate PublicKey Digest Signature))
    (b : ℕ) : Prop :=
  b = 0 ∨ ∃ o ∈ received, o.origin = name ∧ b = o.round - 2 - trackingWindow

omit [LinearOrder PublicKey] in
theorem Bound.append {b : ℕ} (h : Bound name received b) : Bound name (received ++ [c]) b :=
  h.imp_right fun ⟨o, ho, h⟩ => ⟨o, List.mem_append_left _ ho, h⟩

/-- The window of an own certificate has not been evicted. -/
theorem Bound.le {b : ℕ} (h : Bound name received b) (hinc : Increasing name (received ++ [c]))
    (hc : c.origin = name) : b ≤ c.round - 2 - trackingWindow := by
  rcases h with rfl | ⟨o, ho, hown, rfl⟩
  · exact Nat.zero_le _
  · have := hinc.lt hc ho hown
    omega

/-- No two certificates of an author in a round. -/
def NonEquivocating (received : List (Certificate PublicKey Digest Signature)) : Prop :=
  ∀ x ∈ received, ∀ y ∈ received, x.round = y.round → x.origin = y.origin → x = y

omit [LinearOrder PublicKey] in
theorem NonEquivocating.of_append (h : NonEquivocating (received ++ [c])) :
    NonEquivocating received :=
  fun x hx y hy => h x (List.mem_append_left _ hx) y (List.mem_append_left _ hy)

/-- The data that the throughput tracker keeps of a certificate. -/
def throughputOf (c : Certificate PublicKey Digest Signature) : ℕ × ℕ :=
  (c.header.createdAt, u64 (c.header.accountCounts.entries.map Prod.snd).sum)

/-- The data that the account tracker keeps of a certificate. -/
def countsOf (c : Certificate PublicKey Digest Signature) : OrdMap ℕ ℕ × ℕ :=
  (c.header.accountCounts, c.header.createdAt)

/-- The delay that a certificate reports. -/
def delayOf (c : Certificate PublicKey Digest Signature) : ℕ := c.header.avgQueueDelayMs

/-- What the trackers hold of the certificates received, from round `b` on. -/
structure Tracking (name : PublicKey) (received : List (Certificate PublicKey Digest Signature))
    (t : Trackers PublicKey) (b : ℕ) : Prop where
  bound : Bound name received b
  rounds : Covers t.throughput.rounds received b
  quorumStats : Covers t.throughput.quorumStats received b
  dag : Covers t.accounts.dag received b
  holds : NonEquivocating received → Holds throughputOf t.throughput.rounds received b ∧
    Holds delayOf t.throughput.quorumStats received b ∧ Holds countsOf t.accounts.dag received b

theorem Tracking.record {t : Trackers PublicKey} {b : ℕ} (h : Tracking name received t b) :
    Tracking name (received ++ [c]) (t.record c) b where
  bound := h.bound.append
  rounds := h.rounds.record c _
  quorumStats := h.quorumStats.record c _
  dag := h.dag.record c _
  holds hne := by
    obtain ⟨h₁, h₂, h₃⟩ := h.holds hne.of_append
    have hunique : ∀ c' ∈ received, c'.round = c.round → c'.origin = c.origin → c' = c :=
      fun c' hc' => hne c' (List.mem_append_left _ hc') c (by simp)
    exact ⟨h₁.record h.rounds hunique, h₂.record h.quorumStats hunique, h₃.record h.dag hunique⟩

theorem Tracking.evict {t : Trackers PublicKey} {b b' : ℕ} (h : Tracking name received t b)
    (hb : b ≤ b') (hbound : Bound name received b') : Tracking name received (t.evict b') b' where
  bound := hbound
  rounds := h.rounds.evict hb
  quorumStats := h.quorumStats.evict hb
  dag := h.dag.evict hb
  holds hne := by
    obtain ⟨h₁, h₂, h₃⟩ := h.holds hne
    exact ⟨h₁.evict hb, h₂.evict hb, h₃.evict hb⟩

theorem tracking_balance (hinc : Increasing name received)
    (hrun : balance cfg name received = .ok s) : ∃ b, Tracking name received s.trackers b := by
  induction received using List.reverseRecOn generalizing s with
  | nil =>
      unfold balance BalancingSettings.initial at hrun
      split at hrun
      · cases hrun
      · obtain rfl := Except.ok.inj hrun
        refine ⟨0, Or.inl rfl, covers_empty, covers_empty, covers_empty, fun _ => ⟨?_, ?_, ?_⟩⟩
        · exact holds_empty _
        · exact holds_empty _
        · exact holds_empty _
  | append_singleton received c ih =>
      obtain ⟨s₀, hrun, hstep⟩ := balance_append.mp hrun
      obtain ⟨b, h⟩ := ih hinc.of_append hrun
      rcases onCertificate_cases hstep with ⟨-, rfl⟩ | ⟨htr, e, m, -, rfl⟩
      · exact ⟨b, h.record⟩
      · exact ⟨_, h.record.evict (h.bound.le hinc htr.1)
          (Or.inr ⟨c, by simp, htr.1, rfl⟩)⟩

/-! ## No round is missing -/

omit [LinearOrder Digest] in
theorem medianTs_isOk {m : HashMap PublicKey (ℕ × ℕ)} (h : ∃ o v, m.lookup o = some v) :
    ∃ ts, medianTs m = .ok ts := by
  obtain ⟨o, v, hv⟩ := h
  have hmem := Finmap.lookup_eq_some_iff.mp hv
  unfold medianTs
  dsimp only
  rw [length_sorted, Multiset.card_map, if_neg (Multiset.card_pos.mpr fun h0 => ?_).ne']
  · split
    · exact ⟨_, rfl⟩
    · exact ⟨_, rfl⟩
  · rw [h0] at hmem
    cases hmem

/-- A tracked round has a timestamp. -/
theorem Tracking.roundTimestampMs_isOk {t : Trackers PublicKey} {b : ℕ}
    (h : Tracking name received t b) {r : ℕ} (hr : (t.throughput.rounds.lookup r).isSome) :
    ∃ ts, t.throughput.roundTimestampMs r = .ok (some ts) := by
  obtain ⟨m, hm⟩ := Option.isSome_iff_exists.mp hr
  obtain ⟨ts, hts⟩ := medianTs_isOk (h.rounds.nonempty _ m hm)
  refine ⟨ts, ?_⟩
  unfold ValidatorThroughputTracker.roundTimestampMs
  rw [hm]
  exact congrArg (Except.map some) hts

omit [LinearOrder Digest] in
theorem computeRerouting_error {i : Report PublicKey} {assignments : List (Finset ℕ)}
    {e : BalancingPanic} (h : i.computeRerouting assignments = .error e) : e = .index := by
  unfold Report.computeRerouting at h
  split at h
  · cases h
  · split at h
    · exact (Except.error.inj h).symm
    · unfold Report.threshDelay at h
      dsimp only at h
      split at h
      · exact (Except.error.inj h).symm
      · simp only [bind, Except.bind] at h
        split at h <;> cases h

omit [LinearOrder Digest] in
/-- With the rounds that it looks up present, an evaluation only panics on an index. -/
theorem evaluate_error {t : Trackers PublicKey} {m : Memory PublicKey}
    {round createdAt ts first : ℕ} {tps : HashMap PublicKey ℚ} {e : BalancingPanic}
    (hstable : t.throughput.roundTimestampMs (round - 2) = .ok (some ts))
    (hfirst : t.throughput.roundTimestampMs (round - 2 - trackingWindow) = .ok (some first))
    (h : evaluate cfg t m round createdAt tps = .error e) : e = .index := by
  unfold evaluate at h
  simp only [hstable, hfirst] at h
  have key : ∀ {i : Report PublicKey} {f : List (MigrationNotice PublicKey) × List (Finset ℕ) →
      List (MigrationNotice PublicKey) × Memory PublicKey},
      (i.computeRerouting m.currentAssignments >>= fun x => .ok (f x)) = .error e →
        e = .index := by
    intro i f h
    cases hr : i.computeRerouting m.currentAssignments with
    | error e' =>
        rw [hr] at h
        rw [← Except.error.inj h]
        exact computeRerouting_error hr
    | ok x =>
        rw [hr] at h
        cases h
  cases hp : m.prevEvalTsMs with
  | none =>
      rw [hp] at h
      exact key h
  | some prev =>
      rw [hp] at h
      exact key h

variable [AsBytes PublicKey] [AsBytes Digest] [Sha512 Digest] [Inhabited PublicKey]
  [Inhabited Digest] [Inhabited Signature]

/-- Every round of the window of an own certificate is tracked. -/
theorem Tracking.isSome {t : Trackers PublicKey} {b : ℕ}
    (h : Tracking name (received ++ [c]) t b) (hd : Causal cfg.committee (received ++ [c]))
    (hb : b ≤ c.round - 2 - trackingWindow) {r : ℕ} (hr : 1 ≤ r)
    (hwindow : InWindow (c.round - 2) r) : (t.throughput.rounds.lookup r).isSome := by
  rw [h.rounds.isSome r (hb.trans hwindow.1)]
  have hround := (Causal.last (p := ⟨cfg.committee, 0⟩) hd).one_le_round
  obtain ⟨x, hx, hxr⟩ := Causal.exists_known (p := ⟨cfg.committee, 0⟩) hd (c := c)
    (Or.inl (by simp)) (show r ≤ c.round from hwindow.2.trans (Nat.sub_le _ _))
  rcases hx with hx | hx
  · exact ⟨x, hx, hxr⟩
  · have := Certificate.round_genesis hx
    omega

theorem Tracking.getTps_isOk {t : Trackers PublicKey} {b : ℕ}
    (h : Tracking name (received ++ [c]) t b) (hd : Causal cfg.committee (received ++ [c]))
    (hb : b ≤ c.round - 2 - trackingWindow) (hround : 3 ≤ c.round) :
    ∃ tps, t.throughput.getTps (c.round - 2) = .ok tps := by
  obtain ⟨m, hm⟩ := Option.isSome_iff_exists.mp
    (h.isSome hd hb (r := c.round - 2) (by omega) ⟨by omega, le_rfl⟩)
  obtain ⟨endTs, hend⟩ := medianTs_isOk (h.rounds.nonempty _ m hm)
  -- the last round is in the window, so there is a first one
  have hmem : c.round - 2 ∈
      sorted (· ≤ ·) (HashMap.retain t.throughput.rounds (InWindow (c.round - 2))).keys.val := by
    rw [mem_sorted, Finset.mem_val, Finmap.mem_keys, ← Finmap.lookup_isSome,
      HashMap.lookup_retain, if_pos ⟨by omega, le_rfl⟩, hm]
    rfl
  obtain ⟨first, hfirst⟩ : ∃ first, (sorted (· ≤ ·)
      (HashMap.retain t.throughput.rounds (InWindow (c.round - 2))).keys.val).head? =
        some first := by
    cases hl : sorted (· ≤ ·)
      (HashMap.retain t.throughput.rounds (InWindow (c.round - 2))).keys.val with
    | nil =>
        rw [hl] at hmem
        cases hmem
    | cons a l => exact ⟨a, rfl⟩
  have hfmem := List.mem_of_mem_head? (Option.mem_def.mpr hfirst)
  rw [mem_sorted, Finset.mem_val, Finmap.mem_keys, ← Finmap.lookup_isSome,
    HashMap.lookup_retain] at hfmem
  split at hfmem
  · obtain ⟨m', hm'⟩ := Option.isSome_iff_exists.mp hfmem
    obtain ⟨startTs, hstart⟩ := medianTs_isOk (h.rounds.nonempty _ m' hm')
    unfold ValidatorThroughputTracker.getTps
    dsimp only
    split
    · exact ⟨_, rfl⟩
    · simp only [hfirst, Option.bind_some, hm', hstart, hm, hend, bind, Except.bind]
      split
      · exact ⟨_, rfl⟩
      · exact ⟨_, rfl⟩
  · cases hfmem

/-- The rounds that an own certificate expects to be tracked are, after any number of
    evaluations and evictions: the last round of the window as soon as any round of it is,
    the first one for the first evaluation, and every one in between. No panic is about a
    round. -/
theorem tracked (cfg : BalancingSettings PublicKey) (name : PublicKey)
    (received : List (Certificate PublicKey Digest Signature))
    (c : Certificate PublicKey Digest Signature) (s : Balancer PublicKey)
    (hd : Causal cfg.committee (received ++ [c])) (hinc : Increasing name (received ++ [c]))
    (hc : c.origin = name) (hrun : balance cfg name received = .ok s) :
    let rounds := (s.trackers.record c).throughput.rounds
    (c.round % trackingWindow = 0 →
      ((∃ r, InWindow (c.round - 2) r ∧ (rounds.lookup r).isSome) →
        (rounds.lookup (c.round - 2)).isSome) ∧
      ∀ r, 1 ≤ r → InWindow (c.round - 2) r → (rounds.lookup r).isSome) ∧
    (c.round % rerouteInterval = 0 → s.memory.prevEvalTsMs = none →
      (rounds.lookup (c.round - 2 - trackingWindow)).isSome) ∧
    ∀ e, onCertificate cfg name s c = .error e → e = .index := by
  obtain ⟨b, h⟩ := tracking_balance hinc.of_append hrun
  have hb := h.bound.le hinc hc
  have ht : Tracking name (received ++ [c]) (s.trackers.record c) b := h.record
  have hone := (Causal.last (p := ⟨cfg.committee, 0⟩) hd).one_le_round
  have hwindow : trackingWindow = 30 := rfl
  have hinterval : rerouteInterval = 60 := rfl
  have hall : ∀ r, 1 ≤ r → InWindow (c.round - 2) r →
      ((s.trackers.record c).throughput.rounds.lookup r).isSome :=
    fun r hr hin => ht.isSome hd hb hr hin
  have hlast : 30 ≤ c.round →
      ((s.trackers.record c).throughput.rounds.lookup (c.round - 2)).isSome :=
    fun h30 => hall _ (by omega) ⟨by omega, le_rfl⟩
  have hfirst : 60 ≤ c.round →
      ((s.trackers.record c).throughput.rounds.lookup (c.round - 2 - trackingWindow)).isSome :=
    fun h60 => hall _ (by omega) ⟨le_rfl, by omega⟩
  have h30 : c.round % trackingWindow = 0 → 30 ≤ c.round := by
    intro hmod
    rw [hwindow] at hmod
    omega
  have h60 : c.round % rerouteInterval = 0 → 60 ≤ c.round := by
    intro hmod
    rw [hinterval] at hmod
    omega
  refine ⟨fun hmod => ⟨fun _ => hlast (h30 hmod), hall⟩,
    fun hmod _ => hfirst (h60 hmod), fun e he => ?_⟩
  unfold onCertificate at he
  dsimp only at he
  rw [if_neg (not_not.mpr hc)] at he
  have key : (if c.round % rerouteInterval ≠ 0 then
      Except.ok { s with trackers := s.trackers.record c }
    else do
      let (e, m) ← trigger cfg (s.trackers.record c) s.memory c.round c.header.createdAt
      .ok ⟨(s.trackers.record c).evict (c.round - 2 - trackingWindow), m,
        s.evaluations ++ [e]⟩ : Except BalancingPanic (Balancer PublicKey)) = .error e := by
    split at he
    · rename_i hmod
      have := h30 hmod
      obtain ⟨tps, htps⟩ := ht.getTps_isOk hd hb (by omega)
      rw [htps] at he
      exact he
    · exact he
  split at key
  · cases key
  · rename_i hmod
    have h60 : 60 ≤ c.round := h60 (not_not.mp hmod)
    obtain ⟨tps, htps⟩ := ht.getTps_isOk hd hb (by omega)
    obtain ⟨ts, hts⟩ := ht.roundTimestampMs_isOk (hlast (by omega))
    obtain ⟨first, hts'⟩ := ht.roundTimestampMs_isOk (hfirst h60)
    unfold trigger at key
    rw [htps] at key
    cases tps with
    | none => cases key
    | some tps =>
        cases hev : evaluate cfg (s.trackers.record c) s.memory c.round c.header.createdAt tps with
        | error e' =>
            simp only [hev, bind, Except.bind, Except.error.injEq] at key
            rw [← key]
            exact evaluate_error hts hts' hev
        | ok x =>
            simp only [hev, bind, Except.bind] at key
            cases key

end Runs

section Sample

open Toy

/-! Authority 0 has a certificate in every round, and 1 and 2 have stake 1 each as in `Sample`. -/

namespace Loads

def committee : Committee ℕ := Sample.committee

/-- The certificate of `o` in round `r`, whose parent is by authority 0. -/
def cert (r o avgQueueDelayMs : ℕ) (accountCounts : OrdMap ℕ ℕ) : Certificate ℕ ℕ Unit where
  header :=
    { author := o, round := r, payload := ∅, accountCounts := accountCounts
      avgQueueDelayMs := avgQueueDelayMs, createdAt := if r < 58 then 0 else 1000
      id := 4 * r + o, signature := ()
      parents := OrdSet.ofList
        [Sha512.sha512 (voteBytes (if r = 1 then 0 else 4 * (r - 1)) (r - 1) 0)] }
  votes := []

def early : List (Certificate ℕ ℕ Unit) :=
  (List.range 58).map (fun k => cert (k + 1) 0 0 ∅) ++ [cert 57 1 0 ∅]

/-- The certificate with the long delay. -/
def busy : Certificate ℕ ℕ Unit := cert 58 2 125 ⟨[(2, 8)], by decide⟩

def late : List (Certificate ℕ ℕ Unit) := [cert 59 0 0 ∅, cert 60 0 0 ∅, cert 60 1 0 ∅]

def settings : BalancingSettings ℕ where
  committee := committee
  capacityByBw pk := if pk = 2 then 4 else 100
  latencyMatrix := ⟨[(0, ∅), (1, ∅), (2, ∅)], by decide⟩
  accountRanges := ⟨[(0, (0, 1)), (1, (1, 1)), (2, (2, 1))], by decide⟩

/-- What authority 0 has received before its certificate of round 60. -/
def beforeEvaluation : List (Certificate ℕ ℕ Unit) := early ++ [busy, cert 59 0 0 ∅]

theorem causal_beforeEvaluation :
    Causal settings.committee (beforeEvaluation ++ [cert 60 0 0 ∅]) := by
  intro i hi
  have hall : ∀ i (h : i < (beforeEvaluation ++ [cert 60 0 0 ∅]).length),
      1 ≤ (beforeEvaluation ++ [cert 60 0 0 ∅])[i].round ∧
      (beforeEvaluation ++ [cert 60 0 0 ∅])[i].header.parents.toList ≠ [] ∧
      ∀ d ∈ (beforeEvaluation ++ [cert 60 0 0 ∅])[i].header.parents.toList,
        ∃ x ∈ (beforeEvaluation ++ [cert 60 0 0 ∅]).take i ++
            Certificate.genesis settings.committee,
          x.digest = d ∧ x.round + 1 = (beforeEvaluation ++ [cert 60 0 0 ∅])[i].round := by
    decide +kernel
  obtain ⟨hone, hne, hpar⟩ := hall i hi
  exact ⟨hone, hne, hpar⟩

theorem increasing_beforeEvaluation :
    Increasing 0 (beforeEvaluation ++ [cert 60 0 0 ∅]) := by
  unfold Increasing
  decide +kernel

theorem balance_beforeEvaluation : (balance settings 0 beforeEvaluation).toOption.isSome := by
  decide +kernel

end Loads

open Loads in
/-- The first evaluation finds the rounds 28 and 58. -/
theorem tracked_sample : ∃ s, balance settings 0 beforeEvaluation = .ok s ∧
    ((s.trackers.record (cert 60 0 0 ∅)).throughput.rounds.lookup 58).isSome ∧
    ((s.trackers.record (cert 60 0 0 ∅)).throughput.rounds.lookup 28).isSome ∧
    ∀ e, onCertificate settings 0 s (cert 60 0 0 ∅) = .error e → e = .index := by
  cases hrun : balance settings 0 beforeEvaluation with
  | error e =>
      have hsome := balance_beforeEvaluation
      rw [hrun] at hsome
      cases hsome
  | ok s =>
      obtain ⟨hwindow, -, hpanic⟩ := tracked settings 0 beforeEvaluation (cert 60 0 0 ∅) s
        causal_beforeEvaluation increasing_beforeEvaluation rfl hrun
      obtain ⟨-, hall⟩ := hwindow rfl
      exact ⟨s, rfl, hall 58 (by decide) (by decide), hall 28 (by decide) (by decide), hpanic⟩

end Sample

end DagBft.Consensus
